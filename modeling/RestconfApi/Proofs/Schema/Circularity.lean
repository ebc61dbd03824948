import RestconfApi.Proofs.Documents
import RestconfApi.Proofs.Schema.Copies

/-!
# Schema: circular groupings

Expanding a grouping ends: those under expansion have different names, so that there are never more of them than
groupings. It ends with the failure of circular usage when a name comes twice, and this is when groupings use each
other in a circle, or when one leads to another one of its own qualified name.
-/

namespace RestconfApi

namespace Expansion

variable {s : Schema} {fuel : Nat} {under : List String} {p q : Place}

/-! ### Groupings under expansion -/

/-- The names in `under` are those of groupings, all different, that lead to the one at `p`. -/
structure Chain (s : Schema) (under : List String) (p : Place) : Prop where
  listed : ∃ i, p ∈ s.tops i .groupings
  nodup : under.Nodup
  leads : ∀ qname ∈ under, ∃ g, g.node.qname = qname ∧ Relation.TransGen s.Uses g p

theorem chain_nil (hp : ∃ i, p ∈ s.tops i .groupings) : Chain s [] p := ⟨hp, List.nodup_nil, nofun⟩

theorem Chain.next (h : Chain s under p) (hnew : p.node.qname ∉ under) (huses : p.node.Mentions s q) :
    Chain s (under ++ [p.node.qname]) q := by
  have hpq : s.Uses p q := ⟨h.listed, huses⟩
  refine ⟨hpq.mem_tops, ?_, fun qname hq => ?_⟩
  · refine List.nodup_append.mpr ⟨h.nodup, List.nodup_cons.mpr ⟨nofun, List.nodup_nil⟩, fun a ha b hb heq => hnew ?_⟩
    rwa [← List.mem_singleton.mp hb, ← heq]
  · rcases List.mem_append.mp hq with hq | hq
    · obtain ⟨g, hname, hleads⟩ := h.leads qname hq
      exact ⟨g, hname, hleads.tail hpq⟩
    · exact ⟨p, (List.mem_singleton.mp hq).symm, .single hpq⟩

/-- No more groupings are under expansion than there are. -/
theorem Chain.length_le (hlisted : ∀ m ∈ s.modules, m.retired = false) (h : Chain s under p) :
    under.length ≤ s.groupings.length := by
  have hsub : under ⊆ s.groupings.map (·.node.qname) := by
    intro qname hq
    obtain ⟨g, rfl, hleads⟩ := h.leads qname hq
    obtain ⟨h, ⟨⟨i, hi⟩, -⟩, -⟩ := Relation.TransGen.head'_iff.mp hleads
    exact List.mem_map_of_mem (Schema.mem_groupings_of_mem_tops hlisted hi)
  have hlength := (h.nodup.subperm hsub).length_le
  rwa [List.length_map] at hlength

/-- A name that comes twice is that of a circle, or of two groupings. -/
theorem Chain.hasCycle_or (h : Chain s under p) (hmem : p.node.qname ∈ under) : s.HasCycle ∨ s.HasNamesakes := by
  obtain ⟨g, hname, hleads⟩ := h.leads _ hmem
  by_cases haddress : g.address = p.address
  · left
    obtain ⟨_, ⟨⟨i, hi⟩, -⟩, -⟩ := Relation.TransGen.head'_iff.mp hleads
    obtain ⟨j, hj⟩ := h.listed
    obtain rfl := (Schema.has_of_mem_tops hi).eq (Schema.has_of_mem_tops hj) haddress
    exact ⟨g, hleads⟩
  · exact .inr ⟨g, p, hleads, haddress, hname⟩

/-! ### Expansion ends -/

section

variable {supply supply' : Place → Expanding Node}

theorem mapM_congr {α β : Type} {f f' : α → Expanding β} {l : List α} (h : ∀ a ∈ l, f a = f' a) :
    l.mapM f = l.mapM f' := by
  induction l with
  | nil => rfl
  | cons a l ih =>
    rw [List.mapM_cons, List.mapM_cons, h a List.mem_cons_self, ih fun x hx => h x (List.mem_cons_of_mem _ hx)]

theorem supplied_congr {path : List String} {st : Statement} {ref : String}
    (h : ∀ g, s.grouping? ref st.owner = some g → supply g = supply' g) :
    supplied s supply path st ref = supplied s supply' path st ref := by
  unfold supplied
  cases hg : s.grouping? ref st.owner with
  | none => rfl
  | some g =>
    dsimp only
    rw [h g hg]

mutual

/-- A tree is expanded in the same way if the groupings are that it leads to. -/
theorem node_congr (above : List String) :
    ∀ {n : Node}, (∀ g, n.Mentions s g → supply g = supply' g) → node s supply above n = node s supply' above n
  | ⟨st, cs⟩, h => by
    have hsupplied : ∀ path, ∀ ref ∈ st.uses, supplied s supply path st ref = supplied s supply' path st ref :=
      fun path ref href => supplied_congr fun g hg => h g (Node.mentions_iff.mpr (.inl ⟨ref, href, hg⟩))
    have hchildren : ∀ c ∈ cs, ∀ g, c.Mentions s g → supply g = supply' g :=
      fun c hc g hg => h g (Node.mentions_iff.mpr (.inr ⟨c, hc, hg⟩))
    unfold node
    dsimp only
    rw [nodes_congr _ hchildren, mapM_congr (hsupplied _)]

theorem nodes_congr (above : List String) :
    ∀ {ns : List Node}, (∀ n ∈ ns, ∀ g, n.Mentions s g → supply g = supply' g) →
      nodes s supply above ns = nodes s supply' above ns
  | [], _ => rfl
  | _ :: _, h => by
    unfold nodes
    rw [node_congr above (h _ List.mem_cons_self), nodes_congr above fun n hn => h n (List.mem_cons_of_mem _ hn)]

end

end

/-- With fuel for every grouping, more of it changes nothing. -/
theorem grouping_succ (hlisted : ∀ m ∈ s.modules, m.retired = false) (hchain : Chain s under p)
    (hfuel : s.groupings.length < fuel + under.length) : grouping s (fuel + 1) under p = grouping s fuel under p := by
  induction fuel generalizing under p with
  | zero =>
    have := hchain.length_le hlisted
    omega
  | succ fuel ih =>
    rw [grouping, grouping]
    congr
    funext known
    split
    · rfl
    · dsimp only
      split
      · rfl
      · rename_i hnew
        rw [node_congr [] fun q hq => ih (hchain.next hnew hq) ?_]
        rw [List.length_append, List.length_singleton]
        omega

theorem grouping_eq_supply (hlisted : ∀ m ∈ s.modules, m.retired = false) (hp : ∃ i, p ∈ s.tops i .groupings)
    (hfuel : s.groupings.length < fuel) : grouping s fuel [] p = supply s p := by
  obtain ⟨more, rfl⟩ : ∃ more, fuel = s.groupings.length + 1 + more := Nat.exists_eq_add_of_le hfuel
  clear hfuel
  induction more with
  | zero => rfl
  | succ more ih =>
    rw [← Nat.add_assoc, grouping_succ hlisted (chain_nil hp) ?_, ih]
    rw [List.length_nil]
    omega

/-! ### Expansion fails in a circle only -/

/-- The failure of circular usage, in a schema that has reason for it. -/
def IsCircular (s : Schema) (e : Failure) : Prop :=
  (∃ names, e = .schema (.circular names)) ∧ (s.HasCycle ∨ s.HasNamesakes)

theorem grouping_fails (hlisted : ∀ m ∈ s.modules, m.retired = false) (hchain : Chain s under p)
    (hfuel : s.groupings.length < fuel + under.length) : Fails (grouping s fuel under p) (IsCircular s) := by
  induction fuel generalizing under p with
  | zero =>
    have := hchain.length_le hlisted
    omega
  | succ fuel ih =>
    unfold grouping
    refine fails_bind fails_get fun _ known _ _ => ?_
    split
    · exact fails_pure
    · dsimp only
      split
      · rename_i hmem
        exact fails_fail ⟨⟨_, rfl⟩, hchain.hasCycle_or hmem⟩
      · rename_i hnew
        refine fails_bind (node_fails [] fun q hq => ih (hchain.next hnew hq) ?_) fun _ _ _ _ => ?_
        · rw [List.length_append, List.length_singleton]
          omega
        · exact fails_bind fails_modify fun _ _ _ _ => fails_pure

theorem supply_fails (hlisted : ∀ m ∈ s.modules, m.retired = false) (hp : ∃ i, p ∈ s.tops i .groupings) :
    Fails (supply s p) (IsCircular s) :=
  grouping_fails hlisted (chain_nil hp) (Nat.lt_succ_self _)

theorem modules_fail (hlisted : ∀ m ∈ s.modules, m.retired = false) :
    Fails (s.modules.zipIdx.mapM fun (m, i) => module s m i) (IsCircular s) :=
  fails_mapM fun (_, i) _ => module_fails (fun _ hg => supply_fails hlisted ⟨i, hg⟩) fun _ _ _ hg =>
    supply_fails hlisted (Node.Mentions.mem_tops hg)

/-- An augment fails in a circle, without a target, or with one that is no text. -/
theorem augment_fails (hlisted : ∀ m ∈ s.modules, m.retired = false) {E : Failure → Prop}
    (hcircular : ∀ e, IsCircular s e → E e) (hlost : ∀ target owner, E (.schema (.lostTarget target owner)))
    {a : Declaration.Augment} (htype : a.target.asText? = none → E .wrongType) (S : Schema) :
    Fails (augment s S a) E := by
  unfold augment
  split
  · exact fails_fail (htype ‹_›)
  · dsimp only
    split
    · exact fails_fail (hlost _ _)
    · refine fails_bind (nodes_fail [] fun n _ g hg => ?_) fun _ _ _ _ => ?_
      · exact (supply_fails hlisted (Node.Mentions.mem_tops hg)).mono hcircular
      · exact fails_bind (fails_lift fun _ => nofun) fun _ _ _ _ => fails_pure

theorem expanding_fails (hlisted : ∀ m ∈ s.modules, m.retired = false) {E : Failure → Prop}
    (hcircular : ∀ e, IsCircular s e → E e) (hlost : ∀ target owner, E (.schema (.lostTarget target owner)))
    {augments : List Declaration.Augment} (htype : ∀ a ∈ augments, a.target.asText? = none → E .wrongType) :
    Fails (expanding s augments) E :=
  fails_bind ((modules_fail hlisted).mono hcircular) fun _ _ _ _ =>
    fails_foldlM (fun a ha S => augment_fails hlisted hcircular hlost (htype a ha) S) _

theorem Unrolls.not_hasCycle {M : Expanded} {declared s' : Schema} {augments : List Declaration.Augment}
    (h : Unrolls declared augments M s') : ¬declared.HasCycle := by
  rintro ⟨g, hcycle⟩
  obtain ⟨S, hmodules, -⟩ := h.expanded
  obtain ⟨_, ⟨⟨i, hi⟩, -⟩, -⟩ := Relation.TransGen.head'_iff.mp hcycle
  exact h.unfolded.not_transGen (isSome_get?_of_forall₂ hmodules hi) hcycle

/-- The expansion of modules fails if groupings use each other in a circle. -/
theorem exists_circular_of_hasCycle (hlisted : ∀ m ∈ s.modules, m.retired = false) (hcycle : s.HasCycle)
    (augments : List Declaration.Augment) :
    ∃ names, (expanding s augments []).result = .error (.schema (.circular names)) := by
  have hbind : (expanding s augments []).result = _ := Logged.result_bind _ _
  cases hrun : ((s.modules.zipIdx.mapM fun (m, i) => module s m i) []).result with
  | error e =>
    obtain ⟨⟨names, rfl⟩, -⟩ := modules_fail hlisted [] e hrun
    rw [hrun] at hbind
    exact ⟨names, hbind⟩
  | ok r =>
    exfalso
    obtain ⟨g, hcycle⟩ := hcycle
    obtain ⟨_, ⟨⟨i, hi⟩, -⟩, -⟩ := Relation.TransGen.head'_iff.mp hcycle
    obtain ⟨hunfolding, hmodules⟩ := modules_unfold s [] r.1 r.2 hrun
    exact (hunfolding.unfolded .nil).not_transGen (isSome_get?_of_forall₂ hmodules hi) hcycle

end Expansion

/-! ### Documents -/

namespace Schema

/-- What is wrong with a document that does not load. -/
def fault? (d : Datum) : Option SchemaFault :=
  match (load d).result with
  | .error (.schema fault) => some fault
  | _ => none

theorem error_of_fault? {d : Datum} {fault : SchemaFault} (h : fault? d = some fault) :
    (load d).result = .error (.schema fault) := by
  unfold fault? at h
  split at h
  · obtain rfl := Option.some.inj h
    assumption
  · cases h

/-- Loading fails as the expansion of what a document declares does. -/
theorem result_load {d : Datum} {modules : List Module} {augments : List Declaration.Augment}
    (h : Declaration.document d = .ok (modules, augments)) : (load d).result =
      (Expansion.expanding ⟨modules⟩ augments []).result.map fun r => ⟨r.1.modules.map Module.withConfig⟩ := by
  unfold load Expansion.schema
  rw [Logged.ofExcept, h, Logged.result_bind]
  show (((Expansion.expanding ⟨modules⟩ augments [] >>= fun r => pure r.1) >>= _ : Logged Schema)).result = _
  rw [Logged.result_bind, Logged.result_bind]
  cases (Expansion.expanding ⟨modules⟩ augments []).result <;> rfl

/-- Expansion ends with the fuel it has, and more would not change it. When the groupings of a document use each other
in a circle then loading fails for this, and it only fails so when they do or when one of them leads to another one of
its own qualified name. -/
theorem circular_of_load {d : Datum} {modules : List Module} {augments : List Declaration.Augment}
    (h : Declaration.document d = .ok (modules, augments)) :
    (∀ fuel, (⟨modules⟩ : Schema).groupings.length < fuel → ∀ i, ∀ g ∈ (⟨modules⟩ : Schema).tops i .groupings,
      Expansion.grouping ⟨modules⟩ fuel [] g = Expansion.supply ⟨modules⟩ g) ∧
    ((⟨modules⟩ : Schema).HasCycle → ∃ names, (load d).result = .error (.schema (.circular names))) ∧
    ∀ names, (load d).result = .error (.schema (.circular names)) →
      (⟨modules⟩ : Schema).HasCycle ∨ (⟨modules⟩ : Schema).HasNamesakes := by
  have hlisted : ∀ m ∈ (⟨modules⟩ : Schema).modules, m.retired = false :=
    fun m hm => ((Declaration.document_ok h).1 m hm).retired
  refine ⟨fun fuel hfuel i g hg => Expansion.grouping_eq_supply hlisted ⟨i, hg⟩ hfuel, fun hcycle => ?_,
    fun names herror => ?_⟩
  · obtain ⟨names, herror⟩ := Expansion.exists_circular_of_hasCycle hlisted hcycle augments
    exact ⟨names, by rw [result_load h, herror]; rfl⟩
  · rw [result_load h] at herror
    cases hrun : (Expansion.expanding ⟨modules⟩ augments []).result with
    | ok r =>
      rw [hrun] at herror
      cases herror
    | error e =>
      rw [hrun] at herror
      obtain rfl := Except.error.inj herror
      exact Expansion.expanding_fails hlisted (E := fun e => e = .schema (.circular names) → _)
        (fun e he _ => he.2) nofun nofun [] _ hrun rfl

end Schema

open Example Schema

/-- A grouping with a container that uses a grouping that uses the first one. -/
def Example.circle : Datum :=
  document [("groupings", [
    grouping "g" [container "c" ["h"]],
    .object [("name", .text "h"), ("uses", .texts ["g"])]])]

theorem circular_of_load_circle : ∃ modules augments, Declaration.document Example.circle = .ok (modules, augments) ∧
    (load Example.circle).result = .error (.schema (.circular ["m:g", "m:h", "m:g"])) ∧
      ((⟨modules⟩ : Schema).HasCycle ∨ (⟨modules⟩ : Schema).HasNamesakes) := by
  have hdeclared : (Declaration.document Example.circle).toOption.isSome = true := by
    decide +kernel
  have hload : (load Example.circle).result = .error (.schema (.circular ["m:g", "m:h", "m:g"])) :=
    error_of_fault? (by decide +kernel)
  obtain ⟨⟨modules, augments⟩, hdocument⟩ := exists_of_isSome hdeclared
  exact ⟨modules, augments, hdocument, hload, (circular_of_load hdocument).2.2 _ hload⟩

/-- A grouping that uses another one of its own qualified name is taken to use itself, though it is in no circle. -/
theorem circular_of_load_namesakes : ∃ modules augments,
    Declaration.document (.object [("modules", .list Example.namesakes.reverse)]) = .ok (modules, augments) ∧
      (modules.Pairwise fun m m' => (m.name == m'.name) = false) ∧
      (∀ m ∈ modules, m.groupings.Pairwise fun g g' => (g.name == g'.name) = false) ∧
      (load (.object [("modules", .list Example.namesakes.reverse)])).result =
        .error (.schema (.circular ["m:1:g", "m:1:g"])) ∧
      ¬(⟨modules⟩ : Schema).HasCycle := by
  have hexpands : ((Declaration.document (.object [("modules", .list Example.namesakes.reverse)])).toOption.any
      fun r => decide (r.1.Pairwise fun m m' => (m.name == m'.name) = false) &&
        (r.1.all fun m => decide (m.groupings.Pairwise fun g g' => (g.name == g'.name) = false)) &&
        (Expansion.expandingAfter ⟨r.1⟩ r.2 ((⟨r.1⟩ : Schema).tops 1 .groupings) []).result.toOption.isSome) =
          true := by
    decide +kernel
  obtain ⟨⟨modules, augments⟩, hdocument, htest⟩ := exists_of_any hexpands
  simp only [Bool.and_eq_true, decide_eq_true_eq, List.all_eq_true] at htest
  obtain ⟨⟨hmodules, hgroupings⟩, hruns⟩ := htest
  refine ⟨modules, augments, hdocument, hmodules, hgroupings, error_of_fault? (by decide +kernel), ?_⟩
  -- in the other order all groupings can be expanded
  obtain ⟨⟨s, M⟩, hrun⟩ := exists_of_isSome hruns
  exact (Expansion.expandingAfter_unrolls (fun g hg => ⟨1, hg⟩) s M hrun).not_hasCycle

end RestconfApi
