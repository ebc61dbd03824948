import RestconfApi.Proofs.Schema.Circularity
import RestconfApi.Proofs.Schema.Reordering

/-!
# Schema: loading modules in another order

Whether a document loads does not depend on the order of its modules, as long as those modules keep their order whose
augments bear on each other. Groupings are expanded on demand, so that their order does not matter, but a grouping
under expansion is known by its qualified name only.
-/

namespace RestconfApi

open Expansion

namespace Schema

variable {f : Equiv.Perm Nat} {s s' S S' : Schema} {M M' : Expanded} {augments augments' : List Declaration.Augment}

/-! ### Spots in another order -/

/-- Names lead to a data node among grown trees where they have led to one. -/
theorem isSome_below?_of_grows {grown : Prop} {ns ns' : List Node} (h : List.Forall₂ (Node.Grows grown) ns ns')
    {names : List String} (hsome : ((Place.forest ns).below? names).isSome = true) :
    ((Place.forest ns').below? names).isSome = true := by
  have hforest : (Place.forest ns).Grows grown id (Place.forest ns') :=
    ⟨rfl, Node.grows_of_children rfl rfl h, .nil⟩
  have hbelow : ∀ names x, (Place.forest ns).below? names = some x →
      ∃ x', (Place.forest ns').below? names = some x' ∧ x.Grows grown id x' := by
    intro names
    induction names with
    | nil =>
      rintro _ ⟨⟩
      exact ⟨_, rfl, hforest⟩
    | cons name names ih =>
      intro x hx
      obtain ⟨y, hy, hx⟩ := Option.bind_eq_some_iff.mp hx
      obtain ⟨y', hy', hgrows⟩ := ih y hy
      obtain ⟨x', hx', hgrows'⟩ := hgrows.child? hx
      exact ⟨x', by rw [Place.below?, hy', Option.bind_some, hx'], hgrows'⟩
  obtain ⟨x, hx⟩ := Option.isSome_iff_exists.mp hsome
  obtain ⟨x', hx', -⟩ := hbelow names x hx
  rw [hx']
  rfl

theorem Reorders.spots? (h : Reorders f s s') (a : Declaration.Augment) :
    a.spots? s' = (a.spots? s).map (List.map (Spot.moved f)) := by
  rw [Declaration.Augment.spots?, Declaration.Augment.spots?]
  cases a.target.asText? with
  | none => rfl
  | some path => rw [Option.bind_some, Option.bind_some, waypoints?_moved h.position? path]

theorem Reorders.adds (h : Reorders f s s') {m : Module} (hm : m ∈ s.modules) {a : Declaration.Augment}
    (ha : ∀ n ∈ a.nodes, Declaration.DeclaresTree m.name n) {root x : Spot} (hadds : a.Adds s root x) :
    a.Adds s' (root.moved f) (x.moved f) := by
  obtain ⟨M, added, xs, target, names, name, hM, hadded, hxs, htarget, rfl, rfl, hbelow⟩ := hadds
  refine ⟨M.moved f, added.map (Node.moved f), xs.map (Spot.moved f), target.moved f, names, name, h.unfolded hM,
    h.forall₂_unfolds hm ha hadded, ?_, ?_, rfl, rfl, ?_⟩
  · rw [h.spots?, hxs, Option.map_some]
  · rw [List.getLast?_map, htarget, Option.map_some]
  · exact isSome_below?_of_grows (Node.forall₂_moved True added) hbelow

theorem moved_injective (f : Equiv.Perm Nat) : Function.Injective (Spot.moved f) := by
  rintro ⟨i, names⟩ ⟨j, names'⟩ heq
  simpa [Spot.moved] using heq

theorem moved_symm_moved (f : Equiv.Perm Nat) (x : Spot) : (x.moved f).moved f.symm = x := by simp [Spot.moved]

/-- An augment has the same spots, seen from the first order. -/
theorem Reorders.graft (h : Reorders f s s') {m : Module} (hm : m ∈ s.modules) {a : Declaration.Augment}
    (ha : ∀ n ∈ a.nodes, Declaration.DeclaresTree m.name n) : a.graft s' f = a.graft s id := by
  have hpasses : (a.graft s' f).passes = (a.graft s id).passes := by
    ext x
    constructor
    · rintro ⟨xs', hxs', hx⟩
      rw [h.spots?] at hxs'
      obtain ⟨xs, hxs, rfl⟩ := Option.map_eq_some_iff.mp hxs'
      obtain ⟨y, hy, heq⟩ := List.mem_map.mp hx
      obtain rfl := moved_injective f heq
      exact ⟨xs, hxs, hy⟩
    · rintro ⟨xs, hxs, hx⟩
      refine ⟨xs.map (Spot.moved f), ?_, List.mem_map_of_mem hx⟩
      rw [h.spots?, hxs, Option.map_some]
  have hadds : (a.graft s' f).adds = (a.graft s id).adds := by
    ext root x
    constructor
    · intro hx
      have hback := h.symm.adds (h.mem hm) ha hx
      rwa [moved_symm_moved, moved_symm_moved] at hback
    · intro hx
      exact h.adds hm ha hx
  unfold Declaration.Augment.graft at hpasses hadds ⊢
  congr

theorem Reorders.there (h : Reorders f s s') (hM : M.Unfolded s) (hM' : M'.Unfolded s')
    (hmodules : List.Forall₂ (ModuleUnfolds s M) s.modules.zipIdx S.modules)
    (hmodules' : List.Forall₂ (ModuleUnfolds s' M') s'.modules.zipIdx S'.modules) : S'.there f = S.there id := by
  ext x
  constructor
  · intro hx
    obtain ⟨p, hp⟩ := Option.isSome_iff_exists.mp hx
    obtain ⟨p', hp', -⟩ := (h.symm.growsTo hM' hM hmodules' hmodules).spot? hp
    rw [moved_symm_moved] at hp'
    exact Option.isSome_iff_exists.mpr ⟨p', hp'⟩
  · intro hx
    obtain ⟨p, hp⟩ := Option.isSome_iff_exists.mp hx
    obtain ⟨p', hp', -⟩ := (h.growsTo hM hM' hmodules hmodules').spot? hp
    exact Option.isSome_iff_exists.mpr ⟨p', hp'⟩

/-! ### Expansion of all modules -/

/-- All modules of a schema have been expanded, and so can be all augments, which have paths to their targets. -/
structure Expands (s : Schema) (augments : List Declaration.Augment) (M : Expanded) (S : Schema) : Prop where
  unfolded : M.Unfolded s
  modules : List.Forall₂ (ModuleUnfolds s M) s.modules.zipIdx S.modules
  augments : ∀ a ∈ augments, (∃ xs, a.spots? s = some xs) ∧ ∃ added, List.Forall₂ (Unfolds s M) a.nodes added

theorem exists_unrolls_iff (f : Equiv.Perm Nat) : (∃ M T, Unrolls s augments M T) ↔
    ∃ M S, Expands s augments M S ∧ Graft.Runs (S.there f) (augments.map (·.graft s f)) := by
  constructor
  · rintro ⟨M, T, hM, S, hmodules, hgrafts⟩
    have hrun := (exists_grafts_iff (f := f) hM (position?_of_modules hmodules)).mp ⟨T, hgrafts⟩
    exact ⟨M, S, ⟨hM, hmodules, hrun.1⟩, hrun.2⟩
  · rintro ⟨M, S, hexpands, hruns⟩
    obtain ⟨T, hgrafts⟩ := (exists_grafts_iff hexpands.unfolded (position?_of_modules hexpands.modules)).mpr
      ⟨hexpands.augments, hruns⟩
    exact ⟨M, T, hexpands.unfolded, S, hexpands.modules, hgrafts⟩

theorem Reorders.moduleUnfolds (h : Reorders f s s') {m m' : Module} {i : Nat} (hm : s.modules[i]? = some m)
    (hunfolds : ModuleUnfolds s M (m, i) m') : ∃ m'', ModuleUnfolds s' (M.moved f) (m, f i) m'' := by
  have hmem := List.mem_of_getElem? hm
  have hdeclared := h.declared m hmem
  refine ⟨{ m with
    groupings := m'.groupings.map (Node.moved f)
    data := m'.data.map (Node.moved f)
    rpcs := m'.rpcs.map (Node.moved f) }, rfl, ?_, h.forall₂_unfolds hmem (hdeclared.trees .data) hunfolds.data,
    h.forall₂_unfolds hmem (hdeclared.trees .rpcs) hunfolds.rpcs⟩
  dsimp only
  rw [h.tops]
  refine List.forall₂_map_left_iff.mpr (List.forall₂_map_right_iff.mpr (hunfolds.groupings.imp fun g n hn => ?_))
  have hget := M.get?_moved (f := f) g.address
  rw [hn] at hget
  exact hget

/-- What can be expanded in one order can be expanded in another. -/
theorem Reorders.expands (h : Reorders f s s') (hexpands : Expands s augments M S)
    (haugments : ∀ a ∈ augments, ∃ m ∈ s.modules, ∀ n ∈ a.nodes, Declaration.DeclaresTree m.name n)
    (hmem : ∀ a ∈ augments', a ∈ augments) : ∃ S', Expands s' augments' (M.moved f) S' := by
  have hmodule : ∀ mi ∈ s'.modules.zipIdx, ∃ m', ModuleUnfolds s' (M.moved f) mi m' := by
    rintro ⟨m, j⟩ hmj
    have hm : s.modules[f.symm j]? = some m := (h.symm.modules j).trans (List.mem_zipIdx_iff_getElem?.mp hmj)
    have hmi : (m, f.symm j) ∈ s.modules.zipIdx := List.mem_zipIdx_iff_getElem?.mpr hm
    obtain ⟨m', -, hm'⟩ := exists_of_forall₂ hexpands.modules hmi
    obtain ⟨m'', hm''⟩ := h.moduleUnfolds hm hm'
    rw [Equiv.apply_symm_apply] at hm''
    exact ⟨m'', hm''⟩
  obtain ⟨modules', hmodules'⟩ := exists_forall₂ hmodule
  refine ⟨⟨modules'⟩, h.unfolded hexpands.unfolded, hmodules', fun a ha => ?_⟩
  obtain ⟨m, hm, htrees⟩ := haugments a (hmem a ha)
  obtain ⟨⟨xs, hxs⟩, added, hadded⟩ := hexpands.augments a (hmem a ha)
  refine ⟨⟨xs.map (Spot.moved f), ?_⟩, added.map (Node.moved f), h.forall₂_unfolds hm htrees hadded⟩
  rw [h.spots?, hxs, Option.map_some]

/-- A schema with its augments becomes another one in one order of modules if it does in the other, and if the augments
find what they pass in both of their orders. -/
theorem Reorders.exists_unrolls_iff (h : Reorders f s s')
    (haugments : ∀ a ∈ augments, ∃ m ∈ s.modules, ∀ n ∈ a.nodes, Declaration.DeclaresTree m.name n)
    (hmem : ∀ a, a ∈ augments' ↔ a ∈ augments) (hruns : ∀ there, Graft.Runs there (augments.map (·.graft s id)) ↔
      Graft.Runs there (augments'.map (·.graft s id))) :
    (∃ M T, Unrolls s augments M T) ↔ ∃ M T, Unrolls s' augments' M T := by
  have hgrafts : augments'.map (·.graft s' f) = augments'.map (·.graft s id) := by
    refine List.map_congr_left fun a ha => ?_
    obtain ⟨m, hm, htrees⟩ := haugments a ((hmem a).mp ha)
    exact h.graft hm htrees
  rw [Schema.exists_unrolls_iff (Equiv.refl Nat), Schema.exists_unrolls_iff f, hgrafts]
  constructor
  · rintro ⟨M, S, hexpands, hfound⟩
    obtain ⟨S', hexpands'⟩ := h.expands hexpands haugments fun a ha => (hmem a).mp ha
    have hthere := h.there hexpands.unfolded hexpands'.unfolded hexpands.modules hexpands'.modules
    refine ⟨M.moved f, S', hexpands', ?_⟩
    rw [hthere]
    exact (hruns _).mp hfound
  · rintro ⟨M', S', hexpands', hfound⟩
    have haugments' : ∀ a ∈ augments', ∃ m ∈ s'.modules, ∀ n ∈ a.nodes, Declaration.DeclaresTree m.name n := by
      intro a ha
      obtain ⟨m, hm, htrees⟩ := haugments a ((hmem a).mp ha)
      exact ⟨m, h.mem hm, htrees⟩
    obtain ⟨S, hexpands⟩ := h.symm.expands hexpands' haugments' fun a ha => (hmem a).mpr ha
    have hthere := h.there hexpands.unfolded hexpands'.unfolded hexpands.modules hexpands'.modules
    refine ⟨M'.moved f.symm, S, hexpands, ?_⟩
    rw [hthere] at hfound
    exact (hruns _).mpr hfound

/-- Where no grouping leads to a namesake, a schema expands exactly if it can become another one. -/
theorem exists_expanding_iff (hlisted : ∀ m ∈ s.modules, m.retired = false) (hnamesakes : ¬s.HasNamesakes) :
    (∃ r, (expanding s augments []).result = .ok r) ↔ ∃ M T, Unrolls s augments M T := by
  constructor
  · rintro ⟨⟨T, M⟩, hrun⟩
    exact ⟨M, T, expanding_unrolls s augments .nil T M hrun⟩
  · rintro ⟨M, T, hunrolls⟩
    cases hrun : (expanding s augments []).result with
    | ok r => exact ⟨r, rfl⟩
    | error e =>
      exfalso
      have hcircular : ¬IsCircular s e := by
        rintro ⟨-, hcycle | hnames⟩
        · exact hunrolls.not_hasCycle hcycle
        · exact hnamesakes hnames
      obtain ⟨⟨modules⟩, hmodules, hgrafts⟩ := hunrolls.expanded
      rcases error_of_bind hrun with he | ⟨modules', M₁, hmodules', he⟩
      · exact hcircular (modules_fail hlisted [] e he)
      · obtain ⟨h₁, hunfolds⟩ := modules_unfold s [] modules' M₁ hmodules'
        have hM₁ := h₁.unfolded .nil
        obtain rfl : modules = modules' :=
          eq_of_forall₂ hmodules hunfolds fun _ _ _ hm hm' => hm.eq (hunrolls.unfolded.agrees hM₁) hm'
        have hsupply : Supports s M (supply s) (IsCircular s) := fun i g hg _ => supply_fails hlisted ⟨i, hg⟩
        exact hcircular (augments_fail hsupply hunrolls.unfolded hgrafts hM₁ he)

/-! ### Documents -/

/-- What a document declares, module by module, may be put in the order in which `f` tells the place of each module:
names and short names differ, no grouping leads to another one of its own qualified name, and two modules keep their
order unless all augments of one are independent of those of the other. -/
structure Rearranges (f : Equiv.Perm Nat) (declared : List (Module × List Declaration.Augment)) : Prop where
  names : ∀ {i j : Nat} {r r' : Module × List Declaration.Augment}, declared[i]? = some r → declared[j]? = some r' →
    (r.1.name == r'.1.name) = true → i = j
  shortNames : ∀ {i j : Nat} {r r' : Module × List Declaration.Augment}, declared[i]? = some r →
    declared[j]? = some r' → (r.1.shortName == r'.1.shortName) = true → i = j
  namesakes : ¬(⟨declared.map (·.1)⟩ : Schema).HasNamesakes
  keeps : ∀ {i j : Nat} {r r' : Module × List Declaration.Augment}, declared[i]? = some r → declared[j]? = some r' →
    i < j → f i < f j ∨ ∀ a ∈ r.2, ∀ b ∈ r'.2,
      (a.graft ⟨declared.map (·.1)⟩ id).Independent (b.graft ⟨declared.map (·.1)⟩ id)

section

variable {declared declared' : List (Module × List Declaration.Augment)}

/-- All that a list of modules declares is theirs. -/
def AreDeclared (declared : List (Module × List Declaration.Augment)) : Prop :=
  ∀ r ∈ declared, Declaration.DeclaresModule r.1 ∧ ∀ a ∈ r.2, ∀ n ∈ a.nodes, Declaration.DeclaresTree r.1.name n

theorem mem_of_perm {α : Type} {l l' : List α} (hperm : ∀ i, l'[f i]? = l[i]?) {a : α} (ha : a ∈ l') : a ∈ l := by
  obtain ⟨j, hj⟩ := List.mem_iff_getElem?.mp ha
  have hi := hperm (f.symm j)
  rw [Equiv.apply_symm_apply, hj] at hi
  exact List.mem_of_getElem? hi.symm

theorem Rearranges.reorders (h : Rearranges f declared) (hdeclared : AreDeclared declared)
    (hperm : ∀ i, declared'[f i]? = declared[i]?) : Reorders f ⟨declared.map (·.1)⟩ ⟨declared'.map (·.1)⟩ where
  modules i := by rw [List.getElem?_map, List.getElem?_map, hperm]
  names := by
    intro i j m m' hm hm' hname
    rw [List.getElem?_map, Option.map_eq_some_iff] at hm hm'
    obtain ⟨r, hr, rfl⟩ := hm
    obtain ⟨r', hr', rfl⟩ := hm'
    exact h.names hr hr' hname
  shortNames := by
    intro i j m m' hm hm' hname
    rw [List.getElem?_map, Option.map_eq_some_iff] at hm hm'
    obtain ⟨r, hr, rfl⟩ := hm
    obtain ⟨r', hr', rfl⟩ := hm'
    exact h.shortNames hr hr' hname
  declared := by
    intro m hm
    obtain ⟨r, hr, rfl⟩ := List.mem_map.mp hm
    exact (hdeclared r hr).1

/-- The modules expand in one order if they do in the other. -/
theorem Rearranges.exists_expanding_iff (h : Rearranges f declared) (hdeclared : AreDeclared declared)
    (hperm : ∀ i, declared'[f i]? = declared[i]?) :
    (∃ r, (expanding ⟨declared.map (·.1)⟩ (declared.flatMap (·.2)) []).result = .ok r) ↔
      ∃ r, (expanding ⟨declared'.map (·.1)⟩ (declared'.flatMap (·.2)) []).result = .ok r := by
  have hreorders := h.reorders hdeclared hperm
  have hmem : ∀ r ∈ declared', r ∈ declared := fun r hr => mem_of_perm hperm hr
  have hmem' : ∀ r ∈ declared, r ∈ declared' := fun r hr => mem_of_perm (f := f.symm) (fun j => by
    rw [← hperm, Equiv.apply_symm_apply]) hr
  have hnamesakes' : ¬(⟨declared'.map (·.1)⟩ : Schema).HasNamesakes :=
    fun hnamesakes => h.namesakes (hreorders.symm.hasNamesakes hnamesakes)
  have hlisted : ∀ m ∈ declared.map (·.1), m.retired = false := fun m hm => (hreorders.declared m hm).retired
  have hlisted' : ∀ m ∈ declared'.map (·.1), m.retired = false := fun m hm => (hreorders.symm.declared m hm).retired
  rw [Schema.exists_expanding_iff hlisted h.namesakes, Schema.exists_expanding_iff hlisted' hnamesakes']
  refine hreorders.exists_unrolls_iff (fun a ha => ?_) (fun a => ?_) fun there => ?_
  · obtain ⟨r, hr, ha⟩ := List.mem_flatMap.mp ha
    exact ⟨r.1, List.mem_map_of_mem hr, (hdeclared r hr).2 a ha⟩
  · simp only [List.mem_flatMap]
    exact exists_congr fun r => and_congr_left fun _ => ⟨hmem r, hmem' r⟩
  · rw [List.map_flatMap, List.map_flatMap]
    refine Graft.runs_reorder hperm fun hr hr' hlt => ?_
    rcases h.keeps hr hr' hlt with hkeeps | hind
    · exact .inl hkeeps
    · refine .inr fun g hg g' hg' => ?_
      obtain ⟨a, ha, rfl⟩ := List.mem_map.mp hg
      obtain ⟨b, hb, rfl⟩ := List.mem_map.mp hg'
      exact hind a ha b hb

end

/-- The declarations of a document with a list of modules. -/
theorem document_of_items {d : Datum} {items : List Datum} {mark : Mark} (h : d.field "modules" = .list items mark)
    {modules : List Module} {augments : List Declaration.Augment} :
    Declaration.document d = .ok (modules, augments) ↔ items ≠ [] ∧ ∃ declared,
      items.mapM Declaration.module = .ok declared ∧ modules = declared.map (·.1) ∧
        augments = declared.flatMap (·.2) := by
  have hdocument : Declaration.document d = if items.isEmpty = true then .error (.schema .noModules) else
      (items.mapM Declaration.module).bind fun declared => .ok (declared.map (·.1), declared.flatMap (·.2)) := by
    cases d with
    | mapping entries _ =>
      rw [Declaration.document, h]
      cases items <;> rfl
    | _ => cases h
  rw [hdocument, ← List.isEmpty_eq_false_iff]
  cases items.isEmpty with
  | true => simp
  | false =>
    cases items.mapM Declaration.module with
    | error e =>
      constructor
      · intro h
        cases h
      · rintro ⟨-, _, ⟨⟩, -⟩
    | ok declared =>
      constructor
      · rintro ⟨⟩
        exact ⟨rfl, declared, rfl, rfl, rfl⟩
      · rintro ⟨-, _, ⟨⟩, rfl, rfl⟩
        rfl

/-- A document loads if all its modules are declared, there is one at least, and they expand. -/
theorem exists_load_iff {d : Datum} {items : List Datum} {mark : Mark} (h : d.field "modules" = .list items mark) :
    (∃ s, (load d).result = .ok s) ↔ items ≠ [] ∧ ∃ declared, items.mapM Declaration.module = .ok declared ∧
      ∃ r, (expanding ⟨declared.map (·.1)⟩ (declared.flatMap (·.2)) []).result = .ok r := by
  constructor
  · rintro ⟨s, hs⟩
    cases hdocument : Declaration.document d with
    | error e =>
      rw [load, Logged.ofExcept, hdocument, Logged.result_bind] at hs
      cases hs
    | ok r =>
      obtain ⟨hne, declared, hdeclared, hmodules, haugments⟩ := (document_of_items h).mp hdocument
      rw [result_load hdocument, hmodules, haugments] at hs
      refine ⟨hne, declared, hdeclared, ?_⟩
      cases hrun : (expanding ⟨declared.map (·.1)⟩ (declared.flatMap (·.2)) []).result with
      | error e =>
        rw [hrun] at hs
        cases hs
      | ok r => exact ⟨r, rfl⟩
  · rintro ⟨hne, declared, hdeclared, r, hr⟩
    have hdocument := (document_of_items h).mpr ⟨hne, declared, hdeclared, rfl, rfl⟩
    rw [result_load hdocument, hr]
    exact ⟨_, rfl⟩

/-- Modules that are declared in one order are declared in another. -/
theorem exists_mapM_of_perm {α β : Type} {g : α → Except Failure β} {l l' : List α} {bs : List β}
    (hperm : ∀ i, l'[f i]? = l[i]?) (h : l.mapM g = .ok bs) :
    ∃ bs', l'.mapM g = .ok bs' ∧ ∀ i, bs'[f i]? = bs[i]? := by
  have hok : ∀ a ∈ l', ∃ b, g a = .ok b := by
    intro a ha
    obtain ⟨b, -, hb⟩ := exists_of_forall₂ (Declaration.forall₂_of_mapM h) (mem_of_perm hperm ha)
    exact ⟨b, hb⟩
  obtain ⟨bs', hbs'⟩ := Declaration.exists_mapM_of_forall hok
  exact ⟨bs', hbs', fun i => by rw [Declaration.getElem?_of_mapM hbs', Declaration.getElem?_of_mapM h, hperm]⟩

theorem areDeclared_of_mapM {items : List Datum} {declared : List (Module × List Declaration.Augment)}
    (h : items.mapM Declaration.module = .ok declared) : AreDeclared declared := by
  intro r hr
  obtain ⟨x, -, hx⟩ := exists_of_forall₂_right (Declaration.forall₂_of_mapM h) hr
  exact Declaration.module_ok hx

/-- Whether a document loads does not depend on the order of its modules, as long as modules keep their order that
have augments which bear on each other. -/
theorem exists_load_iff_of_rearranges {d d' : Datum} {items items' : List Datum} {mark mark' : Mark}
    {f : Equiv.Perm Nat} (hitems : d.field "modules" = .list items mark)
    (hitems' : d'.field "modules" = .list items' mark') (hperm : ∀ i, items'[f i]? = items[i]?)
    (hrearranges : ∀ declared, items.mapM Declaration.module = .ok declared → Rearranges f declared) :
    (∃ s, (load d).result = .ok s) ↔ ∃ s, (load d').result = .ok s := by
  have hback : ∀ i, items[f.symm i]? = items'[i]? := by
    intro i
    rw [← hperm, Equiv.apply_symm_apply]
  have hnil : items ≠ [] ↔ items' ≠ [] := by
    rw [not_iff_not, List.eq_nil_iff_forall_not_mem, List.eq_nil_iff_forall_not_mem]
    exact forall_congr' fun x => not_congr ⟨mem_of_perm hback, mem_of_perm hperm⟩
  rw [exists_load_iff hitems, exists_load_iff hitems']
  refine and_congr hnil ?_
  constructor
  · rintro ⟨declared, hdeclared, hruns⟩
    obtain ⟨declared', hdeclared', hperm'⟩ := exists_mapM_of_perm hperm hdeclared
    have hiff := (hrearranges declared hdeclared).exists_expanding_iff (areDeclared_of_mapM hdeclared) hperm'
    exact ⟨declared', hdeclared', hiff.mp hruns⟩
  · rintro ⟨declared', hdeclared', hruns⟩
    obtain ⟨declared, hdeclared, hperm'⟩ := exists_mapM_of_perm hback hdeclared'
    have hforth : ∀ i, declared'[f i]? = declared[i]? := by
      intro i
      rw [← hperm', Equiv.symm_apply_apply]
    have hiff := (hrearranges declared hdeclared).exists_expanding_iff (areDeclared_of_mapM hdeclared) hforth
    exact ⟨declared, hdeclared, hiff.mpr hruns⟩

/-! ### A test -/

/-- A test for modules that may be put in another order: namesakes are not even looked for, and augments of modules
that change their order must be apart. -/
def mayRearrange (f : Nat → Nat) (declared : List (Module × List Declaration.Augment)) : Bool :=
  let s : Schema := ⟨declared.map (·.1)⟩
  (declared.zipIdx.all fun x => declared.zipIdx.all fun y =>
    ((!(x.1.1.name == y.1.1.name) && !(x.1.1.shortName == y.1.1.shortName)) || x.2 == y.2) &&
      (decide (y.2 ≤ x.2) || decide (f x.2 < f y.2) || x.1.2.all fun a => y.1.2.all fun b => a.isApart s b)) &&
    s.groupings.all fun g => s.groupings.all fun h => decide (g.node.qname = h.node.qname → g.address = h.address)

theorem rearranges_of_mayRearrange {f : Equiv.Perm Nat} {declared : List (Module × List Declaration.Augment)}
    (hdeclared : AreDeclared declared) (h : mayRearrange f declared = true) : Rearranges f declared := by
  simp only [mayRearrange, Bool.and_eq_true, List.all_eq_true, Bool.or_eq_true, Bool.not_eq_true', beq_iff_eq,
    decide_eq_true_eq] at h
  obtain ⟨hpairs, hgroupings⟩ := h
  have hpair : ∀ {i j : Nat} {r r' : Module × List Declaration.Augment}, declared[i]? = some r →
      declared[j]? = some r' → _ := fun {i j r r'} hr hr' => hpairs (r, i) (List.mem_zipIdx_iff_getElem?.mpr hr) (r', j)
    (List.mem_zipIdx_iff_getElem?.mpr hr')
  constructor
  · intro i j r r' hr hr' hname
    rcases (hpair hr hr').1 with ⟨hne, -⟩ | heq
    · rw [hname] at hne
      cases hne
    · exact heq
  · intro i j r r' hr hr' hname
    rcases (hpair hr hr').1 with ⟨-, hne⟩ | heq
    · rw [hname] at hne
      cases hne
    · exact heq
  · rintro ⟨g, h, hleads, hne, hname⟩
    have hlisted : ∀ m ∈ declared.map (·.1), m.retired = false := by
      intro m hm
      obtain ⟨r, hr, rfl⟩ := List.mem_map.mp hm
      exact (hdeclared r hr).1.retired
    obtain ⟨_, ⟨⟨i, hi⟩, -⟩, -⟩ := Relation.TransGen.head'_iff.mp hleads
    obtain ⟨_, -, huses⟩ := Relation.TransGen.tail'_iff.mp hleads
    obtain ⟨j, hj⟩ := huses.mem_tops
    exact hne (hgroupings g (mem_groupings_of_mem_tops hlisted hi) h (mem_groupings_of_mem_tops hlisted hj) hname)
  · intro i j r r' hr hr' hlt
    rcases (hpair hr hr').2 with (hle | hkeeps) | hapart
    · dsimp only at hle
      omega
    · exact .inl hkeeps
    · exact .inr fun a ha b hb => Declaration.Augment.independent_of_isApart (hapart a ha b hb)

end Schema

open Example Schema

/-- A document with the given modules. -/
def Example.ofModules (items : List Datum) : Datum := .object [("modules", .list items)]

def Example.augmenting (name : String) (target : String) (children : List Datum) : Datum :=
  module name [("augments", [.object [("target", .text target), ("children", .list children)]])]

/-- A module with a container that a grouping fills, one that augments what the grouping adds, one that augments what
the second one adds, and one that augments another container. -/
def Example.chained : List Datum := [
  module "b" [("groupings", [grouping "g" [container "e" []]]), ("data", [container "c" ["g"], container "x" []])],
  augmenting "a" "/b:c/b:e" [container "d" []],
  augmenting "l" "/b:c/b:e/a:d" [leaf "k"],
  augmenting "z" "/b:x" [leaf "k"]]

/-- The same modules, the last one first and the first one last. -/
def Example.rechained : List Datum := [Example.chained[3], Example.chained[1], Example.chained[2], Example.chained[0]]

theorem exists_load_iff_of_rearranges_chained :
    (∀ declared, Example.chained.mapM Declaration.module = .ok declared → Rearranges (Equiv.swap 0 3) declared) ∧
      (∀ i, Example.rechained[Equiv.swap 0 3 i]? = Example.chained[i]?) ∧
      (∃ s, (load (ofModules Example.chained)).result = .ok s) ∧
      ∃ s, (load (ofModules Example.rechained)).result = .ok s := by
  have hloads : (load (ofModules Example.chained)).result.toOption.isSome = true := by
    decide +kernel
  have htest : ((Example.chained.mapM Declaration.module).toOption.any (mayRearrange (Equiv.swap 0 3))) = true := by
    decide +kernel
  have hrearranges : ∀ declared, Example.chained.mapM Declaration.module = .ok declared →
      Rearranges (Equiv.swap 0 3) declared := by
    intro declared hdeclared
    rw [hdeclared] at htest
    exact rearranges_of_mayRearrange (areDeclared_of_mapM hdeclared) htest
  have hperm : ∀ i, Example.rechained[Equiv.swap 0 3 i]? = Example.chained[i]? := by
    intro i
    match i with
    | 0 | 1 | 2 | 3 => rfl
    | i + 4 =>
      rw [Equiv.swap_apply_of_ne_of_ne (by omega) (by omega)]
      rfl
  refine ⟨hrearranges, hperm, exists_of_isSome hloads, ?_⟩
  exact (exists_load_iff_of_rearranges (d := ofModules Example.chained) rfl rfl hperm hrearranges).mp
    (exists_of_isSome hloads)

/-- A module that augments a container of its own, and one that augments what the first one has added. -/
def Example.crossed : List Datum := [
  module "b" [("data", [container "c" []]),
    ("augments", [.object [("target", .text "/b:c"), ("children", .list [container "d" []])]])],
  augmenting "a" "/b:c/b:d" [leaf "l"]]

/-- In the other order the second module has no target yet; and in the other order a grouping that uses another one of
its own qualified name is expanded first. -/
theorem not_exists_load_iff_reverse : [Example.crossed, Example.namesakes].Forall fun items =>
    (∃ s, (load (ofModules items)).result = .ok s ∧ (s.modules.Pairwise fun m m' => (m.name == m'.name) = false) ∧
      s.modules.Pairwise fun m m' => (m.shortName == m'.shortName) = false) ∧
    ∃ fault, (load (ofModules items.reverse)).result = .error (.schema fault) := by
  have htest : [Example.crossed, Example.namesakes].all (fun items =>
      ((load (ofModules items)).result.toOption.any fun s =>
        decide (s.modules.Pairwise fun m m' => (m.name == m'.name) = false) &&
          decide (s.modules.Pairwise fun m m' => (m.shortName == m'.shortName) = false)) &&
        (fault? (ofModules items.reverse)).isSome) = true := by
    decide +kernel
  refine List.forall_iff_forall_mem.mpr fun items hitems => ?_
  have hitem := List.all_eq_true.mp htest items hitems
  rw [Bool.and_eq_true] at hitem
  obtain ⟨s, hload, hdistinct⟩ := exists_of_any hitem.1
  simp only [Bool.and_eq_true, decide_eq_true_eq] at hdistinct
  obtain ⟨fault, hfault⟩ := Option.isSome_iff_exists.mp hitem.2
  exact ⟨⟨s, hload, hdistinct⟩, fault, error_of_fault? hfault⟩

end RestconfApi
