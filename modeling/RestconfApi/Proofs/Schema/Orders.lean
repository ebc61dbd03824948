import Mathlib.Data.List.Perm.Subperm
import RestconfApi.Proofs.Schema.Uses

/-!
# Schema: orders of expansion

When all groupings of a schema can be expanded in one order then they can be in any other, unless two of them have
one qualified name: a grouping under expansion is known by that name only.
-/

namespace RestconfApi.Expansion

variable {s : Schema} {M : Expanded} {E : Failure → Prop}

/-! ### Expanding what can be expanded -/

/-- Two groupings are taken for one. -/
def Confuses (s : Schema) (e : Failure) : Prop :=
  ∃ names i j, ∃ g ∈ s.tops i .groupings, ∃ g' ∈ s.tops j .groupings, e = .schema (.circular names) ∧
    g.address ≠ g'.address ∧ g.node.qname = g'.node.qname

/-- Expands the groupings that are in the table, if it does not fail as `E` says. -/
def Supports (s : Schema) (M : Expanded) (supply : Place → Expanding Node) (E : Failure → Prop) : Prop :=
  ∀ i, ∀ g ∈ s.tops i .groupings, (M.get? g.address).isSome = true → Fails (supply g) E

theorem Supports.fails {supply : Place → Expanding Node} (hsupply : Supports s M supply E) {n n' : Node}
    (h : Unfolds s M n n') {g : Place} (hg : n.Mentions s g) : Fails (supply g) E := by
  obtain ⟨i, hi⟩ := hg.mem_tops
  exact hsupply i g hi (h.isSome_get? hg)

/-- The names of groupings that are not in the table. -/
def Awaits (s : Schema) (M : Expanded) (under : List String) : Prop :=
  ∀ qname ∈ under, ∃ i, ∃ g ∈ s.tops i .groupings, M.get? g.address = none ∧ g.node.qname = qname

/-- The groupings of a table can be expanded in any order if there is fuel for each of them: a grouping asks only
for those before it. -/
theorem supports_grouping (h : M.Unfolded s) {fuel : Nat} {under : List String} (hfuel : M.length ≤ fuel)
    (hunder : Awaits s M under) : Supports s M (grouping s fuel under) (Confuses s) := by
  induction h generalizing fuel under with
  | nil =>
    intro _ _ _ hg
    cases hg
  | @snoc M i g n hM hg hnone hunfolds ih =>
    have hbefore : ∀ qname ∈ under, ∃ j, ∃ g' ∈ s.tops j .groupings,
        (M.get? g'.address = none ∧ g.address ≠ g'.address) ∧ g'.node.qname = qname := by
      intro qname hq
      obtain ⟨j, g', hg', hnone', hname⟩ := hunder qname hq
      rw [Entries.get?_append, Option.or_eq_none_iff, Entries.get?] at hnone'
      refine ⟨j, g', hg', ⟨hnone'.1, fun heq => ?_⟩, hname⟩
      rw [if_pos (beq_iff_eq.mpr heq)] at hnone'
      cases hnone'.2
    rw [List.length_append, List.length_singleton] at hfuel
    intro j g' hg' hsome
    by_cases hold : (M.get? g'.address).isSome = true
    · refine ih (by omega) (fun qname hq => ?_) j g' hg' hold
      obtain ⟨k, g'', hg'', ⟨hnone', -⟩, hname⟩ := hbefore qname hq
      exact ⟨k, g'', hg'', hnone', hname⟩
    · obtain rfl : g = g' := by
        rw [Entries.get?_append, Option.not_isSome_iff_eq_none.mp hold, Option.none_or, Entries.get?] at hsome
        split at hsome
        · exact (Schema.has_of_mem_tops hg).eq (Schema.has_of_mem_tops hg') (eq_of_beq ‹_›)
        · cases hsome
      obtain ⟨fuel, rfl⟩ : ∃ k, fuel = k + 1 := ⟨fuel - 1, by omega⟩
      have hsupply : Supports s M (grouping s fuel (under ++ [g.node.qname])) (Confuses s) := by
        refine ih (by omega) fun qname hq => ?_
        rcases List.mem_append.mp hq with hq | hq
        · obtain ⟨k, g'', hg'', ⟨hnone', -⟩, hname⟩ := hbefore qname hq
          exact ⟨k, g'', hg'', hnone', hname⟩
        · exact ⟨i, g, hg, hnone, (List.mem_singleton.mp hq).symm⟩
      unfold grouping
      refine fails_bind fails_get fun _ known _ _ => ?_
      split
      · exact fails_pure
      · dsimp only
        split
        · rename_i hq
          obtain ⟨k, g'', hg'', ⟨-, hne⟩, hname⟩ := hbefore _ hq
          exact fails_fail ⟨_, i, k, g, hg, g'', hg'', rfl, hne, hname.symm⟩
        · refine fails_bind (node_fails [] fun h hh => hsupply.fails hunfolds hh) fun _ _ _ _ => ?_
          exact fails_bind fails_modify fun _ _ _ _ => fails_pure

/-! ### Schemas in other orders -/

/-- No table is longer than the list of groupings. -/
theorem length_le_of_unfolded (hlisted : ∀ m ∈ s.modules, m.retired = false) (h : M.Unfolded s) :
    M.length ≤ s.groupings.length := by
  have hkeys : (Entries.keys M).Nodup ∧ ∀ a ∈ Entries.keys M, a ∈ s.groupings.map (·.address) := by
    induction h with
    | nil => exact ⟨List.nodup_nil, nofun⟩
    | @snoc M i g n _ hg hnone _ ih =>
      have happend : Entries.keys (M ++ [(g.address, n)]) = Entries.keys M ++ [g.address] := List.map_append
      rw [happend]
      refine ⟨List.nodup_append.mpr ⟨ih.1, List.nodup_cons.mpr ⟨nofun, List.nodup_nil⟩, fun a ha b hb => ?_⟩,
        fun a ha => ?_⟩
      · rw [List.mem_singleton.mp hb]
        exact ne_of_beq_false (Entries.get?_eq_none_iff.mp hnone a ha)
      · rcases List.mem_append.mp ha with ha | ha
        · exact ih.2 a ha
        · rw [List.mem_singleton.mp ha]
          exact List.mem_map_of_mem (Schema.mem_groupings_of_mem_tops hlisted hg)
  have hlength := (hkeys.1.subperm hkeys.2).length_le
  rwa [Entries.keys, List.length_map, List.length_map] at hlength

theorem supports_supply (hlisted : ∀ m ∈ s.modules, m.retired = false) (h : M.Unfolded s) :
    Supports s M (supply s) (Confuses s) :=
  supports_grouping h (Nat.le_succ_of_le (length_le_of_unfolded hlisted h)) nofun

theorem ModuleUnfolds.fails {mi : Module × Nat} {m' : Module} (hsupply : Supports s M (supply s) E)
    (h : ModuleUnfolds s M mi m') : Fails (module s mi.1 mi.2) E := by
  refine module_fails (fun g hg => ?_) fun n hn g hg => ?_
  · obtain ⟨n, -, hn⟩ := exists_of_forall₂ h.groupings hg
    exact hsupply mi.2 g hg (by rw [hn]; rfl)
  · rcases List.mem_append.mp hn with hn | hn
    · obtain ⟨n', -, hn'⟩ := exists_of_forall₂ h.data hn
      exact hsupply.fails hn' hg
    · obtain ⟨n', -, hn'⟩ := exists_of_forall₂ h.rpcs hn
      exact hsupply.fails hn' hg

theorem error_of_bind {α β : Type} {x : Expanding α} {f : α → Expanding β} {M : Expanded} {e : Failure}
    (h : ((x >>= f) M).result = .error e) :
    (x M).result = .error e ∨ ∃ a M', (x M).result = .ok (a, M') ∧ (f a M').result = .error e := by
  replace h : (x M >>= fun r => f r.1 r.2).result = .error e := h
  rw [Logged.result_bind] at h
  cases hx : (x M).result with
  | error e' =>
    rw [hx] at h
    exact .inl (congrArg Except.error (Except.error.inj h))
  | ok r =>
    rw [hx] at h
    exact .inr ⟨r.1, r.2, rfl, h⟩

theorem augments_fail {augments : List Declaration.Augment} {S S' : Schema} (hsupply : Supports s M (supply s) E)
    (hM : M.Unfolded s) (h : Grafts s M augments S S') {M' : Expanded} (hM' : M'.Unfolded s) {e : Failure}
    (he : ((augments.foldlM (augment s) S) M').result = .error e) : E e := by
  induction h generalizing M' with
  | nil => cases he
  | @cons a as S S' target p added htarget hp hadded _ ih =>
    rw [List.foldlM_cons, augment, htarget] at he
    dsimp only at he
    rw [hp] at he
    dsimp only at he
    rw [bind_assoc] at he
    rcases error_of_bind he with he | ⟨added', M₁, hnodes, he⟩
    · refine nodes_fail [] (fun n hn g hg => ?_) M' e he
      obtain ⟨n', -, hn'⟩ := exists_of_forall₂ hadded hn
      exact hsupply.fails hn' hg
    · obtain ⟨hsteps, hadded'⟩ := nodes_unfold (unfolder_supply s) [] a.nodes M' added' M₁ hnodes
      have hM₁ := hsteps.unfolded hM'
      obtain rfl : added = added' := eq_of_forall₂ hadded hadded' fun _ _ _ hn hn' => hn.eq (hM.agrees hM₁) hn'
      exact ih hM₁ he

/-- The expansion of all modules and augments after that of some groupings. -/
def expandingAfter (declared : Schema) (augments : List Declaration.Augment) (order : List Place) :
    Expanding Schema := do
  order.forM fun g => do let _ ← supply declared g
  expanding declared augments

theorem forM_unfolds {order : List Place} (horder : ∀ g ∈ order, ∃ i, g ∈ s.tops i .groupings) (M : Expanded) :
    Gives (order.forM fun g => do let _ ← supply s g) M fun _ M' => Unfolding s [] M M' := by
  induction order generalizing M with
  | nil => exact gives_pure (.refl M)
  | cons g order ih =>
    obtain ⟨i, hi⟩ := horder g List.mem_cons_self
    refine gives_bind (gives_bind ((unfolder_supply s i g hi M).mono fun _ M₁ ⟨h₁, _⟩ => gives_pure ?_))
    refine (ih (fun x hx => horder x (List.mem_cons_of_mem _ hx)) M₁).mono fun _ _ h₂ => ?_
    exact h₁.trans h₂

theorem isSome_get?_of_forall₂ {modules : List Module}
    (h : List.Forall₂ (ModuleUnfolds s M) s.modules.zipIdx modules) {i : Nat} {g : Place}
    (hg : g ∈ s.tops i .groupings) : (M.get? g.address).isSome = true := by
  have hm := hg
  rw [Schema.tops] at hm
  split at hm
  · rename_i m hget
    obtain ⟨m', -, hunfolds⟩ := exists_of_forall₂ h (a := (m, i)) (List.mem_zipIdx_iff_getElem?.mpr hget)
    obtain ⟨n, -, hn⟩ := exists_of_forall₂ hunfolds.groupings hg
    rw [hn]
    rfl
  · cases hm

theorem expandingAfter_unrolls {declared : Schema} {augments : List Declaration.Augment} {order : List Place}
    (horder : ∀ g ∈ order, ∃ i, g ∈ declared.tops i .groupings) :
    Gives (expandingAfter declared augments order) [] fun s' M => Unrolls declared augments M s' :=
  gives_bind ((forM_unfolds horder []).mono fun _ _ h => expanding_unrolls declared augments (h.unfolded .nil))

/-- In whatever order groupings are expanded, a schema that can be expanded becomes the same, unless two groupings
are taken for one. -/
theorem Unrolls.after {declared s' : Schema} {augments : List Declaration.Augment}
    (hlisted : ∀ m ∈ declared.modules, m.retired = false) (h : Unrolls declared augments M s') {order : List Place}
    (horder : ∀ g ∈ order, ∃ i, g ∈ declared.tops i .groupings) :
    (∃ M', (expandingAfter declared augments order []).result = .ok (s', M')) ∨
      ∃ e, (expandingAfter declared augments order []).result = .error e ∧ Confuses declared e := by
  have hsupply := supports_supply hlisted h.unfolded
  cases hrun : (expandingAfter declared augments order []).result with
  | ok r =>
    obtain ⟨s'', M'⟩ := r
    refine .inl ⟨M', ?_⟩
    rw [(expandingAfter_unrolls horder s'' M' hrun).eq h]
  | error e =>
    refine .inr ⟨e, rfl, ?_⟩
    obtain ⟨⟨modules⟩, hmodules, hgrafts⟩ := h.expanded
    rcases error_of_bind hrun with he | ⟨_, M₁, horder₁, he⟩
    · refine fails_forM (fun g hg => fails_bind ?_ fun _ _ _ _ => fails_pure) [] e he
      obtain ⟨i, hi⟩ := horder g hg
      exact hsupply i g hi (isSome_get?_of_forall₂ hmodules hi)
    · have h₁ := (forM_unfolds horder [] _ M₁ horder₁).unfolded .nil
      rcases error_of_bind he with he | ⟨modules', M₂, hmodules', he⟩
      · refine fails_mapM (fun mi hmi => ?_) M₁ e he
        obtain ⟨m', -, hm'⟩ := exists_of_forall₂ hmodules hmi
        exact hm'.fails hsupply
      · obtain ⟨h₂, hunfolds⟩ := modules_unfold declared M₁ modules' M₂ hmodules'
        have hM₂ := h₂.unfolded h₁
        obtain rfl : modules = modules' :=
          eq_of_forall₂ hmodules hunfolds fun _ _ _ hm hm' => hm.eq (h.unfolded.agrees hM₂) hm'
        exact augments_fail hsupply h.unfolded hgrafts hM₂ he

end RestconfApi.Expansion
