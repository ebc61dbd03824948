import Mathlib.Logic.Relation
import RestconfApi.Proofs.Schema.Unfolding

/-!
# Schema: the groupings that a tree uses

The `uses` in a tree, at any depth, lead to groupings, whose trees lead to others. Expanding a tree asks for the
groupings that it leads to and for no others, so it fails only where expanding one of them does; and what has been
expanded leads to nothing that has not.
-/

namespace RestconfApi

/-- A statement of the tree, the top one or one below it, has a `uses` that means the grouping. -/
def Node.Mentions (s : Schema) (n : Node) (g : Place) : Prop :=
  ∃ is m, n.at? is = some m ∧ ∃ ref ∈ m.uses, s.grouping? ref m.owner = some g

theorem Node.mentions_iff {s : Schema} {n : Node} {g : Place} :
    n.Mentions s g ↔ (∃ ref ∈ n.uses, s.grouping? ref n.owner = some g) ∨ ∃ c ∈ n.children, c.Mentions s g := by
  constructor
  · rintro ⟨is, m, hm, huse⟩
    cases is with
    | nil =>
      obtain rfl := Option.some.inj hm
      exact .inl huse
    | cons i is =>
      obtain ⟨c, hc, hm⟩ := Option.bind_eq_some_iff.mp hm
      exact .inr ⟨c, List.mem_of_getElem? hc, is, m, hm, huse⟩
  · rintro (huse | ⟨c, hc, is, m, hm, huse⟩)
    · exact ⟨[], n, rfl, huse⟩
    · obtain ⟨i, hi⟩ := List.mem_iff_getElem?.mp hc
      exact ⟨i :: is, m, Option.bind_eq_some_iff.mpr ⟨c, hi, hm⟩, huse⟩

theorem Node.Mentions.mem_tops {s : Schema} {n : Node} {g : Place} (h : n.Mentions s g) :
    ∃ i, g ∈ s.tops i .groupings := by
  obtain ⟨_, _, -, _, -, hg⟩ := h
  exact Expansion.mem_tops_of_grouping? hg

namespace Schema

/-- The body of the first grouping has a `uses` of the second one. -/
def Uses (s : Schema) (g h : Place) : Prop := (∃ i, g ∈ s.tops i .groupings) ∧ g.node.Mentions s h

/-- Some grouping leads to itself by one `uses` after the other. -/
def HasCycle (s : Schema) : Prop := ∃ g, Relation.TransGen s.Uses g g

/-- Some grouping leads to another one of the same qualified name. -/
def HasNamesakes (s : Schema) : Prop :=
  ∃ g h, Relation.TransGen s.Uses g h ∧ g.address ≠ h.address ∧ g.node.qname = h.node.qname

theorem Uses.mem_tops {s : Schema} {g h : Place} (huses : s.Uses g h) : ∃ i, h ∈ s.tops i .groupings :=
  huses.2.mem_tops

/-- If no module has been taken away then all groupings can be found by name. -/
theorem mem_groupings_of_mem_tops {s : Schema} (hlisted : ∀ m ∈ s.modules, m.retired = false) {i : Nat} {g : Place}
    (hg : g ∈ s.tops i .groupings) : g ∈ s.groupings := by
  rw [tops] at hg
  split at hg
  · rename_i m hm
    refine List.mem_flatMap.mpr ⟨(m, i), List.mem_zipIdx_iff_getElem?.mpr hm, ?_⟩
    simp only [Module.listed, hlisted m (List.mem_of_getElem? hm)]
    exact hg
  · cases hg

end Schema

namespace Expansion

variable {s : Schema} {M : Expanded} {E : Failure → Prop}

/-! ### Failures -/

/-- If `x` fails then `E` holds of the failure, whatever has been expanded before. -/
def Fails {α : Type} (x : Expanding α) (E : Failure → Prop) : Prop := ∀ M e, (x M).result = .error e → E e

section Rules

variable {α β : Type}

theorem Fails.mono {x : Expanding α} {E' : Failure → Prop} (h : Fails x E) (hE : ∀ e, E e → E' e) : Fails x E' :=
  fun M e he => hE e (h M e he)

theorem fails_pure {a : α} : Fails (pure a) E := by
  rintro _ _ ⟨⟩

theorem fails_fail {e : Failure} (h : E e) : Fails (fail e : Expanding α) E := by
  rintro _ _ ⟨⟩
  exact h

theorem fails_lift {x : Logged α} (h : ∀ e, x.result ≠ .error e) : Fails (liftM x : Expanding α) E := by
  intro M e he
  replace he : (x >>= fun a => pure (a, M)).result = .error e := he
  rw [Logged.result_bind] at he
  cases hx : x.result with
  | error e' => exact absurd hx (h e')
  | ok a =>
    rw [hx] at he
    cases he

theorem fails_get : Fails (get : Expanding Expanded) E := by
  rintro _ _ ⟨⟩

theorem fails_modify {f : Expanded → Expanded} : Fails (modify f : Expanding Unit) E := by
  rintro _ _ ⟨⟩

theorem fails_bind {x : Expanding α} {f : α → Expanding β} (h : Fails x E)
    (hf : ∀ M a M', (x M).result = .ok (a, M') → Fails (f a) E) : Fails (x >>= f) E := by
  intro M e he
  replace he : (x M >>= fun r => f r.1 r.2).result = .error e := he
  rw [Logged.result_bind] at he
  cases hx : (x M).result with
  | error e' =>
    rw [hx] at he
    obtain rfl := Except.error.inj he
    exact h M e' hx
  | ok r =>
    rw [hx] at he
    exact hf M r.1 r.2 hx r.2 e he

theorem fails_mapM {f : α → Expanding β} {l : List α} (h : ∀ a ∈ l, Fails (f a) E) : Fails (l.mapM f) E := by
  induction l with
  | nil => exact fails_pure
  | cons a l ih =>
    rw [List.mapM_cons]
    refine fails_bind (h a List.mem_cons_self) fun _ _ _ _ => ?_
    exact fails_bind (ih fun x hx => h x (List.mem_cons_of_mem _ hx)) fun _ _ _ _ => fails_pure

theorem fails_forM {f : α → Expanding Unit} {l : List α} (h : ∀ a ∈ l, Fails (f a) E) : Fails (l.forM f) E := by
  induction l with
  | nil => exact fails_pure
  | cons a l ih =>
    exact fails_bind (h a List.mem_cons_self) fun _ _ _ _ => ih fun x hx => h x (List.mem_cons_of_mem _ hx)

theorem fails_foldlM {f : β → α → Expanding β} {l : List α} (h : ∀ a ∈ l, ∀ b, Fails (f b a) E) (b : β) :
    Fails (l.foldlM f b) E := by
  induction l generalizing b with
  | nil => exact fails_pure
  | cons a l ih =>
    rw [List.foldlM_cons]
    exact fails_bind (h a List.mem_cons_self b) fun _ b' _ _ => ih (fun x hx => h x (List.mem_cons_of_mem _ hx)) b'

end Rules

/-! ### Expanding a tree -/

section

variable {supply : Place → Expanding Node}

theorem supplied_fails {path : List String} {st : Statement} {ref : String}
    (hsupply : ∀ g, s.grouping? ref st.owner = some g → Fails (supply g) E) :
    Fails (supplied s supply path st ref) E := by
  unfold supplied
  cases hg : s.grouping? ref st.owner with
  | none => exact fails_bind (fails_lift fun _ => nofun) fun _ _ _ _ => fails_pure
  | some g => exact fails_bind (hsupply g hg) fun _ _ _ _ => fails_pure

mutual

theorem node_fails (above : List String) :
    ∀ {n : Node}, (∀ g, n.Mentions s g → Fails (supply g) E) → Fails (node s supply above n) E
  | ⟨st, cs⟩, hsupply => by
    unfold node
    refine fails_bind (nodes_fail _ fun c hc g hg => hsupply g (Node.mentions_iff.mpr (.inr ⟨c, hc, hg⟩)))
      fun _ _ _ _ => ?_
    refine fails_bind (fails_mapM fun ref href => supplied_fails fun g hg => ?_) fun _ _ _ _ => fails_pure
    exact hsupply g (Node.mentions_iff.mpr (.inl ⟨ref, href, hg⟩))

theorem nodes_fail (above : List String) :
    ∀ {ns : List Node}, (∀ n ∈ ns, ∀ g, n.Mentions s g → Fails (supply g) E) → Fails (nodes s supply above ns) E
  | [], _ => fails_pure
  | _ :: _, hsupply => by
    unfold nodes
    refine fails_bind (node_fails above (hsupply _ List.mem_cons_self)) fun _ _ _ _ => ?_
    refine fails_bind (nodes_fail above fun n hn => hsupply n (List.mem_cons_of_mem _ hn)) fun _ _ _ _ => fails_pure

end

end

theorem module_fails {m : Module} {i : Nat} (hgroupings : ∀ g ∈ s.tops i .groupings, Fails (supply s g) E)
    (hsupply : ∀ n ∈ m.data ++ m.rpcs, ∀ g, n.Mentions s g → Fails (supply s g) E) : Fails (module s m i) E := by
  unfold module
  refine fails_bind (fails_mapM hgroupings) fun _ _ _ _ => ?_
  refine fails_bind (nodes_fail [] fun n hn => hsupply n (List.mem_append_left _ hn)) fun _ _ _ _ => ?_
  refine fails_bind (nodes_fail [] fun n hn => hsupply n (List.mem_append_right _ hn)) fun _ _ _ _ => fails_pure

/-! ### What has been expanded -/

/-- The groupings that an unfolded tree leads to are in the table. -/
theorem Unfolds.isSome_get? {n n' : Node} (h : Unfolds s M n n') {g : Place} (hg : n.Mentions s g) :
    (M.get? g.address).isSome = true := by
  obtain ⟨is, m, hm, ref, href, hgrouping⟩ := hg
  induction is generalizing n n' with
  | nil =>
    obtain rfl := Option.some.inj hm
    obtain ⟨-, -, blocks, -, -, hblocks⟩ := unfolds_iff.mp h
    obtain ⟨block, -, hblock⟩ := exists_of_forall₂ hblocks href
    rcases hblock with ⟨hnone, -⟩ | ⟨g', b, hg', hb, -⟩
    · rw [hgrouping] at hnone
      cases hnone
    · obtain rfl := Option.some.inj (hgrouping.symm.trans hg')
      rw [hb]
      rfl
  | cons i is ih =>
    obtain ⟨c, hc, hm⟩ := Option.bind_eq_some_iff.mp hm
    obtain ⟨-, own, -, -, hown, -⟩ := unfolds_iff.mp h
    obtain ⟨c', -, hcc'⟩ := exists_of_forall₂ hown (List.mem_of_getElem? hc)
    exact ih hcc' hm

theorem Expanded.Unfolded.isSome_get? (hM : M.Unfolded s) {g h : Place} (huses : Relation.ReflTransGen s.Uses g h)
    (hg : (M.get? g.address).isSome = true) : (M.get? h.address).isSome = true := by
  induction huses with
  | refl => exact hg
  | @tail b c _ huses ih =>
    obtain ⟨n, hn⟩ := Option.isSome_iff_exists.mp ih
    obtain ⟨⟨i, hi⟩, hmentions⟩ := huses
    exact (hM.unfolds hi hn).isSome_get? hmentions

/-- A grouping that has been expanded does not lead to itself: it only uses groupings that were expanded before. -/
theorem Expanded.Unfolded.not_transGen (hM : M.Unfolded s) {g : Place} (hg : (M.get? g.address).isSome = true) :
    ¬Relation.TransGen s.Uses g g := by
  intro hcycle
  obtain ⟨i, hi⟩ : ∃ i, g ∈ s.tops i .groupings := by
    obtain ⟨h, -, huses⟩ := Relation.TransGen.tail'_iff.mp hcycle
    exact huses.mem_tops
  induction hM with
  | nil => cases hg
  | @snoc M j g' n hM hg' hnone hunfolds ih =>
    by_cases hold : (M.get? g.address).isSome = true
    · exact ih hold
    · obtain rfl : g' = g := by
        rw [Entries.get?_append, Option.not_isSome_iff_eq_none.mp hold, Option.none_or, Entries.get?] at hg
        split at hg
        · exact (Schema.has_of_mem_tops hg').eq (Schema.has_of_mem_tops hi) (eq_of_beq ‹_›)
        · cases hg
      obtain ⟨h, huses, hback⟩ := Relation.TransGen.head'_iff.mp hcycle
      exact hold (hM.isSome_get? hback (hunfolds.isSome_get? huses.2))

end Expansion

end RestconfApi
