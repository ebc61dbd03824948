import Mathlib.Data.Set.Finite.Basic
import Mathlib.Logic.Relation
import Mathlib.Order.Preorder.Finite
import RestconfApi.Proofs.Swagger.Folding

/-!
# Swagger: folding and what a document says

Folding is over after its first round: what is left are aliases that run into circles, and these stay. No name
loses its meaning: a name, and the one that takes its place, have the same fields and require the same names,
be there circles of references or references to nothing.
-/

namespace RestconfApi

/-! ### Circles -/

namespace Aliases

variable {r : Aliases}

/-- `name` is an alias that stands for `next`. -/
def Leads (r : Aliases) (name next : Name) : Prop := r.next? name = some next

/-- The aliases that lead to no end lead into a circle: only finitely many names are stood for. -/
theorem exists_circle {name : Name} (h : ∀ n last, ¬r.Ends n name last) :
    ∃ c, Relation.ReflTransGen r.Leads name c ∧ Relation.TransGen r.Leads c c := by
  have hnext : ∀ n, Relation.ReflTransGen r.Leads name n → ∃ next, r.Leads n next := by
    intro n hn
    by_contra hnot
    have hends : ∃ k last, r.Ends k name last := by
      refine hn.head_induction_on ⟨0, n, .here ?_⟩ fun hstep _ ⟨k, last, hk⟩ => ⟨k + 1, last, .step hstep hk⟩
      exact Option.eq_none_iff_forall_ne_some.mpr fun next hnext => hnot ⟨next, hnext⟩
    obtain ⟨k, last, hk⟩ := hends
    exact h k last hk
  -- the way as a sequence of names
  have hway : ∃ way : Nat → Name, way 0 = name ∧ ∀ i, r.Leads (way i) (way (i + 1)) := by
    choose! f hf using hnext
    have hreach : ∀ i, Relation.ReflTransGen r.Leads name (f^[i] name) := by
      intro i
      induction i with
      | zero => exact .refl
      | succ i ih => exact Function.iterate_succ_apply' f i name ▸ ih.tail (hf _ ih)
    refine ⟨fun i => f^[i] name, rfl, fun i => ?_⟩
    show r.Leads (f^[i] name) (f^[i + 1] name)
    rw [Function.iterate_succ_apply']
    exact hf _ (hreach i)
  obtain ⟨way, rfl, hway⟩ := hway
  have hlater : ∀ i k, Relation.ReflTransGen r.Leads (way i) (way (i + k)) := by
    intro i k
    induction k with
    | zero => exact .refl
    | succ k ih => exact ih.tail (hway (i + k))
  have hmem : ∀ i, way (i + 1) ∈ {n | n ∈ r.map Prod.snd} := by
    intro i
    obtain ⟨k, -, hget⟩ := Option.bind_eq_some_iff.mp (hway i)
    obtain ⟨j, hj, -⟩ := Entries.mem_of_get? hget
    exact List.mem_map.mpr ⟨_, hj, rfl⟩
  obtain ⟨i, j, hij, heq⟩ :=
    Set.Finite.exists_lt_map_eq_of_forall_mem hmem (List.finite_toSet (r.map Prod.snd))
  refine ⟨way (i + 1), Nat.zero_add (i + 1) ▸ hlater 0 (i + 1), ?_⟩
  obtain ⟨k, rfl⟩ := Nat.exists_eq_add_of_lt hij
  have hcircle := hlater (i + 1 + 1) k
  rw [show i + 1 + 1 + k = i + k + 1 + 1 by omega, ← heq] at hcircle
  exact .head' (hway (i + 1)) hcircle

end Aliases

namespace Document

variable {d : Document}

/-! ### One round -/

/-- What an alias that stays stands for is not folded. -/
theorem next?_foldable_eq_none {name next : Name} (h : d.foldable.next? name = none)
    (hnext : d.aliases.next? name = some next) : d.foldable.next? next = none := by
  by_contra hne
  obtain ⟨next', hnext'⟩ := Option.ne_none_iff_exists'.mp hne
  obtain ⟨k, hk, hget⟩ := Option.bind_eq_some_iff.mp hnext'
  obtain rfl := Datum.eq_scalar_of_asKey? hk
  obtain ⟨n, last, hends⟩ := exists_ends_of_foldable hget
  have hfolded := ends_foldable (.step hnext hends)
  cases hfolded with
  | step hnext _ =>
    rw [h] at hnext
    cases hnext

theorem hasDefinition_replace {name : Name} (h : d.foldable.next? name = none) :
    (d.replace d.foldable).hasDefinition name = d.hasDefinition name := by
  rw [Bool.eq_iff_iff, hasDefinition_iff, hasDefinition_iff]
  refine exists_congr fun k => and_congr_right ?_
  rintro rfl
  rw [Models.Defines, get?_replace, show d.foldable.get? k = none from h, Models.Defines]
  cases d.definitions.get? k <;> rfl

/-- What a definition that is kept stands for is not folded. -/
theorem next?_foldable_of_singleParent? (hu : d.definitions.Unique) {k : Scalar} {m : Model} {parent : Name}
    (hk : d.foldable.get? k = none) (hget : d.definitions.get? k = some m)
    (hparent : m.singleParent? = some parent) (hnull : parent.isNull = false) :
    d.foldable.next? parent = none := by
  by_cases hself : (parent == .scalar k) = true
  · rw [Aliases.next?_congr hself]
    exact hk
  · cases hdef : d.hasDefinition parent with
    | true =>
      refine @next?_foldable_eq_none d (.scalar k) parent hk ?_
      show d.aliases.get? k = some parent
      rw [get?_aliases hu, hget]
      exact parent?_eq_some_iff.mpr ⟨hparent, hnull, by simpa using hself, hdef⟩
    | false =>
      by_contra hne
      obtain ⟨next, hnext⟩ := Option.ne_none_iff_exists'.mp hne
      obtain ⟨j, hj, hget⟩ := Option.bind_eq_some_iff.mp hnext
      obtain rfl := Datum.eq_scalar_of_asKey? hj
      rw [get?_foldable] at hget
      split at hget
      · cases hget
      · obtain ⟨m, -, hm, -⟩ := exists_of_get?_aliases hu hget
        rw [hasDefinition_iff.mpr ⟨j, rfl, by rw [Models.Defines, hm]; rfl⟩] at hdef
        cases hdef

/-- The aliases that are left after a round are those that were not folded. -/
theorem get?_aliases_replace (hu : d.definitions.Unique)
    (hnull : ∀ e ∈ d.definitions, ∀ r ∈ e.2.refs, r.isNull = false) (k : Scalar) :
    (d.replace d.foldable).aliases.get? k =
      if (d.foldable.get? k).isSome then none else d.aliases.get? k := by
  have hu' : (d.replace d.foldable).definitions.Unique :=
    (hu.map (Model.mapRefs d.foldable.resolve)).filter _
  rw [get?_aliases hu', get?_aliases hu, get?_replace]
  cases hk : d.foldable.get? k with
  | some next => rfl
  | none =>
    cases hget : d.definitions.get? k with
    | none => rfl
    | some m =>
      show (d.replace d.foldable).parent? k (m.mapRefs d.foldable.resolve) = d.parent? k m
      rw [parent?, parent?, singleParent?_mapRefs]
      cases hparent : m.singleParent? with
      | none => rfl
      | some parent =>
        obtain ⟨j, hj, -⟩ := Entries.mem_of_get? hget
        have hnone := next?_foldable_of_singleParent? hu hk hget hparent
          (hnull _ hj _ (singleParent?_mem_refs hparent))
        rw [Option.map_some, resolve_foldable, hnone]
        simp only [Option.filter_some, hasDefinition_replace hnone]

theorem next?_aliases_replace (hu : d.definitions.Unique)
    (hnull : ∀ e ∈ d.definitions, ∀ r ∈ e.2.refs, r.isNull = false) {name next : Name} :
    (d.replace d.foldable).aliases.next? name = some next ↔
      d.foldable.next? name = none ∧ d.aliases.next? name = some next := by
  unfold Aliases.next?
  cases name.asKey? with
  | none => simp
  | some k =>
    simp only [Option.bind_some, get?_aliases_replace hu hnull]
    cases d.foldable.get? k <;> simp

/-- After a round no alias is left to fold. -/
theorem foldable_replace (hu : d.definitions.Unique)
    (hnull : ∀ e ∈ d.definitions, ∀ r ∈ e.2.refs, r.isNull = false) :
    (d.replace d.foldable).foldable = [] := by
  -- a way through the aliases that are left was a way before
  have hways : ∀ {n name last}, (d.replace d.foldable).aliases.Ends n name last →
      d.foldable.next? name = none → d.aliases.Ends n name last := by
    intro n name last h
    induction h with
    | @here name hnone =>
      intro hfoldable
      refine .here (Option.eq_none_iff_forall_ne_some.mpr fun next hnext => ?_)
      rw [(next?_aliases_replace hu hnull).mpr ⟨hfoldable, hnext⟩] at hnone
      cases hnone
    | step hnext _ ih =>
      intro hfoldable
      have hnext := ((next?_aliases_replace hu hnull).mp hnext).2
      exact .step hnext (ih (next?_foldable_eq_none hfoldable hnext))
  refine List.eq_nil_iff_forall_not_mem.mpr fun e he => ?_
  obtain ⟨next, hnext⟩ := Option.isSome_iff_exists.mp (Entries.isSome_get?_of_mem he)
  obtain ⟨n, last, hends⟩ := exists_ends_of_foldable hnext
  rw [get?_foldable] at hnext
  split at hnext
  · cases hnext
  · obtain ⟨hnone, hnext'⟩ := (@next?_aliases_replace d hu hnull (.scalar e.1) next).mp hnext
    have hfolded := ends_foldable (hways hends hnone)
    cases hfolded with
    | here hfolded =>
      cases hends with
      | here h =>
        rw [show (d.replace d.foldable).aliases.next? (.scalar e.1) = some next from hnext] at h
        cases h
    | step hnext _ =>
      rw [hnone] at hnext
      cases hnext

theorem replace_nil (d : Document) : d.replace [] = d := by
  have hresolve : Aliases.resolve ([] : Aliases) = fun name => name := by
    funext name
    exact (Aliases.Ends.here (by cases name <;> rfl)).resolve_eq
  rw [replace, hresolve, mapRefs_id]
  simp [Entries.keys]

theorem foldFrom_of_foldable_eq_nil (fuel : Nat) (h : d.foldable = []) : (foldFrom fuel d).1 = d := by
  cases fuel with
  | zero => rfl
  | succ fuel =>
    rw [foldFrom, h]
    rfl

/-- `Rounds d d'`: aliases are folded round after round, until none is left to fold, and this makes `d'` of `d`. -/
inductive Rounds : Document → Document → Prop
  | last {d : Document} : d.foldable = [] → Rounds d d
  | round {d d' : Document} : d.foldable ≠ [] → Rounds (d.replace d.foldable) d' → Rounds d d'

theorem rounds_of_foldable_eq_nil (h : d.foldable = []) {d' : Document} : d.Rounds d' ↔ d' = d := by
  constructor
  · intro hrounds
    cases hrounds with
    | last => rfl
    | round hne => exact absurd h hne
  · rintro rfl
    exact .last h

/-- There is one round at most. -/
theorem rounds_iff (hu : d.definitions.Unique)
    (hnull : ∀ e ∈ d.definitions, ∀ r ∈ e.2.refs, r.isNull = false) {d' : Document} :
    d.Rounds d' ↔ d' = d.replace d.foldable := by
  by_cases h : d.foldable = []
  · rw [rounds_of_foldable_eq_nil h, h, replace_nil]
  · rw [← rounds_of_foldable_eq_nil (foldable_replace hu hnull)]
    constructor
    · intro hrounds
      cases hrounds with
      | last hnil => exact absurd hnil h
      | round _ hrounds => exact hrounds
    · exact .round h

/-- Folding is over after one round. -/
theorem foldAliases_eq (hu : d.definitions.Unique)
    (hnull : ∀ e ∈ d.definitions, ∀ r ∈ e.2.refs, r.isNull = false) :
    d.foldAliases.1 = d.replace d.foldable := by
  unfold foldAliases foldFrom
  by_cases hempty : d.foldable.isEmpty = true
  · rw [if_pos hempty, List.isEmpty_iff.mp hempty, replace_nil]
  · rw [if_neg hempty]
    exact foldFrom_of_foldable_eq_nil _ (foldable_replace hu hnull)

/-! ### What is kept -/

theorem hasDefinition_replace_resolve (hu : d.definitions.Unique) {n : Name} (h : d.hasDefinition n = true) :
    (d.replace d.foldable).hasDefinition (d.foldable.resolve n) = true := by
  obtain ⟨k, rfl, hk⟩ := hasDefinition_iff.mp h
  exact hasDefinition_iff.mpr (defines_replace hu hk)

theorem resolve_foldable_of_undefined (hu : d.definitions.Unique) {n : Name} (h : d.hasDefinition n = false) :
    d.foldable.resolve n = n := by
  cases hnext : d.foldable.next? n with
  | none => rw [resolve_foldable, hnext]
  | some next =>
    obtain ⟨k, hk, hget⟩ := Option.bind_eq_some_iff.mp hnext
    obtain rfl := Datum.eq_scalar_of_asKey? hk
    rw [get?_foldable] at hget
    split at hget
    · cases hget
    · obtain ⟨m, -, hm, -⟩ := exists_of_get?_aliases hu hget
      rw [hasDefinition_iff.mpr ⟨k, rfl, by rw [Models.Defines, hm]; rfl⟩] at h
      cases h

/-- After a round every name pointed at is the one in place of a name pointed at before. -/
theorem exists_of_mem_refs_replace {r : Name} (h : r ∈ (d.replace d.foldable).refs) :
    ∃ r' ∈ d.refs, r = d.foldable.resolve r' := by
  have hsub : (d.replace d.foldable).refs ⊆ (d.mapRefs d.foldable.resolve).refs := by
    refine List.append_subset.mpr ⟨List.subset_append_left _ _, fun x hx => ?_⟩
    obtain ⟨e, he, hx⟩ := List.mem_flatMap.mp hx
    exact List.mem_append_right _ (List.mem_flatMap.mpr ⟨e, List.mem_of_mem_filter he, hx⟩)
  have hr := hsub h
  rw [refs_mapRefs] at hr
  obtain ⟨r', hr', rfl⟩ := List.mem_map.mp hr
  exact ⟨r', hr', rfl⟩

/-- `d'` is what folding makes of `d`, and `f` gives the name that takes the place of another one. Only aliases
go, and nothing changes but the names pointed at. -/
structure FoldsTo (f : Name → Name) (d d' : Document) : Prop where
  removed : ∃ gone : List Scalar, (∀ k ∈ gone, (d.aliases.get? k).isSome = true) ∧
    d' = { d.mapRefs f with
      definitions := (d.mapRefs f).definitions.filter fun (name, _) => !gone.contains name }
  kept : ∀ k m, d.definitions.get? k = some m → d.aliases.get? k = none →
    d'.definitions.get? k = some (m.mapRefs f)
  /-- Nothing points at a definition that has gone. -/
  present : ∀ r ∈ d'.refs, d.hasDefinition r = true → d'.hasDefinition r = true
  defined : ∀ n, d.hasDefinition n = true → d'.hasDefinition (f n) = true
  undefined : ∀ n, d.hasDefinition n = false → f n = n
  /-- A name and the one in its place have the same fields, up to the names that these point at. -/
  field : ∀ n key p', (Model.reference (f n)).Field d'.definitions key p' ↔
    ∃ p, (Model.reference n).Field d.definitions key p ∧ p' = p.mapRefs f
  requires : ∀ n key, (Model.reference (f n)).Requires d'.definitions key ↔
    (Model.reference n).Requires d.definitions key
  /-- The aliases that stay lead into a circle. -/
  circle : ∀ k parent, d'.aliases.get? k = some parent →
    ∃ c, Relation.ReflTransGen d'.aliases.Leads (.scalar k) c ∧ Relation.TransGen d'.aliases.Leads c c

theorem foldsTo_replace (hs : Models.Shaped d.definitions)
    (hnull : ∀ e ∈ d.definitions, ∀ r ∈ e.2.refs, r.isNull = false) :
    FoldsTo d.foldable.resolve d (d.replace d.foldable) where
  removed := by
    refine ⟨d.foldable.keys, fun k hk => ?_, rfl⟩
    obtain ⟨e, he, rfl⟩ := List.mem_map.mp hk
    exact Entries.isSome_get?_of_mem (List.mem_of_mem_filter he)
  kept k m hget hnone := by
    have hkept : d.foldable.get? k = none := by rw [get?_foldable, hnone, ite_self]
    rw [get?_replace, hkept, hget]
    rfl
  present r hr hdef := by
    obtain ⟨r', -, rfl⟩ := exists_of_mem_refs_replace hr
    cases hdef' : d.hasDefinition r' with
    | true => exact hasDefinition_replace_resolve hs.unique hdef'
    | false =>
      rw [resolve_foldable_of_undefined hs.unique hdef', hdef'] at hdef
      cases hdef
  defined _ h := hasDefinition_replace_resolve hs.unique h
  undefined _ h := resolve_foldable_of_undefined hs.unique h
  field _ _ _ := field_replace_iff hs
  requires _ _ := requires_replace_iff hs
  circle k parent h := by
    refine Aliases.exists_circle fun n last hends => ?_
    have hfolded := ends_foldable hends
    rw [foldable_replace hs.unique hnull] at hfolded
    cases hfolded with
    | here =>
      cases hends with
      | here hnone =>
        rw [show (d.replace d.foldable).aliases.next? (.scalar k) = some parent from h] at hnone
        cases hnone
    | step hnext _ => cases hnext

/-- Folding of a document whose compositions consist of references and objects, and in which no object requires
a name without having a field: it comes to an end, as every search along aliases does and its rounds do. No name loses
its meaning, the aliases that stay lead into circles, and folding once more changes nothing. -/
theorem exists_foldsTo (hs : Models.Shaped d.definitions) (hrefs : ∀ r ∈ d.refs, ∃ t, r = .text t) :
    (∀ (r : Aliases) (name last : Name), r.Walks [] name last ↔ r.resolve name = last) ∧
      ∃ f d', d.foldAliases?.result = .ok d' ∧ (∀ d'', d.Rounds d'' ↔ d'' = d') ∧ d.FoldsTo f d' ∧
        d'.foldAliases?.result = .ok d' := by
  have hnull : ∀ e ∈ d.definitions, ∀ r ∈ e.2.refs, r.isNull = false := by
    intro e he r hr
    obtain ⟨t, rfl⟩ := hrefs r (List.mem_append_right _ (List.mem_flatMap.mpr ⟨e, he, hr⟩))
    rfl
  have hkeyed : d.hasKeyedRefs = true := List.all_eq_true.mpr fun r hr => by
    obtain ⟨t, rfl⟩ := hrefs r hr
    rfl
  have hkeyed' : (d.replace d.foldable).hasKeyedRefs = true := List.all_eq_true.mpr fun r hr => by
    obtain ⟨r', hr', rfl⟩ := exists_of_mem_refs_replace hr
    obtain ⟨t, rfl⟩ := hrefs r' hr'
    cases hdef : d.hasDefinition (.text t) with
    | true =>
      obtain ⟨k, hk, -⟩ := hasDefinition_iff.mp (hasDefinition_replace_resolve hs.unique hdef)
      rw [hk]
      rfl
    | false =>
      rw [resolve_foldable_of_undefined hs.unique hdef]
      rfl
  refine ⟨fun r name last => Aliases.walks_iff, d.foldable.resolve, d.replace d.foldable, ?_,
    fun d'' => rounds_iff hs.unique hnull, foldsTo_replace hs hnull, ?_⟩
  · rw [foldAliases?, if_pos hkeyed]
    exact congrArg Except.ok (foldAliases_eq hs.unique hnull)
  · rw [foldAliases?, if_pos hkeyed']
    exact congrArg Except.ok (foldFrom_of_foldable_eq_nil _ (foldable_replace hs.unique hnull))

/-- A document in which `b` and, through `b`, `c` stand for the object `a`, which requires its field; `d` and `e`
stand for each other and `t` for `d`; `s` is a reference to itself and `u` one to nothing. -/
def tangled : Document where
  paths := [(.text "/a", [(.text "get", { operationId := .text "getA", responses := [(.text "200",
    { description := .text "ok",
      schema := some { type := .text "array", items := some { ref := some (.text "c") } } })] })])]
  definitions := [
    (.text "a", .object {
      properties := [(.text "x", { ref := some (.text "c") }), (.text "y", { ref := some (.text "t") })]
      required := [.text "x"] }),
    (.text "b", .reference (.text "a")),
    (.text "c", .composed [.reference (.text "b"), .object {}] (.text "another name")),
    (.text "d", .reference (.text "e")), (.text "e", .reference (.text "d")), (.text "t", .reference (.text "d")),
    (.text "s", .reference (.text "s")), (.text "u", .reference (.text "v"))]

theorem exists_foldsTo_tangled : tangled.aliases.Walks [] (.text "t") (.text "d") ∧
    ∃ f d', tangled.foldAliases?.result = .ok d' ∧ tangled.Rounds d' ∧ tangled.FoldsTo f d' ∧
      d'.foldAliases?.result = .ok d' := by
  have hshaped : Models.Shaped tangled.definitions := by
    refine ⟨?_, by decide, ?_⟩
    · unfold Entries.Unique
      decide
    · simp [tangled, Model.objects, Model.object?]
  have hrefs : ∀ r ∈ tangled.refs, ∃ t, r = .text t := by
    simp [tangled, refs, operations, Operation.refs, Response.refs, Property.refs, Model.refs,
      Model.partRefs, Model.fieldRefs, ObjectModel.refs]
  obtain ⟨hwalks, f, d', hfolds, hrounds, hfoldsTo, hagain⟩ := exists_foldsTo hshaped hrefs
  exact ⟨(hwalks _ _ _).mpr (Datum.eq_text_of_asText? (by decide)), f, d', hfolds, (hrounds d').mpr rfl, hfoldsTo,
    hagain⟩

end Document

end RestconfApi
