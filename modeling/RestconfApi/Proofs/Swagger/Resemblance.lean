import RestconfApi.Proofs.Names
import RestconfApi.Proofs.Swagger.Renaming

/-!
# Swagger: definitions that show the same

Fields of two documents show the same when they have the same type and what they point at shows the same again;
of leafrefs it counts only that they are such. That is kept by a change of names and by agreement, so that it does
not matter which of several definitions stands for a node.
-/

namespace RestconfApi

/-! ### Texts -/

/-- Nothing or a text. -/
def Datum.IsWorded (d : Datum) : Prop := d = .null ∨ ∃ t, d = .text t

theorem Datum.IsWorded.eq_of_beq {d e : Datum} (h : e.IsWorded) (hbeq : (d == e) = true) : d = e := by
  rcases h with rfl | ⟨t, rfl⟩
  · obtain ⟨k, rfl, hk⟩ := Datum.beq_scalar_iff.mp hbeq
    have hkey := Scalar.beq_iff.mp hk
    cases k with
    | null => rfl
    | float x =>
      simp only [Scalar.key] at hkey
      split at hkey <;> cases hkey
    | _ => simp [Scalar.key] at hkey
  · exact Datum.eq_text_of_beq hbeq

theorem Datum.eq_of_beq_all {ds es : List Datum} (h : ∀ e ∈ es, e.IsWorded) (hbeq : (ds == es) = true) :
    ds = es := by
  induction es generalizing ds with
  | nil => cases ds <;> simp_all
  | cons e es ih =>
    cases ds with
    | nil => simp at hbeq
    | cons d ds =>
      rw [List.cons_beq_cons, Bool.and_eq_true] at hbeq
      rw [(h e List.mem_cons_self).eq_of_beq hbeq.1, ih (fun e he => h e (List.mem_cons_of_mem _ he)) hbeq.2]

namespace Property

/-- Type, format and values are nothing but texts. -/
structure HasWords (p : Property) : Prop where
  type : p.type.IsWorded
  format : p.format.IsWorded
  enum : ∀ v ∈ p.enum, v.IsWorded

/-- The property and its items have nothing but texts for types, formats and values. -/
def IsWorded : Property → Prop
  | p@{ items := none, .. } => p.HasWords
  | p@{ items := some i, .. } => p.HasWords ∧ IsWorded i

theorem IsWorded.hasWords : ∀ {p : Property}, p.IsWorded → p.HasWords
  | { items := none, .. }, h => h
  | { items := some _, .. }, h => h.1

theorem IsWorded.of_items : ∀ {p i : Property}, p.IsWorded → p.items = some i → i.IsWorded
  | { items := some _, .. }, _, h, rfl => h.2

theorem extensions_mapRefs {f : Name → Name} (p : Property) : (p.mapRefs f).extensions = p.extensions := by
  cases h : p.items with
  | none => rw [mapRefs_items_none h]
  | some i => rw [mapRefs_items_some h]

theorem outline_of_sameShape {p q : Property} (h : p.sameShape q = true) :
    (p.type == q.type) = true ∧ (p.format == q.format) = true ∧ (p.enum == q.enum) = true ∧
      p.extensions.length = q.extensions.length := by
  simp only [sameShape, Entries.agree, Bool.and_eq_true, beq_iff_eq] at h
  exact ⟨h.1.1.1.1.1.1.1, h.1.1.1.1.1.1.2, h.1.1.1.2, h.2.1⟩

/-! ### Properties that correspond -/

variable {next next' : Name → Name → Prop}

/-- The same type, format and values, and references that are related. -/
structure SameOutline (next : Name → Name → Prop) (p q : Property) : Prop where
  type : p.type = q.type
  format : p.format = q.format
  enum : p.enum = q.enum
  ref : Option.Rel next p.ref q.ref

/-- The same outline, and items that correspond if there are any. -/
inductive Corresponds (next : Name → Name → Prop) : Property → Property → Prop
  | plain {p q : Property} : p.SameOutline next q → p.items = none → q.items = none → Corresponds next p q
  | items {p q i j : Property} : p.SameOutline next q → p.items = some i → q.items = some j →
      Corresponds next i j → Corresponds next p q

/-- The two show the same: either both are leafrefs, or they correspond. -/
structure Resembles (next : Name → Name → Prop) (p q : Property) : Prop where
  leafref : p.extensions = [] ↔ q.extensions = []
  value : p.extensions = [] → p.Corresponds next q

theorem SameOutline.symm {p q : Property} (h : p.SameOutline next q) :
    q.SameOutline (fun r r' => next r' r) p where
  type := h.type.symm
  format := h.format.symm
  enum := h.enum.symm
  ref := by
    have href := h.ref
    generalize p.ref = r at href ⊢
    generalize q.ref = r' at href ⊢
    cases href with
    | some h => exact .some h
    | none => exact .none

theorem SameOutline.mapRefs {f g : Name → Name} (hnext : ∀ r r', next r r' → next' (f r) (g r')) {p q : Property}
    (h : p.SameOutline next q) : (p.mapRefs f).SameOutline next' (q.mapRefs g) := by
  have hkeeps : ∀ (f : Name → Name) (p : Property), (p.mapRefs f).type = p.type ∧
      (p.mapRefs f).format = p.format ∧ (p.mapRefs f).enum = p.enum := by
    intro f p
    cases hp : p.items with
    | none => simp [mapRefs_items_none hp]
    | some i => simp [mapRefs_items_some hp]
  obtain ⟨htype, hformat, henum⟩ := hkeeps f p
  obtain ⟨htype', hformat', henum'⟩ := hkeeps g q
  refine ⟨by rw [htype, htype', h.type], by rw [hformat, hformat', h.format], by rw [henum, henum', h.enum], ?_⟩
  have href := h.ref
  rw [ref_mapRefs, ref_mapRefs]
  generalize p.ref = r at href ⊢
  generalize q.ref = r' at href ⊢
  cases href with
  | some h => exact .some (hnext _ _ h)
  | none => exact .none

theorem SameOutline.of_sameShape (hnext : ∀ r r' t, (r == r') = true → next r' t → next r t) {p p' q : Property}
    (h : p'.SameOutline next q) (hp' : p'.HasWords) (hshape : p.sameShape p' = true) : p.SameOutline next q := by
  obtain ⟨htype, hformat, henum, -⟩ := outline_of_sameShape hshape
  refine ⟨?_, ?_, ?_, ?_⟩
  · rw [hp'.type.eq_of_beq htype, h.type]
  · rw [hp'.format.eq_of_beq hformat, h.format]
  · rw [Datum.eq_of_beq_all hp'.enum henum, h.enum]
  · have hbeq := (Property.of_sameShape hshape).2
    have href := h.ref
    generalize p.ref = r at hbeq
    generalize p'.ref = r' at hbeq href
    generalize q.ref = t at href
    cases href with
    | none => cases r <;> simp_all
    | some hr =>
      cases r with
      | none => cases hbeq
      | some r => exact .some (hnext _ _ _ hbeq hr)

theorem Corresponds.symm {p q : Property} (h : p.Corresponds next q) :
    q.Corresponds (fun r r' => next r' r) p := by
  induction h with
  | plain houtline hp hq => exact .plain houtline.symm hq hp
  | items houtline hp hq _ ih => exact .items houtline.symm hq hp ih

theorem Corresponds.mapRefs {f g : Name → Name} (hnext : ∀ r r', next r r' → next' (f r) (g r')) {p q : Property}
    (h : p.Corresponds next q) : (p.mapRefs f).Corresponds next' (q.mapRefs g) := by
  induction h with
  | plain houtline hp hq =>
    exact .plain (houtline.mapRefs hnext) (by rw [items_mapRefs, hp]; rfl) (by rw [items_mapRefs, hq]; rfl)
  | items houtline hp hq _ ih =>
    exact .items (houtline.mapRefs hnext) (by rw [items_mapRefs, hp]; rfl) (by rw [items_mapRefs, hq]; rfl) ih

theorem Corresponds.of_agrees (hnext : ∀ r r' t, (r == r') = true → next r' t → next r t) {p p' q : Property}
    (h : p'.Corresponds next q) (hp' : p'.IsWorded) (hagrees : p.agrees p' = true) : p.Corresponds next q := by
  induction h generalizing p with
  | plain houtline hnone hq =>
    obtain ⟨hshape, hitems⟩ := agrees_iff.mp hagrees
    refine .plain (houtline.of_sameShape hnext hp'.hasWords hshape) ?_ hq
    cases hp : p.items with
    | none => rfl
    | some i => simp [hp, hnone] at hitems
  | items houtline hsome hq _ ih =>
    obtain ⟨hshape, hitems⟩ := agrees_iff.mp hagrees
    cases hp : p.items with
    | none => simp [hp, hsome] at hitems
    | some i =>
      rw [hp, hsome] at hitems
      exact .items (houtline.of_sameShape hnext hp'.hasWords hshape) hp hq (ih (hp'.of_items hsome) hitems)

/-! ### Properties that show the same -/

theorem Resembles.symm {p q : Property} (h : p.Resembles next q) : q.Resembles (fun r r' => next r' r) p where
  leafref := h.leafref.symm
  value hq := (h.value (h.leafref.mpr hq)).symm

theorem Resembles.mapRefs {f g : Name → Name} (hnext : ∀ r r', next r r' → next' (f r) (g r')) {p q : Property}
    (h : p.Resembles next q) : (p.mapRefs f).Resembles next' (q.mapRefs g) where
  leafref := by
    rw [extensions_mapRefs, extensions_mapRefs]
    exact h.leafref
  value hp := by
    rw [extensions_mapRefs] at hp
    exact (h.value hp).mapRefs hnext

theorem Resembles.of_matches (hnext : ∀ r r' t, (r == r') = true → next r' t → next r t) {p p' q : Property}
    (h : p'.Resembles next q) (hp' : p'.IsWorded) (hmatches : p.Matches p') : p.Resembles next q := by
  rcases hmatches with rfl | hagrees
  · exact h
  · obtain ⟨-, -, -, hlength⟩ := outline_of_sameShape (agrees_iff.mp hagrees).1
    have hnil : p.extensions = [] ↔ p'.extensions = [] := by
      rw [← List.length_eq_zero_iff, hlength, List.length_eq_zero_iff]
    exact ⟨hnil.trans h.leafref, fun hp => (h.value (hnil.mp hp)).of_agrees hnext hp' hagrees⟩

end Property

/-! ### Definitions that show the same -/

/-- To a depth of references the two names define fields of the same names, and fields of one name show the
same. -/
def Models.Equate (defs defs' : Models) : Nat → Name → Name → Prop
  | 0, _, _ => True
  | depth + 1, r, r' =>
    (∀ key q, (Model.reference r).Field defs key q →
      ∃ key' q', (key == key') = true ∧ (Model.reference r').Field defs' key' q') ∧
    (∀ key' q', (Model.reference r').Field defs' key' q' →
      ∃ key q, (key == key') = true ∧ (Model.reference r).Field defs key q) ∧
    ∀ key q key' q', (Model.reference r).Field defs key q → (Model.reference r').Field defs' key' q' →
      (key == key') = true → q.Resembles (Equate defs defs' depth) q'

end RestconfApi
