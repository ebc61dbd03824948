import Mathlib.Data.List.Forall2

/-!
# Lists related element by element

What lists of related elements have in common: each element has its counterpart at the same position, and
look-ups by tests that agree on related elements find counterparts. What lists of the same elements contain is the same.
-/

namespace RestconfApi

variable {α β : Type} {P : α → β → Prop} {l : List α} {l' : List β}

theorem exists_of_forall₂ (h : List.Forall₂ P l l') {a : α} (ha : a ∈ l) : ∃ b ∈ l', P a b := by
  induction h with
  | nil => simp at ha
  | cons hP _ ih =>
    rcases List.mem_cons.mp ha with rfl | ha
    · exact ⟨_, List.mem_cons_self, hP⟩
    · obtain ⟨b, hb, hab⟩ := ih ha
      exact ⟨b, List.mem_cons_of_mem _ hb, hab⟩

theorem exists_of_forall₂_right (h : List.Forall₂ P l l') {b : β} (hb : b ∈ l') : ∃ a ∈ l, P a b :=
  exists_of_forall₂ (P := flip P) h.flip hb

theorem getElem?_of_forall₂ (h : List.Forall₂ P l l') {i : Nat} {a : α} (ha : l[i]? = some a) :
    ∃ b, l'[i]? = some b ∧ P a b := by
  induction h generalizing i with
  | nil => simp at ha
  | cons hP _ ih =>
    cases i with
    | zero =>
      obtain rfl := Option.some.inj ha
      exact ⟨_, rfl, hP⟩
    | succ i => exact ih ha

theorem getElem?_of_forall₂_right (h : List.Forall₂ P l l') {i : Nat} {b : β} (hb : l'[i]? = some b) :
    ∃ a, l[i]? = some a ∧ P a b :=
  getElem?_of_forall₂ (P := flip P) h.flip hb

theorem forall₂_trans {γ : Type*} {l'' : List γ} {R : β → γ → Prop} {S : α → γ → Prop}
    (hS : ∀ a b c, P a b → R b c → S a c) (h : List.Forall₂ P l l') (h' : List.Forall₂ R l' l'') :
    List.Forall₂ S l l'' := by
  induction h generalizing l'' with
  | nil =>
    cases h'
    exact .nil
  | cons hP _ ih =>
    cases h' with
    | cons hR h' => exact .cons (hS _ _ _ hP hR) (ih h')

theorem find?_of_forall₂ (h : List.Forall₂ P l l') {p : α → Bool} {q : β → Bool}
    (hpq : ∀ a b, P a b → p a = q b) : Option.Rel P (l.find? p) (l'.find? q) := by
  induction h with
  | nil => exact .none
  | @cons a b l l' hP _ ih =>
    rw [List.find?_cons, List.find?_cons, hpq a b hP]
    cases q b with
    | true => exact .some hP
    | false => exact ih

theorem exists_forall₂ (h : ∀ a ∈ l, ∃ b, P a b) : ∃ l', List.Forall₂ P l l' := by
  induction l with
  | nil => exact ⟨[], .nil⟩
  | cons a l ih =>
    obtain ⟨b, hb⟩ := h a List.mem_cons_self
    obtain ⟨l', hl'⟩ := ih fun x hx => h x (List.mem_cons_of_mem _ hx)
    exact ⟨b :: l', .cons hb hl'⟩

/-- A list is related to itself with one element changed if that element is to what it becomes. -/
theorem forall₂_modify {R : α → α → Prop} (hrefl : ∀ a, R a a) {f : α → α} {i : Nat}
    (hf : ∀ a, l[i]? = some a → R a (f a)) : List.Forall₂ R l (l.modify i f) := by
  induction l generalizing i with
  | nil => simp
  | cons a l ih =>
    cases i with
    | zero => exact .cons (hf a rfl) (List.forall₂_same.mpr fun a _ => hrefl a)
    | succ i => exact .cons (hrefl a) (ih hf)

/-- Related elements that contribute the same make lists that contribute the same. -/
theorem flatMap_of_forall₂ {γ : Type} {F : α → List γ} {G : β → List γ} (h : List.Forall₂ P l l')
    (heq : ∀ a b, a ∈ l → P a b → G b = F a) : l'.flatMap G = l.flatMap F := by
  induction h with
  | nil => rfl
  | @cons a b l l' hab _ ih =>
    rw [List.flatMap_cons, List.flatMap_cons, heq a b List.mem_cons_self hab,
      ih fun x y hx => heq x y (List.mem_cons_of_mem _ hx)]

theorem contains_eq_of_mem_iff [BEq α] {l l' : List α} (h : ∀ a, a ∈ l ↔ a ∈ l') (a : α) :
    l.contains a = l'.contains a := by
  rw [Bool.eq_iff_iff, List.contains_iff_exists_mem_beq, List.contains_iff_exists_mem_beq]
  simp only [h]

end RestconfApi
