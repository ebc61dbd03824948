import Mathlib.Data.List.Perm.Basic
import Mathlib.Data.List.Sort
import Mathlib.Data.String.Basic
import RestconfApi.Datum.Order
import RestconfApi.Proofs.Names

/-!
# Texts in order

Sorting keeps what is sorted, and texts can always be sorted: they have one order, whatever the one they were
given in.
-/

namespace RestconfApi.Scalar

theorem mem_insertSorted {s t : Scalar} {l : List Scalar} :
    t ∈ insertSorted s l ↔ t = s ∨ t ∈ l := by
  induction l with
  | nil => simp [insertSorted]
  | cons a l ih =>
    unfold insertSorted
    split
    · rw [List.mem_cons, ih, List.mem_cons]
      exact or_left_comm
    · rw [List.mem_cons]

theorem mem_sorted {t : Scalar} {l : List Scalar} : t ∈ sorted l ↔ t ∈ l := by
  induction l with
  | nil => exact Iff.rfl
  | cons a l ih => rw [sorted, mem_insertSorted, ih, List.mem_cons]

/-- Scalars that are texts. -/
def AreTexts (l : List Scalar) : Prop := ∀ k ∈ l, ∃ t, k = .text t

theorem AreTexts.exists_eq_map {l : List Scalar} (h : AreTexts l) : ∃ ts : List String, l = ts.map .text := by
  induction l with
  | nil => exact ⟨[], rfl⟩
  | cons k l ih =>
    obtain ⟨t, rfl⟩ := h k List.mem_cons_self
    obtain ⟨ts, rfl⟩ := ih fun k hk => h k (List.mem_cons_of_mem _ hk)
    exact ⟨t :: ts, rfl⟩

theorem AreTexts.contains_iff {l : List Scalar} (h : AreTexts l) {k : Scalar} :
    l.contains k = true ↔ k ∈ l := by
  rw [List.contains_iff_exists_mem_beq]
  constructor
  · rintro ⟨j, hj, hkj⟩
    obtain ⟨t, rfl⟩ := h j hj
    rwa [eq_text_of_beq hkj]
  · exact fun hk => ⟨k, hk, BEq.rfl⟩

theorem AreTexts.areOrdered {l : List Scalar} (h : AreTexts l) : areOrdered l = true := by
  obtain ⟨ts, rfl⟩ := h.exists_eq_map
  match ts with
  | [] => rfl
  | [_] => rfl
  | t :: t' :: ts => simp [Scalar.areOrdered, family?]

theorem insertSorted_map_text (t : String) (ts : List String) :
    insertSorted (.text t) (ts.map .text) = (ts.orderedInsert (· ≤ ·) t).map .text := by
  induction ts with
  | nil => rfl
  | cons u ts ih =>
    rw [List.map_cons, insertSorted, List.orderedInsert]
    by_cases hlt : u < t
    · rw [if_pos (show before (.text u) (.text t) = true from decide_eq_true hlt), ih,
        if_neg (not_le.mpr hlt), List.map_cons]
    · rw [if_neg (show ¬before (.text u) (.text t) = true from fun hb => hlt (of_decide_eq_true hb)),
        if_pos (not_lt.mp hlt), List.map_cons, List.map_cons]

theorem sorted_map_text (ts : List String) :
    sorted (ts.map .text) = (ts.insertionSort (· ≤ ·)).map .text := by
  induction ts with
  | nil => rfl
  | cons t ts ih => rw [List.map_cons, sorted, ih, insertSorted_map_text, List.insertionSort_cons]

theorem perm_insertSorted (s : Scalar) (l : List Scalar) : (insertSorted s l).Perm (s :: l) := by
  induction l with
  | nil => exact .refl _
  | cons t l ih =>
    rw [insertSorted]
    split
    · exact (ih.cons t).trans (.swap s t l)
    · exact .refl _

theorem perm_sorted (l : List Scalar) : (sorted l).Perm l := by
  induction l with
  | nil => exact .refl _
  | cons s l ih => exact (perm_insertSorted s _).trans (ih.cons s)

/-- Texts that are given in another order have the same order. -/
theorem AreTexts.sorted_eq_of_perm {l l' : List Scalar} (h : AreTexts l) (hp : l'.Perm l) :
    sorted l' = sorted l := by
  obtain ⟨ts, rfl⟩ := h.exists_eq_map
  obtain ⟨ts', rfl⟩ := AreTexts.exists_eq_map fun k hk => h k (hp.subset hk)
  have hperm : ts'.Perm ts := (List.map_perm_map_iff fun _ _ heq => Scalar.text.inj heq).mp hp
  rw [sorted_map_text, sorted_map_text]
  congr 1
  exact (((List.perm_insertionSort _ _).trans hperm).trans (List.perm_insertionSort _ _).symm).eq_of_sortedLE
    (List.sortedLE_insertionSort) (List.sortedLE_insertionSort)

theorem distinct_subset (l : List Scalar) : distinct l ⊆ l := by
  induction l with
  | nil => exact List.Subset.refl _
  | cons s l ih => exact List.cons_subset_cons s fun x hx => ih (List.mem_of_mem_filter hx)

theorem AreTexts.mem_distinct {l : List Scalar} (h : AreTexts l) {k : Scalar} : k ∈ distinct l ↔ k ∈ l := by
  refine ⟨fun hk => distinct_subset l hk, fun hk => ?_⟩
  induction l with
  | nil => cases hk
  | cons s l ih =>
    rcases List.mem_cons.mp hk with rfl | hkl
    · exact List.mem_cons_self
    · by_cases hks : (k == s) = true
      · obtain ⟨t, rfl⟩ := h s List.mem_cons_self
        rw [eq_text_of_beq hks]
        exact List.mem_cons_self
      · have := ih (fun k hk => h k (List.mem_cons_of_mem _ hk)) hkl
        exact List.mem_cons_of_mem _ (List.mem_filter.mpr ⟨this, by simpa using hks⟩)

end RestconfApi.Scalar
