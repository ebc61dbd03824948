import Mathlib.Data.List.Nodup
import Mathlib.Data.List.Perm.Subperm
import RestconfApi.Failure
import RestconfApi.Text.Blank

/-!
# Names

Texts that are put together with a separator can be told apart again where they do not contain it, as
identifiers do not contain slashes, colons and the like. A text agrees with no other name.
-/

namespace RestconfApi

namespace Text

/-! ### Reading off what has been joined -/

theorem splitOn_eq_singleton {sep : Char} {cs : List Char} (h : sep ∉ cs) : splitOn sep cs = [cs] := by
  induction cs with
  | nil => rfl
  | cons c cs ih =>
    rw [List.mem_cons, not_or] at h
    rw [splitOn, ih h.2]
    exact if_neg (Ne.symm h.1)

theorem splitOn_ne_nil (sep : Char) (cs : List Char) : splitOn sep cs ≠ [] := by
  cases cs with
  | nil => simp [splitOn]
  | cons c cs =>
    rw [splitOn]
    split
    · simp
    · split <;> simp

theorem splitOn_append_cons {sep : Char} {cs : List Char} (h : sep ∉ cs) (rest : List Char) :
    splitOn sep (cs ++ sep :: rest) = cs :: splitOn sep rest := by
  induction cs with
  | nil =>
    obtain ⟨piece, pieces, hrest⟩ := List.exists_cons_of_ne_nil (splitOn_ne_nil sep rest)
    rw [List.nil_append, splitOn, hrest]
    exact if_pos rfl
  | cons c cs ih =>
    rw [List.mem_cons, not_or] at h
    rw [List.cons_append, splitOn, ih h.2]
    exact if_neg (Ne.symm h.1)

/-- Texts without the separator can be read off from the text that joins them. -/
theorem splitOn_join {sep : String} {c : Char} (hsep : sep.toList = [c]) {texts : List String}
    (hne : texts ≠ []) (h : ∀ t ∈ texts, c ∉ t.toList) :
    splitOn c (join sep texts).toList = texts.map String.toList := by
  induction texts with
  | nil => exact absurd rfl hne
  | cons t texts ih =>
    have ht := h t List.mem_cons_self
    cases texts with
    | nil => exact splitOn_eq_singleton ht
    | cons t' texts =>
      rw [join, String.toList_append, String.toList_append, hsep, List.append_assoc, List.singleton_append,
        splitOn_append_cons ht, ih (by simp) fun t ht => h t (List.mem_cons_of_mem _ ht)]
      · rfl
      · simp

theorem join_inj {sep : String} {c : Char} (hsep : sep.toList = [c]) {texts texts' : List String}
    (hne : texts ≠ []) (hne' : texts' ≠ []) (h : ∀ t ∈ texts, c ∉ t.toList) (h' : ∀ t ∈ texts', c ∉ t.toList)
    (heq : join sep texts = join sep texts') : texts = texts' := by
  have hpieces := splitOn_join hsep hne h
  rw [heq, splitOn_join hsep hne' h'] at hpieces
  exact (List.map_injective_iff.mpr (fun _ _ => String.toList_injective) hpieces).symm

/-- Texts without the separator are the pieces of the text that joins them. -/
theorem pieces_join {sep : String} {c : Char} (hsep : sep.toList = [c]) {texts : List String}
    (hne : texts ≠ []) (h : ∀ t ∈ texts, c ∉ t.toList) : pieces c (join sep texts) = texts := by
  rw [pieces, splitOn_join hsep hne h, List.map_map]
  exact (List.map_congr_left fun t _ => String.ofList_toList).trans (List.map_id _)

theorem mem_join {sep : String} {texts : List String} {c : Char} (h : c ∈ (join sep texts).toList) :
    c ∈ sep.toList ∨ ∃ t ∈ texts, c ∈ t.toList := by
  induction texts with
  | nil => simp [join] at h
  | cons t texts ih =>
    cases texts with
    | nil => exact .inr ⟨t, List.mem_cons_self, h⟩
    | cons t' texts =>
      rw [join, String.toList_append, String.toList_append, List.append_assoc, List.mem_append, List.mem_append] at h
      · rcases h with h | h | h
        · exact .inr ⟨t, List.mem_cons_self, h⟩
        · exact .inl h
        · rcases ih h with h | ⟨u, hu, h⟩
          · exact .inl h
          · exact .inr ⟨u, List.mem_cons_of_mem _ hu, h⟩
      · simp

/-! ### Numbered texts -/

theorem numbered_inj {base : String} {i j : Nat} (h : base ++ toString i = base ++ toString j) : i = j := by
  have hlist := congrArg String.toList h
  rw [String.toList_append, String.toList_append] at hlist
  have hdigits := List.append_cancel_left hlist
  have hread := congrArg (fun ds => Nat.ofDigitChars 10 ds 0) hdigits
  simpa [Nat.toString_eq_ofList_toDigits] using hread

/-- Among more numbered texts than there are texts in a list, one is not in the list. -/
theorem exists_numbered_not_mem (base : String) (first : Nat) {used : List String} {count : Nat}
    (h : used.length < count) : ∃ i < count, base ++ toString (i + first) ∉ used := by
  by_contra hall
  have hmem : ∀ i < count, base ++ toString (i + first) ∈ used := by
    intro i hi
    by_contra hnot
    exact hall ⟨i, hi, hnot⟩
  have hnodup : ((List.range count).map fun i => base ++ toString (i + first)).Nodup := by
    refine List.nodup_range.map ?_
    intro i j hij
    have := numbered_inj hij
    omega
  have hsub : ((List.range count).map fun i => base ++ toString (i + first)) ⊆ used := by
    intro t ht
    obtain ⟨i, hi, rfl⟩ := List.mem_map.mp ht
    exact hmem i (List.mem_range.mp hi)
  have hlength := (List.subperm_of_subset hnodup hsub).length_le
  rw [List.length_map, List.length_range] at hlength
  omega

/-! ### Cutting a text in two -/

theorem cutFirst_append {sep : Char} {cs : List Char} (h : sep ∉ cs) (rest : List Char) :
    cutFirst sep (cs ++ sep :: rest) = some (cs, rest) := by
  induction cs with
  | nil => simp [cutFirst]
  | cons c cs ih =>
    rw [List.mem_cons, not_or] at h
    rw [List.cons_append, cutFirst, if_neg (Ne.symm h.1), ih h.2]
    rfl

theorem cutLast_eq_none_iff {sep : Char} {cs : List Char} : cutLast sep cs = none ↔ sep ∉ cs := by
  induction cs with
  | nil => simp [cutLast]
  | cons c cs ih =>
    rw [cutLast]
    cases h : cutLast sep cs with
    | some ab =>
      have hmem : sep ∈ cs := by
        by_contra hnot
        rw [ih.mpr hnot] at h
        cases h
      simp [hmem]
    | none =>
      by_cases hc : c = sep
      · simp [hc]
      · simp [hc, ih.mp h, Ne.symm hc]

theorem not_mem_of_cutLast {sep : Char} {cs a b : List Char} (h : cutLast sep cs = some (a, b)) : sep ∉ b := by
  induction cs generalizing a with
  | nil => cases h
  | cons c cs ih =>
    rw [cutLast] at h
    split at h
    · rename_i a' b' hcut
      obtain ⟨-, rfl⟩ := Prod.mk.inj (Option.some.inj h)
      exact ih hcut
    · rename_i hnone
      split at h
      · obtain ⟨-, rfl⟩ := Prod.mk.inj (Option.some.inj h)
        exact cutLast_eq_none_iff.mp hnone
      · cases h

theorem cutLast_append {sep : Char} {rest : List Char} (h : sep ∉ rest) (cs : List Char) :
    cutLast sep (cs ++ sep :: rest) = some (cs, rest) := by
  induction cs with
  | nil =>
    rw [List.nil_append, cutLast, cutLast_eq_none_iff.mpr h]
    exact if_pos rfl
  | cons c cs ih => rw [List.cons_append, cutLast, ih]

/-! ### Blanks -/

theorem dropWhile_eq_self {p : Char → Bool} {cs : List Char} (h : ∀ c ∈ cs, p c = false) : cs.dropWhile p = cs := by
  cases cs with
  | nil => rfl
  | cons c cs => rw [List.dropWhile_cons_of_neg (by simp [h c])]

theorem trim_eq_self {t : String} (h : ∀ c ∈ t.toList, isBlank c = false) : trim t = t := by
  rw [trim, trimLeft, dropWhile_eq_self h, trimRight, dropWhile_eq_self (by simpa using h), List.reverse_reverse,
    String.ofList_toList]

/-! ### Identifiers -/

def isIdentifierChar (c : Char) : Bool := c.isAlphanum || c == '_' || c == '-' || c == '.'

/-- A letter or an underscore, and then letters, digits, underscores, hyphens and dots. -/
def isIdentifier (t : String) : Bool :=
  match t.toList with
  | [] => false
  | c :: cs => (c.isAlpha || c == '_') && cs.all isIdentifierChar

theorem isIdentifierChar_of_mem {t : String} (h : isIdentifier t = true) {c : Char} (hc : c ∈ t.toList) :
    isIdentifierChar c = true := by
  unfold isIdentifier at h
  cases ht : t.toList with
  | nil => simp [ht] at hc
  | cons d ds =>
    rw [ht] at h hc
    simp only [Bool.and_eq_true, Bool.or_eq_true, List.all_eq_true] at h
    rcases List.mem_cons.mp hc with rfl | hc
    · rcases h.1 with hd | hd
      · simp [isIdentifierChar, Char.isAlphanum, hd]
      · simp [isIdentifierChar, hd]
    · exact h.2 c hc

theorem not_mem_of_isIdentifier {t : String} (h : isIdentifier t = true) {c : Char}
    (hc : isIdentifierChar c = false) : c ∉ t.toList := by
  intro hmem
  rw [isIdentifierChar_of_mem h hmem] at hc
  cases hc

theorem isBlank_of_isIdentifierChar {c : Char} (h : isIdentifierChar c = true) : isBlank c = false := by
  have hval : c.toNat = 45 ∨ c.toNat = 46 ∨ c.toNat = 95 ∨ (48 ≤ c.toNat ∧ c.toNat ≤ 57) ∨
      (65 ≤ c.toNat ∧ c.toNat ≤ 90) ∨ (97 ≤ c.toNat ∧ c.toNat ≤ 122) := by
    have hranges : (decide (65 ≤ c.val ∧ c.val ≤ 90) || (decide (97 ≤ c.val) && decide (c.val ≤ 122)) ||
        (decide (48 ≤ c.val) && decide (c.val ≤ 57)) || c == '_' || c == '-' || c == '.') = true := h
    simp only [Bool.or_eq_true, Bool.and_eq_true, decide_eq_true_eq, beq_iff_eq,
      UInt32.le_iff_toNat_le] at hranges
    rcases hranges with (((((h | h) | h) | rfl) | rfl) | rfl)
    · exact .inr (.inr (.inr (.inr (.inl h))))
    · exact .inr (.inr (.inr (.inr (.inr h))))
    · exact .inr (.inr (.inr (.inl h)))
    · exact .inr (.inr (.inl rfl))
    · exact .inl rfl
    · exact .inr (.inl rfl)
  simp only [isBlank, Bool.or_eq_false_iff, Bool.and_eq_false_iff, decide_eq_false_iff_not, beq_eq_false_iff_ne]
  omega

end Text

/-! ### Names that agree -/

theorem Scalar.eq_text_of_beq {k : Scalar} {s : String} (h : (k == .text s) = true) : k = .text s := by
  have hkey := Scalar.beq_iff.mp h
  cases k with
  | text t => rw [Scalar.Key.text.inj hkey]
  | float x =>
    simp only [Scalar.key] at hkey
    split at hkey <;> cases hkey
  | _ => cases hkey

theorem Datum.eq_text_of_beq {t : String} {d : Datum} (h : (d == .text t) = true) : d = .text t := by
  obtain ⟨k, rfl, hk⟩ := Datum.beq_scalar_iff.mp h
  rw [Scalar.eq_text_of_beq hk]

theorem Datum.eq_text_of_text_beq {t : String} {d : Datum} (h : (Datum.text t == d) = true) : d = .text t := by
  cases d with
  | scalar k =>
    have hk : (Scalar.text t == k) = true := h
    rw [Scalar.eq_text_of_beq (BEq.symm hk)]
  | _ => simp [BEq.beq, Datum.agrees] at h

theorem Datum.eq_text_of_asText? {d : Datum} {t : String} (h : d.asText? = some t) : d = .text t := by
  unfold Datum.asText? at h
  split at h
  · rw [Option.some.inj h]
  · cases h

theorem Datum.eq_scalar_of_asKey? {d : Datum} {k : Scalar} (h : d.asKey? = some k) : d = .scalar k := by
  cases d <;> simp_all [Datum.asKey?]

theorem Datum.eq_of_key? {d : Datum} {k : Scalar} (h : d.key? = .ok k) : d = .scalar k := by
  unfold Datum.key? at h
  split at h
  · rw [Except.ok.inj h]
  · cases h

theorem Datum.key_beq {d : Datum} {j k : Scalar} (hj : (d == .scalar j) = true) (hk : (d == .scalar k) = true) :
    (j == k) = true := by
  obtain ⟨i, rfl, hij⟩ := Datum.beq_scalar_iff.mp hj
  obtain ⟨i', heq, hik⟩ := Datum.beq_scalar_iff.mp hk
  obtain rfl := Datum.scalar.inj heq
  exact BEq.trans (BEq.symm hij) hik

theorem Datum.beq_of_beq_scalar {d d' : Datum} {k : Scalar} (h : (d == .scalar k) = true)
    (h' : (d' == .scalar k) = true) : (d == d') = true := by
  obtain ⟨j, rfl, hj⟩ := Datum.beq_scalar_iff.mp h
  obtain ⟨j', rfl, hj'⟩ := Datum.beq_scalar_iff.mp h'
  exact Datum.beq_scalar_iff.mpr ⟨j, rfl, BEq.trans hj (BEq.symm hj')⟩

/-- Among things of different names a key names one at most. -/
theorem Datum.eq_of_named {α : Type} {name : α → Name} {l : List α}
    (h : l.Pairwise fun x y => (name x == name y) = false) {x y : α} (hx : x ∈ l) (hy : y ∈ l) {key : Scalar}
    (hxname : (name x == .scalar key) = true) (hyname : (name y == .scalar key) = true) : x = y := by
  induction h with
  | nil => cases hx
  | cons hhead _ ih =>
    have hbeq := Datum.beq_of_beq_scalar hxname hyname
    have hbeq' := Datum.beq_of_beq_scalar hyname hxname
    rcases List.mem_cons.mp hx with rfl | hx' <;> rcases List.mem_cons.mp hy with rfl | hy'
    · rfl
    · simp [hhead y hy'] at hbeq
    · simp [hhead x hx'] at hbeq'
    · exact ih hx' hy'

/-- A name that is an identifier. -/
def Datum.IsIdentifier (name : Name) : Prop := ∃ t, name = .text t ∧ Text.isIdentifier t = true

instance (name : Name) : Decidable name.IsIdentifier :=
  decidable_of_iff (name.asText?.any Text.isIdentifier = true) <| by
    constructor
    · intro h
      obtain ⟨t, ht, h⟩ := (Option.any_eq_true _ _).mp h
      exact ⟨t, Datum.eq_text_of_asText? ht, h⟩
    · rintro ⟨t, rfl, h⟩
      exact h

theorem Datum.IsIdentifier.holds {name : Name} (h : name.IsIdentifier) : name.holds = true := by
  obtain ⟨t, rfl, ht⟩ := h
  have hne : t ≠ "" := by
    rintro rfl
    cases ht
  simpa [Datum.holds] using hne

theorem Datum.IsIdentifier.not_mem {name : Name} (h : name.IsIdentifier) {c : Char}
    (hc : Text.isIdentifierChar c = false) : c ∉ name.wording.toList := by
  obtain ⟨t, rfl, ht⟩ := h
  exact Text.not_mem_of_isIdentifier ht hc

theorem Datum.IsIdentifier.wording_inj {name name' : Name} (h : name.IsIdentifier) (h' : name'.IsIdentifier)
    (heq : name.wording = name'.wording) : name = name' := by
  obtain ⟨t, rfl, -⟩ := h
  obtain ⟨t', rfl, -⟩ := h'
  exact congrArg Datum.text heq

/-- An identifier agrees with nothing but itself. -/
theorem Datum.IsIdentifier.eq_of_beq {name name' : Name} (h : name.IsIdentifier)
    (heq : (name == name') = true) : name' = name := by
  obtain ⟨t, rfl, -⟩ := h
  exact Datum.eq_text_of_text_beq heq

end RestconfApi
