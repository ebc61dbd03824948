/-!
# Text: code points

A text may hold the halves of surrogate pairs, which are code points but no characters. Each of them is
held as a private character of its own, which is not met otherwise. `code_ofCode`: what is held can be
told again.
-/

namespace RestconfApi.Text

def isHighHalf (n : Nat) : Bool := 0xd800 ≤ n && n ≤ 0xdbff

def isLowHalf (n : Nat) : Bool := 0xdc00 ≤ n && n ≤ 0xdfff

/-- The code point that the two halves of a pair write together. -/
def paired (high low : Nat) : Nat := 0x10000 + 0x400 * (high - 0xd800) + (low - 0xdc00)

/-- The first of the private characters that stand for halves. -/
def firstHeld : Nat := 0x10a400

/-- The character that a code point is held as. -/
def ofCode (n : Nat) : Char :=
  Char.ofNat (if isHighHalf n || isLowHalf n then n - 0xd800 + firstHeld else n)

/-- The code point that a character holds. -/
def code (c : Char) : Nat :=
  if firstHeld ≤ c.toNat && c.toNat < firstHeld + 0x800 then c.toNat - firstHeld + 0xd800 else c.toNat

/-- Whether a character stands for half of a pair. -/
def isHalf (c : Char) : Bool := isHighHalf (code c) || isLowHalf (code c)

theorem isHalfCode_iff {n : Nat} :
    (isHighHalf n || isLowHalf n) = true ↔ 0xd800 ≤ n ∧ n ≤ 0xdfff := by
  simp only [isHighHalf, isLowHalf, Bool.or_eq_true, Bool.and_eq_true, decide_eq_true_eq]
  omega

theorem toNat_ofNat_of_isValidChar {n : Nat} (h : n.isValidChar) : (Char.ofNat n).toNat = n := by
  rw [Char.ofNat, dif_pos h]
  rfl

theorem code_ofCode {n : Nat} (h : n ≤ 0x10ffff) (hn : n < firstHeld ∨ firstHeld + 0x800 ≤ n) :
    code (ofCode n) = n := by
  by_cases half : (isHighHalf n || isLowHalf n) = true
  · have bounds := isHalfCode_iff.1 half
    have valid : (n - 0xd800 + firstHeld).isValidChar := by
      simp only [Nat.isValidChar, firstHeld]
      omega
    simp only [ofCode, half, if_true, code, toNat_ofNat_of_isValidChar valid, Bool.and_eq_true,
      decide_eq_true_eq]
    split <;> omega
  · have bounds := mt isHalfCode_iff.2 half
    have valid : n.isValidChar := by
      simp only [Nat.isValidChar]
      omega
    simp only [ofCode, half, code, toNat_ofNat_of_isValidChar valid, Bool.and_eq_true,
      decide_eq_true_eq, Bool.false_eq_true, if_false]
    split <;> omega

end RestconfApi.Text
