import ElispLift.Text.Blank
import ElispLift.Text.Number

/-!
# Numbers in decimal digits

A number is written in digits, which are no blanks, and is read back from them.
-/

namespace ElispLift.Text

variable {c : Char} {limit n : Nat}

theorem not_isBlank_of_isDigit (h : c.isDigit = true) : isBlank c = false := by
  have hcode : 48 ≤ c.toNat ∧ c.toNat ≤ 57 := Char.isDigit_iff_toNat.1 h
  simp [isBlank, blankRanges]
  omega

theorem isDigit_of_mem_decimal (h : c ∈ Nat.toDigits 10 n) : c.isDigit = true :=
  Nat.isDigit_of_mem_toDigits (by decide) (by decide) h

@[simp] theorem digits?_toDigits (n : Nat) : digits? (Nat.toDigits 10 n) = some n := by
  have hall : (Nat.toDigits 10 n).all Char.isDigit = true :=
    List.all_eq_true.2 fun _ => isDigit_of_mem_decimal
  simp only [digits?, hall, List.isEmpty_iff, Nat.toDigits_ne_nil, Bool.not_true, Bool.or_false,
    if_false, Option.some.injEq]
  exact Nat.ofDigitChars_eq_foldl.symm.trans Nat.ofDigitChars_ten_toDigits

theorem natUpTo?_toDigits (h : n ≤ limit) : natUpTo? limit (Nat.toDigits 10 n) = some n := by
  rw [natUpTo?, digits?_toDigits]
  · simpa using h
  · intro rest hplus
    have hdigit := isDigit_of_mem_decimal (c := '+') (n := n) (by simp [hplus])
    exact absurd hdigit (by decide)

end ElispLift.Text
