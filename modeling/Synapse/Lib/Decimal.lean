import Mathlib.Data.Int.Notation
import Mathlib.Data.Nat.Notation

/-!
# Decimal numerals

Reading the numerals that `toString` writes. A natural number is a non-empty run of digits; a
number with a sign may start with `+` or `-`. Leading zeros are read, so reading inverts writing
and is not inverted by it.
-/

namespace Decimal

/-- The value of a non-empty run of digits. -/
def digits (cs : List Char) : Option ℕ :=
  if cs ≠ [] ∧ cs.all Char.isDigit then some (Nat.ofDigitChars 10 cs 0) else none

/-- A numeral with an optional `+`. -/
def unsigned : List Char → Option ℕ
  | '+' :: cs => digits cs
  | cs => digits cs

/-- A numeral with an optional sign. -/
def signed : List Char → Option Int
  | '-' :: cs => (digits cs).map fun n ↦ -(n : Int)
  | '+' :: cs => (digits cs).map Int.ofNat
  | cs => (digits cs).map Int.ofNat

variable {c : Char}

theorem isDigit_of_mem_toDigits {n : ℕ} (hc : c ∈ Nat.toDigits 10 n) : c.isDigit :=
  Nat.isDigit_of_mem_toDigits (by decide) (by decide) hc

theorem digits_toDigits (n : ℕ) : digits (Nat.toDigits 10 n) = some n := by
  have hall : (Nat.toDigits 10 n).all Char.isDigit :=
    List.all_eq_true.mpr fun _ hc ↦ isDigit_of_mem_toDigits hc
  rw [digits, if_pos ⟨Nat.toDigits_ne_nil, hall⟩, Nat.ofDigitChars_toDigits (by decide) (by decide)]

theorem signed_of_isDigit {cs : List Char} (hc : c.isDigit) :
    signed (c :: cs) = (digits (c :: cs)).map Int.ofNat := by
  rw [signed]
  all_goals
    rintro _ ⟨⟩
    cases hc

theorem signed_toDigits (n : ℕ) : signed (Nat.toDigits 10 n) = some (n : Int) := by
  obtain ⟨c, cs, hcs⟩ := List.exists_cons_of_ne_nil (Nat.toDigits_ne_nil (n := n) (b := 10))
  have hc : c.isDigit := isDigit_of_mem_toDigits (by rw [hcs]; exact List.mem_cons_self)
  rw [hcs, signed_of_isDigit hc, ← hcs, digits_toDigits]
  rfl

theorem signed_toString (n : Int) : signed (toString n).toList = some n := by
  obtain n | n := n
  · change signed (Nat.repr n).toList = _
    rw [Nat.toList_repr, signed_toDigits]
    rfl
  change signed ("-" ++ Nat.repr (n + 1)).toList = _
  have hsign : "-".toList = ['-'] := rfl
  rw [String.toList_append, Nat.toList_repr, hsign, List.singleton_append, signed, digits_toDigits]
  rfl

theorem mem_toString {n : Int} (hc : c ∈ (toString n).toList) : c = '-' ∨ c.isDigit := by
  obtain n | n := n
  · change c ∈ (Nat.repr n).toList at hc
    rw [Nat.toList_repr] at hc
    exact .inr (isDigit_of_mem_toDigits hc)
  change c ∈ ("-" ++ Nat.repr (n + 1)).toList at hc
  rw [String.toList_append, Nat.toList_repr, List.mem_append] at hc
  obtain hc | hc := hc
  · exact .inl (List.mem_singleton.mp hc)
  · exact .inr (isDigit_of_mem_toDigits hc)

end Decimal
