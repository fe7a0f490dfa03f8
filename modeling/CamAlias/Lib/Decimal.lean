import Mathlib.Algebra.Group.Int.Defs
import Mathlib.Algebra.GroupWithZero.Nat
import Mathlib.Data.List.Basic
import Mathlib.Tactic.Common

/-!
# Decimal — printed integers and their conversion back

`printf` and `operator<<` print integers in base ten without leading zeros; `strtoull` and
`strtoll` saturate.
-/

namespace CamAlias
namespace Lib

/-- `"%" PRIu64`, and `operator<<` on an unsigned integer. -/
def decimal (n : Nat) : List Char :=
  Nat.toDigits 10 n

/-- `"%" PRIdPTR`, and `operator<<` on a signed integer. -/
def signedDecimal (z : Int) : List Char :=
  if z < 0 then '-' :: decimal z.natAbs else decimal z.natAbs

theorem isDigit_of_mem_decimal {n : Nat} {d : Char} (hd : d ∈ decimal n) : d.isDigit = true :=
  Nat.isDigit_of_mem_toDigits (by omega) (Nat.le_refl _) hd

theorem decimal_ne_nil (n : Nat) : decimal n ≠ [] :=
  Nat.toDigits_ne_nil

/-- A number of 64 bits has at most 20 digits. -/
theorem length_decimal_le {n : Nat} (h : n < 2 ^ 64) : (decimal n).length ≤ 20 :=
  (Nat.length_toDigits_le_iff (by omega) (by omega)).2 (by omega)

/-- Horner's rule on the digits gives the number back. -/
theorem ofDigitChars_decimal (n : Nat) : Nat.ofDigitChars 10 (decimal n) 0 = n := by
  simp [decimal, Nat.ofDigitChars_ten_toDigits]

/-- `strtoul` and `strtoull` on a run of digits. -/
def strtoull (value : Nat) : Nat :=
  min value (2 ^ 64 - 1)

theorem strtoull_of_lt {value : Nat} (h : value < 2 ^ 64) : strtoull value = value := by
  simp only [strtoull]
  omega

/-- A printed word is converted back. -/
theorem ofNat_strtoull_toNat (x : UInt64) : UInt64.ofNat (strtoull x.toNat) = x := by
  rw [strtoull_of_lt x.toNat_lt]
  exact UInt64.ofNat_toNat

/-- `strtoull` on a run of digits with a sign: a number that fits is negated as a word. -/
def strtoullSigned (value : Int) : BitVec 64 :=
  if 2 ^ 64 ≤ value.natAbs then BitVec.allOnes 64 else BitVec.ofInt 64 value

theorem strtoullSigned_natCast {n : Nat} (h : n < 2 ^ 64) :
    strtoullSigned (n : Int) = BitVec.ofNat 64 n := by
  have hlt : ¬ 2 ^ 64 ≤ ((n : Int)).natAbs := by omega
  rw [strtoullSigned, if_neg hlt, BitVec.ofInt_natCast]

theorem strtoullSigned_toNat (x : BitVec 64) : strtoullSigned (x.toNat : Int) = x := by
  rw [strtoullSigned_natCast x.isLt, BitVec.ofNat_toNat, BitVec.setWidth_eq]

/-- `strtoll` on a run of digits with a sign. -/
def strtoll (value : Int) : Int :=
  max (-2 ^ 63) (min value (2 ^ 63 - 1))

/-- `strtol` on a run of digits with a sign, where a `long` has `w` bits. -/
def strtol (w : Nat) (value : Int) : Int :=
  max (-2 ^ (w - 1)) (min value (2 ^ (w - 1) - 1))

theorem strtol_toInt {w : Nat} (x : BitVec w) : strtol w x.toInt = x.toInt := by
  have hlo : -(2 : Int) ^ (w - 1) ≤ x.toInt := BitVec.le_toInt x
  have hhi : x.toInt < (2 : Int) ^ (w - 1) := BitVec.toInt_lt
  simp only [strtol]
  omega

theorem strtoll_toInt (x : BitVec 64) : strtoll x.toInt = x.toInt :=
  strtol_toInt x

end Lib
end CamAlias
