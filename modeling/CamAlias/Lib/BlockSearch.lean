import Mathlib.Data.List.Basic
import Mathlib.Tactic.Common

/-!
# BlockSearch — searching a range of numbers block by block

A search for the first number with a property may go through blocks of equal size and skip those
that are known to have none.  The first and the last block are cut to the range.

- `firstInBlocks_eq`: the result is that of the search number by number.
-/

namespace CamAlias
namespace Lib

/-- The first number from `lo` to `hi` that satisfies `p`. -/
def firstIn (p : Nat → Bool) (lo hi : Nat) : Option Nat :=
  (List.range' lo (hi + 1 - lo)).find? p

/-- The same in blocks of `size` numbers, without those that are skipped. -/
def firstInBlocks (p skip : Nat → Bool) (size lo hi : Nat) : Option Nat :=
  (List.range' (lo / size) (hi / size + 1 - lo / size)).findSome? fun block =>
    if skip block then none
    else firstIn p (max (block * size) lo) (min (block * size + size - 1) hi)

variable {p skip : Nat → Bool}

theorem firstIn_of_lt {lo hi : Nat} (h : hi < lo) : firstIn p lo hi = none := by
  have hempty : hi + 1 - lo = 0 := by omega
  simp [firstIn, hempty]

theorem firstIn_eq_none {lo hi : Nat} (h : ∀ k, lo ≤ k → k ≤ hi → p k = false) :
    firstIn p lo hi = none := by
  rw [firstIn, List.find?_eq_none]
  intro k hk
  rw [List.mem_range'_1] at hk
  simp [h k hk.1 (by omega)]

/-- The range is cut in two in front of `mid`. -/
theorem firstIn_split (mid lo hi : Nat) (hmid : 0 < mid) :
    firstIn p lo hi = (firstIn p lo (min (mid - 1) hi)).or (firstIn p (max mid lo) hi) := by
  by_cases hlo : mid ≤ lo
  · rw [firstIn_of_lt (show min (mid - 1) hi < lo by omega), Nat.max_eq_right hlo, Option.none_or]
  · by_cases hhi : hi < mid
    · rw [firstIn_of_lt (show hi < max mid lo by omega), Nat.min_eq_right (by omega),
        Option.or_none]
    · have hsplit : List.range' lo (hi + 1 - lo)
          = List.range' lo (mid - 1 + 1 - lo) ++ List.range' mid (hi + 1 - mid) := by
        have hstart : lo + (mid - 1 + 1 - lo) = mid := by omega
        have hlen : hi + 1 - lo = mid - 1 + 1 - lo + (hi + 1 - mid) := by omega
        rw [hlen, ← List.range'_append_1, hstart]
      rw [Nat.min_eq_left (by omega), Nat.max_eq_left (by omega), firstIn, hsplit,
        List.find?_append]
      rfl

/-- Block after block is number after number. -/
theorem firstInBlocks_eq {size : Nat} (hsize : 0 < size)
    (hskip : ∀ block, skip block = true → ∀ k, k / size = block → p k = false) (lo hi : Nat) :
    firstInBlocks p skip size lo hi = firstIn p lo hi := by
  -- the search from the block `b` on; `n` blocks are left
  have hfrom : ∀ n b, b + n = max (hi / size + 1) b →
      (List.range' b n).findSome? (fun block =>
        if skip block then none
        else firstIn p (max (block * size) lo) (min (block * size + size - 1) hi))
        = firstIn p (max (b * size) lo) hi := by
    intro n
    induction n with
    | zero =>
        intro b hb
        have hend : hi < b * size := by
          rw [← Nat.div_lt_iff_lt_mul hsize]
          omega
        rw [firstIn_of_lt (show hi < max (b * size) lo by omega)]
        rfl
    | succ n ih =>
        intro b hb
        have hnext : (b + 1) * size = b * size + size := Nat.succ_mul _ _
        have hhead : (if skip b then none
            else firstIn p (max (b * size) lo) (min (b * size + size - 1) hi))
            = firstIn p (max (b * size) lo) (min (b * size + size - 1) hi) := by
          by_cases hs : skip b = true
          · rw [if_pos hs]
            refine (firstIn_eq_none fun k hlo hhi => hskip b hs k ?_).symm
            exact Nat.div_eq_of_lt_le (by omega) (by omega)
          · rw [if_neg hs]
        rw [List.range'_succ, List.findSome?_cons, hhead, ih (b + 1) (by omega),
          firstIn_split (b * size + size) (max (b * size) lo) hi (by omega), hnext,
          show max (b * size + size) (max (b * size) lo) = max (b * size + size) lo by omega]
        cases firstIn p (max (b * size) lo) (min (b * size + size - 1) hi) with
        | none => rfl
        | some k => rfl
  have hstart : lo / size * size ≤ lo := Nat.div_mul_le_self lo size
  rw [firstInBlocks, hfrom _ _ (by omega), Nat.max_eq_right hstart]

end Lib
end CamAlias
