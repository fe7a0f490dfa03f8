import Mathlib.Algebra.GroupWithZero.Nat
import Mathlib.Data.List.Basic
import Mathlib.Tactic.Common

/-!
# Progression — arithmetic progressions of machine words

A strided access pattern is stored as a base, a stride and a length.  The meaning of that triple
is the list of its addresses, computed modulo `2 ^ w` as the machine does.
-/

namespace CamAlias
namespace Lib

variable {w : Nat}

/-- `base, base + stride, …`, `n` terms. -/
def progression (base stride : BitVec w) (n : Nat) : List (BitVec w) :=
  (List.range n).map fun k => base + BitVec.ofNat w k * stride

@[simp] theorem progression_zero (base stride : BitVec w) : progression base stride 0 = [] := rfl

@[simp] theorem progression_one (base stride : BitVec w) :
    progression base stride 1 = [base] := by
  simp [progression]

/-- One more term at the end. -/
theorem progression_succ (base stride : BitVec w) (n : Nat) :
    progression base stride (n + 1)
      = progression base stride n ++ [base + BitVec.ofNat w n * stride] := by
  simp [progression, List.range_succ]

theorem progression_two (base stride : BitVec w) :
    progression base stride 2 = [base, base + stride] := by
  simp [progression, List.range_succ]

/-- A progression cut after `m` terms. -/
theorem progression_add (base stride : BitVec w) (m n : Nat) :
    progression base stride (m + n)
      = progression base stride m
        ++ progression (base + BitVec.ofNat w m * stride) stride n := by
  induction n with
  | zero => simp
  | succ n ih =>
      have hterm : base + BitVec.ofNat w (m + n) * stride
          = base + BitVec.ofNat w m * stride + BitVec.ofNat w n * stride := by
        rw [BitVec.ofNat_add, BitVec.add_mul, BitVec.add_assoc]
      rw [← Nat.add_assoc, progression_succ, ih, progression_succ, hterm, List.append_assoc]

@[simp] theorem length_progression (base stride : BitVec w) (n : Nat) :
    (progression base stride n).length = n := by
  simp [progression]

end Lib
end CamAlias
