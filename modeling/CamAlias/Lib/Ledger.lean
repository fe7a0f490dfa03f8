import Mathlib.Algebra.BigOperators.Group.List.Basic
import Mathlib.Algebra.GroupWithZero.Nat
import Mathlib.Algebra.Order.BigOperators.Group.List
import Mathlib.Order.Lattice
import Mathlib.Order.Nat

/-!
# Ledger — the total of what is in use

Slots that are in use or free, and the total of the sizes of those in use: what a new slot adds, and
what a change of one slot does to the total.
-/

namespace CamAlias
namespace Lib

variable {α : Type _} {size : α → Nat} {slots : List (Option α)} {i : Nat} {x : α}

/-- The size of a slot; a free slot has none. -/
def slotSize (size : α → Nat) : Option α → Nat
  | none => 0
  | some x => size x

def totalSize (size : α → Nat) (slots : List (Option α)) : Nat :=
  (slots.map (slotSize size)).sum

theorem totalSize_append (slot : Option α) :
    totalSize size (slots ++ [slot]) = totalSize size slots + slotSize size slot := by
  simp [totalSize]

/-- The change of one slot. -/
theorem totalSize_set (size : α → Nat) (h : slots[i]? = some (some x)) (slot : Option α) :
    totalSize size (slots.set i slot) + size x = totalSize size slots + slotSize size slot := by
  induction slots generalizing i with
  | nil => simp at h
  | cons head slots ih =>
      cases i with
      | zero =>
          rcases Option.some.inj h with rfl
          simp only [totalSize, List.set_cons_zero, List.map_cons, List.sum_cons, slotSize]
          omega
      | succ i =>
          have hrest := ih (i := i) (by simpa using h)
          simp only [totalSize, List.set_cons_succ, List.map_cons, List.sum_cons] at hrest ⊢
          omega

theorem le_totalSize (h : slots[i]? = some (some x)) : size x ≤ totalSize size slots := by
  have hset := totalSize_set size h none
  simp only [slotSize, Nat.add_zero] at hset
  omega

theorem totalSize_eq_zero (h : ∀ slot ∈ slots, slot = none) : totalSize size slots = 0 := by
  rw [totalSize, List.sum_eq_zero]
  intro n hn
  rcases List.mem_map.1 hn with ⟨slot, hslot, rfl⟩
  rw [h slot hslot]
  rfl

end Lib
end CamAlias
