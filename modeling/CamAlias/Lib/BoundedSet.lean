import Mathlib.Data.Set.Basic

/-!
# BoundedSet — sets of positions below a length

What a growable bit set stands for: a length, and a set of positions below it.  Only setting a
position and taking over another set raise the length; the new positions are not members.
-/

namespace CamAlias
namespace Lib

@[ext]
structure BoundedSet where
  length : Nat
  members : Set Nat
  lt_length : ∀ pos ∈ members, pos < length

namespace BoundedSet

variable (s t : BoundedSet) (pos : Nat)

def new (length : Nat) : BoundedSet where
  length
  members := ∅
  lt_length := by simp

/-- The same members, with room for at least `length` positions. -/
def grow (length : Nat) : BoundedSet where
  length := max s.length length
  members := s.members
  lt_length := fun pos hpos => Nat.lt_of_lt_of_le (s.lt_length pos hpos) (Nat.le_max_left _ _)

def setBit : BoundedSet where
  length := max s.length (pos + 1)
  members := {k | k ∈ s.members ∨ k = pos}
  lt_length := by
    rintro k (hk | rfl)
    · exact Nat.lt_of_lt_of_le (s.lt_length k hk) (Nat.le_max_left _ _)
    · exact Nat.lt_of_lt_of_le (Nat.lt_succ_self _) (Nat.le_max_right _ _)

def setBits (start last : Nat) : BoundedSet where
  length := max s.length (last + 1)
  members := {k | k ∈ s.members ∨ (start ≤ k ∧ k ≤ last)}
  lt_length := by
    rintro k (hk | ⟨-, hk⟩)
    · exact Nat.lt_of_lt_of_le (s.lt_length k hk) (Nat.le_max_left _ _)
    · exact Nat.lt_of_lt_of_le (Nat.lt_succ_of_le hk) (Nat.le_max_right _ _)

/-- The members that satisfy a condition. -/
def filter (P : Nat → Prop) : BoundedSet where
  length := s.length
  members := {k | k ∈ s.members ∧ P k}
  lt_length := fun k hk => s.lt_length k hk.1

def clearBit : BoundedSet :=
  s.filter (· ≠ pos)

def clearAll : BoundedSet :=
  s.filter fun _ => False

def setAll : BoundedSet where
  length := s.length
  members := {k | k < s.length}
  lt_length := fun _ hk => hk

def invertBits : BoundedSet :=
  s.setAll.filter (· ∉ s.members)

def union : BoundedSet where
  length := max s.length t.length
  members := {k | k ∈ s.members ∨ k ∈ t.members}
  lt_length := by
    rintro k (hk | hk)
    · exact Nat.lt_of_lt_of_le (s.lt_length k hk) (Nat.le_max_left _ _)
    · exact Nat.lt_of_lt_of_le (t.lt_length k hk) (Nat.le_max_right _ _)

def intersect : BoundedSet :=
  s.filter (· ∈ t.members)

def subtract : BoundedSet :=
  s.filter (· ∉ t.members)

/-- The members of `t`; the length does not shrink. -/
def copy : BoundedSet :=
  t.grow s.length

/-! ## Members -/

variable {s t pos} {k start last : Nat} {P : Nat → Prop}

@[simp] theorem mem_setBit : k ∈ (s.setBit pos).members ↔ k ∈ s.members ∨ k = pos := Iff.rfl

@[simp] theorem mem_setBits :
    k ∈ (s.setBits start last).members ↔ k ∈ s.members ∨ (start ≤ k ∧ k ≤ last) := Iff.rfl

@[simp] theorem mem_filter : k ∈ (s.filter P).members ↔ k ∈ s.members ∧ P k := Iff.rfl

@[simp] theorem mem_clearBit : k ∈ (s.clearBit pos).members ↔ k ∈ s.members ∧ k ≠ pos := Iff.rfl

@[simp] theorem not_mem_clearAll : k ∉ s.clearAll.members := fun h => h.2

@[simp] theorem mem_setAll : k ∈ s.setAll.members ↔ k < s.length := Iff.rfl

@[simp] theorem mem_invertBits :
    k ∈ s.invertBits.members ↔ k < s.length ∧ k ∉ s.members := Iff.rfl

@[simp] theorem mem_union : k ∈ (s.union t).members ↔ k ∈ s.members ∨ k ∈ t.members := Iff.rfl

@[simp] theorem mem_intersect :
    k ∈ (s.intersect t).members ↔ k ∈ s.members ∧ k ∈ t.members := Iff.rfl

@[simp] theorem mem_subtract :
    k ∈ (s.subtract t).members ↔ k ∈ s.members ∧ k ∉ t.members := Iff.rfl

@[simp] theorem mem_copy : k ∈ (s.copy t).members ↔ k ∈ t.members := Iff.rfl

/-! ## Sets that have grown from one position -/

/-- The length goes no further than the last member, or than one position. -/
structure Tight (s : BoundedSet) : Prop where
  length_pos : 0 < s.length
  last : s.length = 1 ∨ s.length - 1 ∈ s.members

theorem tight_new : (new 1).Tight :=
  ⟨Nat.one_pos, Or.inl rfl⟩

theorem Tight.setBit (h : s.Tight) : (s.setBit pos).Tight := by
  refine ⟨Nat.lt_of_lt_of_le h.length_pos (Nat.le_max_left _ _), ?_⟩
  rcases Nat.lt_or_ge pos s.length with hlt | hge
  · have hlength : (s.setBit pos).length = s.length := Nat.max_eq_left hlt
    rw [hlength]
    exact h.last.imp_right Or.inl
  · have hlength : (s.setBit pos).length = pos + 1 :=
      Nat.max_eq_right (Nat.le_succ_of_le hge)
    rw [hlength]
    exact Or.inr (Or.inr rfl)

/-- Such a set has all its positions if it has any, and every one in front of them. -/
theorem Tight.forall_mem_iff (h : s.Tight) :
    (∀ pos < s.length, pos ∈ s.members) ↔
      (∃ k, k ∈ s.members) ∧ ∀ k ∈ s.members, ∀ j < k, j ∈ s.members := by
  constructor
  · exact fun hall => ⟨⟨0, hall 0 h.length_pos⟩,
      fun k hk j hj => hall j (Nat.lt_trans hj (s.lt_length k hk))⟩
  · rintro ⟨⟨k, hk⟩, hdown⟩ pos hpos
    have hdownTo : ∀ last ∈ s.members, pos ≤ last → pos ∈ s.members := by
      intro last hlast hle
      rcases Nat.lt_or_eq_of_le hle with hlt | rfl
      · exact hdown last hlast pos hlt
      · exact hlast
    rcases h.last with hone | hlast
    · -- there is one position only
      have hzero : pos = 0 := by omega
      exact hdownTo k hk (hzero ▸ Nat.zero_le k)
    · exact hdownTo _ hlast (by omega)

end BoundedSet
end Lib
end CamAlias
