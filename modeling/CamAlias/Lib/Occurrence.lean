import Mathlib.Algebra.GroupWithZero.Nat
import Mathlib.Algebra.Order.BigOperators.Group.List
import Mathlib.Algebra.Order.Group.Nat
import Mathlib.Data.List.Basic
import Mathlib.Data.List.Nodup
import Mathlib.Logic.Function.Basic
import Mathlib.Order.Lattice
import Mathlib.Order.Nat
import Mathlib.Tactic.Common

/-!
# Occurrence — the occurrences of each key, numbered

In a list of items with keys every item gets the number of items with its key that stand before it.
The numbered items are all different (`nodup_number`), and the one with a key and a number is that
element among the items with the key (`mem_number`).
-/

namespace CamAlias
namespace Lib

variable {κ α : Type _} [DecidableEq κ]

/-- The items with a key. -/
def withKey (k : κ) (items : List (κ × α)) : List α :=
  (items.filter fun i => i.1 = k).map Prod.snd

/-- The items with their occurrence numbers, where `seen` have gone before. -/
def numberFrom (seen : κ → Nat) : List (κ × α) → List ((κ × Nat) × α)
  | [] => []
  | (k, x) :: items =>
      ((k, seen k), x) :: numberFrom (Function.update seen k (seen k + 1)) items

def number (items : List (κ × α)) : List ((κ × Nat) × α) :=
  numberFrom (fun _ => 0) items

theorem withKey_cons (k : κ) (i : κ × α) (items : List (κ × α)) :
    withKey k (i :: items) = if i.1 = k then i.2 :: withKey k items else withKey k items := by
  by_cases h : i.1 = k <;> simp [withKey, h]

theorem withKey_append (k : κ) (items items' : List (κ × α)) :
    withKey k (items ++ items') = withKey k items ++ withKey k items' := by
  simp [withKey]

theorem withKey_flatMap {β : Type _} (k : κ) (xs : List β) (f : β → List (κ × α)) :
    withKey k (xs.flatMap f) = xs.flatMap fun x => withKey k (f x) := by
  induction xs with
  | nil => rfl
  | cons x xs ih => rw [List.flatMap_cons, withKey_append, ih, List.flatMap_cons]

theorem map_snd_numberFrom (items : List (κ × α)) : ∀ seen : κ → Nat,
    (numberFrom seen items).map (fun i => (i.1.1, i.2)) = items := by
  induction items with
  | nil => exact fun seen => rfl
  | cons i items ih =>
      intro seen
      rw [numberFrom, List.map_cons, ih]

theorem length_number (items : List (κ × α)) : (number items).length = items.length := by
  have hmap := congrArg List.length (map_snd_numberFrom items fun _ => 0)
  rwa [List.length_map] at hmap

/-- The item with a key and a number. -/
theorem mem_numberFrom (items : List (κ × α)) : ∀ (seen : κ → Nat) (k : κ) (j : Nat) (x : α),
    ((k, j), x) ∈ numberFrom seen items ↔
      seen k ≤ j ∧ (withKey k items)[j - seen k]? = some x := by
  induction items with
  | nil => simp [numberFrom, withKey]
  | cons i items ih =>
      rcases i with ⟨k', x'⟩
      intro seen k j x
      rw [numberFrom, List.mem_cons, ih, withKey_cons]
      by_cases hk : k' = k
      · subst hk
        rw [Function.update_self, if_pos rfl]
        rcases Nat.lt_trichotomy (seen k') j with hlt | rfl | hlt
        · have hsub : j - seen k' = j - (seen k' + 1) + 1 := by omega
          rw [hsub, List.getElem?_cons_succ]
          have hne : ¬ ((k', j), x) = ((k', seen k'), x') := by
            intro h
            have := congrArg (fun i => i.1.2) h
            simp only at this
            omega
          constructor
          · rintro (h | ⟨-, h⟩)
            · exact absurd h hne
            · exact ⟨Nat.le_of_lt hlt, h⟩
          · rintro ⟨-, h⟩
            exact Or.inr ⟨hlt, h⟩
        · rw [Nat.sub_self, List.getElem?_cons_zero]
          constructor
          · rintro (h | ⟨h, -⟩)
            · exact ⟨Nat.le_refl _, congrArg (fun i => some i.2) h.symm⟩
            · omega
          · rintro ⟨-, h⟩
            exact Or.inl (congrArg (Prod.mk _) (Option.some.inj h).symm)
        · constructor
          · rintro (h | ⟨h, -⟩)
            · have := congrArg (fun i => i.1.2) h
              simp only at this
              omega
            · omega
          · rintro ⟨h, -⟩
            omega
      · rw [Function.update_of_ne (Ne.symm hk), if_neg hk]
        constructor
        · rintro (h | h)
          · exact absurd (congrArg (fun i => i.1.1) h).symm hk
          · exact h
        · exact Or.inr

theorem mem_number (items : List (κ × α)) (k : κ) (j : Nat) (x : α) :
    ((k, j), x) ∈ number items ↔ (withKey k items)[j]? = some x := by
  simp [number, mem_numberFrom]

/-- No item is numbered like another one. -/
theorem nodup_numberFrom (items : List (κ × α)) : ∀ seen : κ → Nat,
    ((numberFrom seen items).map Prod.fst).Nodup := by
  induction items with
  | nil => simp [numberFrom]
  | cons i items ih =>
      rcases i with ⟨k, x⟩
      intro seen
      rw [numberFrom, List.map_cons, List.nodup_cons]
      refine ⟨?_, ih _⟩
      intro hmem
      rcases List.mem_map.1 hmem with ⟨⟨p, y⟩, hp, heq⟩
      simp only at heq
      subst heq
      have hle := ((mem_numberFrom items _ _ _ _).1 hp).1
      rw [Function.update_self] at hle
      omega

theorem nodup_number (items : List (κ × α)) : ((number items).map Prod.fst).Nodup :=
  nodup_numberFrom items _

theorem mem_map_fst_number (items : List (κ × α)) (p : κ × Nat) :
    p ∈ (number items).map Prod.fst ↔ p.2 < (withKey p.1 items).length := by
  rcases p with ⟨k, j⟩
  constructor
  · intro h
    rcases List.mem_map.1 h with ⟨⟨q, x⟩, hq, heq⟩
    simp only at heq
    subst heq
    exact (List.getElem?_eq_some_iff.1 ((mem_number items k j x).1 hq)).1
  · intro h
    have hget : (withKey k items)[j]? = some (withKey k items)[j] := List.getElem?_eq_getElem h
    exact List.mem_map.2 ⟨_, (mem_number items k j _).2 hget, rfl⟩

/-- Different items weigh no more than all of them. -/
theorem sum_map_le_of_nodup {ps qs : List α} (hnodup : ps.Nodup) (hsub : ps ⊆ qs) (f : α → Nat) :
    (ps.map f).sum ≤ (qs.map f).sum := by
  rcases List.subperm_of_subset hnodup hsub with ⟨rs, hperm, hrs⟩
  calc (ps.map f).sum = (rs.map f).sum := (hperm.map f).sum_eq.symm
    _ ≤ (qs.map f).sum := (hrs.map f).sum_le_sum fun _ _ => Nat.zero_le _

end Lib
end CamAlias
