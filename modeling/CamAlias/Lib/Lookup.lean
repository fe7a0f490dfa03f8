import Mathlib.Data.List.Nodup
import Mathlib.Data.List.Perm.Basic
import Mathlib.Tactic.Common

/-!
# Lookup — the value that a list of groups has for a number

Values are kept once per group of numbers, in any order of the groups and for any set of numbers.
While no number is in two groups, the order of the groups does not matter (`lookup_perm`).
-/

namespace CamAlias
namespace Lib

variable {α : Type _} {gs hs : List (List Nat × α)} {k : Nat} {a : α}

/-- The value of the first group that has the number. -/
def lookup (gs : List (List Nat × α)) (k : Nat) : Option α :=
  (gs.find? fun g => k ∈ g.1).map Prod.snd

@[simp] theorem lookup_nil (k : Nat) : lookup ([] : List (List Nat × α)) k = none := rfl

theorem lookup_cons (g : List Nat × α) (gs : List (List Nat × α)) (k : Nat) :
    lookup (g :: gs) k = if k ∈ g.1 then some g.2 else lookup gs k := by
  by_cases h : k ∈ g.1 <;> simp [lookup, h]

theorem lookup_append (gs hs : List (List Nat × α)) (k : Nat) :
    lookup (gs ++ hs) k = (lookup gs k).or (lookup hs k) := by
  simp only [lookup, List.find?_append]
  cases gs.find? fun g => k ∈ g.1 <;> rfl

theorem lookup_eq_none_iff : lookup gs k = none ↔ k ∉ gs.flatMap Prod.fst := by
  simp only [lookup, Option.map_eq_none_iff, List.find?_eq_none, List.mem_flatMap,
    decide_eq_true_eq, not_exists, not_and]

theorem lookup_eq_some_iff (hn : (gs.flatMap Prod.fst).Nodup) :
    lookup gs k = some a ↔ ∃ g ∈ gs, k ∈ g.1 ∧ g.2 = a := by
  induction gs with
  | nil => simp
  | cons g gs ih =>
      rw [List.flatMap_cons, List.nodup_append] at hn
      rcases hn with ⟨-, htail, hdisj⟩
      rw [lookup_cons]
      by_cases hk : k ∈ g.1
      · rw [if_pos hk]
        constructor
        · intro h
          exact ⟨g, by simp, hk, Option.some.inj h⟩
        · rintro ⟨g', hg', hk', rfl⟩
          rcases List.mem_cons.1 hg' with rfl | hg'
          · rfl
          · exact absurd rfl (hdisj k hk k (List.mem_flatMap.2 ⟨g', hg', hk'⟩))
      · rw [if_neg hk, ih htail]
        constructor
        · rintro ⟨g', hg', hrest⟩
          exact ⟨g', List.mem_cons_of_mem _ hg', hrest⟩
        · rintro ⟨g', hg', hk', hrest⟩
          rcases List.mem_cons.1 hg' with rfl | hg'
          · exact absurd hk' hk
          · exact ⟨g', hg', hk', hrest⟩

theorem lookup_perm (hp : gs.Perm hs) (hn : (gs.flatMap Prod.fst).Nodup) (k : Nat) :
    lookup gs k = lookup hs k := by
  have hn' : (hs.flatMap Prod.fst).Nodup := (hp.flatMap_right Prod.fst).nodup_iff.1 hn
  refine Option.ext fun a => ?_
  rw [lookup_eq_some_iff hn, lookup_eq_some_iff hn']
  constructor
  · rintro ⟨g, hg, hrest⟩
    exact ⟨g, hp.mem_iff.1 hg, hrest⟩
  · rintro ⟨g, hg, hrest⟩
    exact ⟨g, hp.mem_iff.2 hg, hrest⟩

/-- Values looked up in either of two lists that share no number. -/
theorem merge_lookup (f : α → α → α)
    (h : k ∉ gs.flatMap Prod.fst ∨ k ∉ hs.flatMap Prod.fst) :
    Option.merge f (lookup gs k) (lookup hs k) = (lookup gs k).or (lookup hs k) := by
  rcases h with h | h
  · rw [lookup_eq_none_iff.2 h]
    simp
  · rw [lookup_eq_none_iff.2 h]
    simp

end Lib
end CamAlias
