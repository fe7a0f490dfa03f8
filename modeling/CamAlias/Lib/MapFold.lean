import Mathlib.Tactic.Common
import Mathlib.Data.List.Basic

/-!
# MapFold — loops over the entries of a map

A loop over a map changes a state.  Where the entry of one key is all that a part of the state
depends on, the rest of the map does not matter for that part (`foldl_proj`).
-/

namespace CamAlias
namespace Lib

variable {κ ν σ γ : Type _} (f : σ → κ → ν → σ) (proj : σ → γ) (g : γ → ν → γ) (j : κ)

theorem foldl_proj_list [DecidableEq κ] (hself : ∀ st v, proj (f st j v) = g (proj st) v)
    (hother : ∀ st k v, k ≠ j → proj (f st k v) = proj st) :
    ∀ (l : List (κ × ν)) (st : σ), l.Pairwise (fun a b => a.1 ≠ b.1) →
      proj (l.foldl (fun st e => f st e.1 e.2) st)
        = (l.find? (fun e => e.1 = j)).elim (proj st) fun e => g (proj st) e.2 := by
  intro l
  induction l with
  | nil => simp
  | cons e l ih =>
      intro st hl
      rcases List.pairwise_cons.1 hl with ⟨hhead, htail⟩
      rw [List.foldl_cons, ih _ htail]
      by_cases hej : e.1 = j
      · -- the key is met here, and never again
        have hnone : l.find? (fun e => e.1 = j) = none := by
          rw [List.find?_eq_none]
          intro e' he'
          simpa [← hej] using (hhead e' he').symm
        subst hej
        simp [hnone, hself]
      · simp [hej, hother]

/-- A loop over a map, seen through a part of the state that one key changes. -/
theorem foldl_proj [DecidableEq κ] {cmp : κ → κ → Ordering} [Std.TransCmp cmp]
    [Std.LawfulEqCmp cmp] (hself : ∀ st v, proj (f st j v) = g (proj st) v)
    (hother : ∀ st k v, k ≠ j → proj (f st k v) = proj st) (m : Std.TreeMap κ ν cmp) (st : σ) :
    proj (m.foldl f st) = m[j]?.elim (proj st) (g (proj st)) := by
  have hdistinct : m.toList.Pairwise (fun a b => a.1 ≠ b.1) := by
    refine List.Pairwise.imp ?_ m.distinct_keys_toList
    intro a b hab
    simpa using hab
  rw [Std.TreeMap.foldl_eq_foldl_toList, foldl_proj_list f proj g j hself hother _ _ hdistinct]
  cases hfind : m.toList.find? (fun e => e.1 = j) with
  | none =>
      have hnone : m[j]? = none := by
        cases hget : m[j]? with
        | none => rfl
        | some v =>
            have hmem : (j, v) ∈ m.toList := Std.TreeMap.mem_toList_iff_getElem?_eq_some.2 hget
            have := List.find?_eq_none.1 hfind (j, v) hmem
            simp at this
      simp [hnone]
  | some e =>
      have hkey : e.1 = j := by simpa using List.find?_some hfind
      have hget : m[e.1]? = some e.2 :=
        Std.TreeMap.mem_toList_iff_getElem?_eq_some.1 (List.mem_of_find?_eq_some hfind)
      rw [hkey] at hget
      simp [hget]

end Lib
end CamAlias
