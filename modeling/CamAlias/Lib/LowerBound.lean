import Mathlib.Data.List.Basic
import Mathlib.Tactic.Common

/-!
# LowerBound — binary search in a list

`std::lower_bound` halves the part of the sequence that is left, and asks the middle element
whether it comes before the value (`below`).

* `lowerBound_append`: where the elements that come before the value stand first, the search finds
  the first one that does not;
* `lowerBound_reversed`: where they stand last, the middle element alone decides.
-/

namespace CamAlias
namespace Lib

variable {α : Type _}

/-- The loop of `lower_bound`, with the part of `len` elements from `first` on left. -/
def lowerBoundLoop (below : α → Bool) (xs : List α) : Nat → Nat → Nat → Nat
  | 0, first, _ => first
  | fuel + 1, first, len =>
      if len = 0 then first
      else
        match xs[first + len / 2]? with
        | none => first
        | some middle =>
            if below middle then
              lowerBoundLoop below xs fuel (first + len / 2 + 1) (len - len / 2 - 1)
            else lowerBoundLoop below xs fuel first (len / 2)

/-- `lower_bound`, as an index. -/
def lowerBound (below : α → Bool) (xs : List α) : Nat :=
  lowerBoundLoop below xs xs.length 0 xs.length

variable {below : α → Bool} {xs as bs : List α}

/-- Induction on the fuel: the place that is searched for stays in the part that is left. -/
theorem lowerBoundLoop_eq (m : Nat) : ∀ fuel first len : Nat, len ≤ fuel →
    first + len ≤ xs.length → first ≤ m → m ≤ first + len →
    (∀ i x, xs[i]? = some x → first ≤ i → i < m → below x = true) →
    (∀ i x, xs[i]? = some x → m ≤ i → i < first + len → below x = false) →
    lowerBoundLoop below xs fuel first len = m := by
  intro fuel
  induction fuel with
  | zero =>
      intro first len hfuel _ hlo hhi _ _
      rw [lowerBoundLoop]
      omega
  | succ fuel ih =>
      intro first len hfuel hlen hlo hhi hbefore hbehind
      rw [lowerBoundLoop]
      by_cases hzero : len = 0
      · rw [if_pos hzero]
        omega
      · have hmiddle : first + len / 2 < xs.length := by omega
        rw [if_neg hzero, List.getElem?_eq_getElem hmiddle]
        simp only
        have hget := List.getElem?_eq_getElem hmiddle
        by_cases hbelow : below xs[first + len / 2] = true
        · -- the place lies behind the middle element
          rw [if_pos hbelow]
          have hm : first + len / 2 < m := by
            by_contra hle
            have hfalse := hbehind _ _ hget (by omega) (by omega)
            rw [hbelow] at hfalse
            cases hfalse
          refine ih _ _ (by omega) (by omega) (by omega) (by omega) ?_ ?_
          · exact fun i x hi hle hlt => hbefore i x hi (by omega) hlt
          · exact fun i x hi hle hlt => hbehind i x hi hle (by omega)
        · rw [if_neg hbelow]
          have hm : m ≤ first + len / 2 := by
            by_contra hlt
            exact hbelow (hbefore _ _ hget (by omega) (by omega))
          refine ih _ _ (by omega) (by omega) hlo hm hbefore ?_
          exact fun i x hi hle hlt => hbehind i x hi hle (by omega)

theorem lowerBound_append (has : ∀ x ∈ as, below x = true) (hbs : ∀ x ∈ bs, below x = false) :
    lowerBound below (as ++ bs) = as.length := by
  refine lowerBoundLoop_eq _ _ _ _ (Nat.le_refl _) (by omega) (Nat.zero_le _) (by simp) ?_ ?_
  · intro i x hi _ hlt
    rw [List.getElem?_append_left hlt] at hi
    exact has x (List.mem_of_getElem? hi)
  · intro i x hi hle _
    rw [List.getElem?_append_right hle] at hi
    exact hbs x (List.mem_of_getElem? hi)

/-- The element that is found, in a sequence with the elements before the value in front. -/
theorem getElem?_lowerBound (h : xs.Pairwise fun x y => below y = true → below x = true) :
    xs[lowerBound below xs]? = xs.find? fun x => !below x := by
  have hsplit : ∃ as bs, xs = as ++ bs ∧ (∀ x ∈ as, below x = true) ∧
      ∀ x ∈ bs, below x = false := by
    induction xs with
    | nil => exact ⟨[], [], rfl, by simp, by simp⟩
    | cons x xs ih =>
        rcases List.pairwise_cons.1 h with ⟨hhead, htail⟩
        rcases ih htail with ⟨as, bs, heq, has, hbs⟩
        by_cases hx : below x = true
        · refine ⟨x :: as, bs, by rw [heq, List.cons_append], ?_, hbs⟩
          exact fun y hy => (List.mem_cons.1 hy).elim (fun heq => heq ▸ hx) (has y)
        · refine ⟨[], x :: xs, rfl, by simp, ?_⟩
          intro y hy
          rcases List.mem_cons.1 hy with rfl | hy
          · exact Bool.eq_false_iff.2 hx
          · exact Bool.eq_false_iff.2 fun hbelow => hx (hhead y hy hbelow)
  rcases hsplit with ⟨as, bs, rfl, has, hbs⟩
  rw [lowerBound_append has hbs, List.getElem?_append_right (Nat.le_refl _), Nat.sub_self,
    List.find?_append, List.find?_eq_none.2 fun x hx => by simp [has x hx], Option.none_or]
  cases bs with
  | nil => rfl
  | cons b bs => simp [hbs b List.mem_cons_self]

/-- With the elements before the value behind the others, the search runs to one of the ends. -/
theorem lowerBound_reversed {middle : α} (hmiddle : xs[xs.length / 2]? = some middle)
    (h : xs.Pairwise fun x y => below x = true → below y = true) :
    lowerBound below xs = if below middle then xs.length else 0 := by
  rcases List.getElem?_eq_some_iff.1 hmiddle with ⟨hlt, hget⟩
  have hsorted := List.pairwise_iff_getElem.1 h
  obtain ⟨n, hn⟩ : ∃ n, xs.length = n + 1 := Nat.exists_eq_succ_of_ne_zero (by omega)
  have hstep : lowerBound below xs = if below middle then
        lowerBoundLoop below xs n (xs.length / 2 + 1) (xs.length - xs.length / 2 - 1)
      else lowerBoundLoop below xs n 0 (xs.length / 2) := by
    rw [lowerBound]
    nth_rewrite 1 [hn]
    rw [lowerBoundLoop, if_neg (by omega), Nat.zero_add, hmiddle]
  rw [hstep]
  by_cases hbelow : below middle = true
  · rw [if_pos hbelow, if_pos hbelow]
    refine lowerBoundLoop_eq _ _ _ _ (by omega) (by omega) (by omega) (by omega) ?_ ?_
    · intro i x hi hle hlt'
      rcases List.getElem?_eq_some_iff.1 hi with ⟨hi', rfl⟩
      exact hsorted _ _ hlt hi' (by omega) (hget ▸ hbelow)
    · exact fun i x hi hle hlt' => by omega
  · rw [if_neg hbelow, if_neg hbelow]
    refine lowerBoundLoop_eq _ _ _ _ (by omega) (by omega) (by omega) (by omega) ?_ ?_
    · exact fun i x hi hle hlt' => by omega
    · intro i x hi hle hlt'
      rcases List.getElem?_eq_some_iff.1 hi with ⟨hi', rfl⟩
      refine Bool.eq_false_iff.2 fun hx => hbelow ?_
      rw [← hget]
      exact hsorted _ _ hi' hlt (by omega) hx

end Lib
end CamAlias
