import CamAlias.Analyser.RepetitionPattern
import CamAlias.Lib.LowerBound

/-!
# Overlap — whether two repetition patterns share a number

`RepetitionPattern::overlapsWith` runs a `lower_bound` for each range of the other pattern.  Its
comparison holds of the ranges that end *behind* the value, so these stand last in the pattern where
`lower_bound` expects them first: the search always runs to one of the ends of the pattern, and the
range in the middle decides to which.

* `overlapsWith_iff`: what the function computes;
* `overlapsWith_right_iff`: where that is the overlap.
-/

namespace CamAlias

open Lib

namespace RepetitionPattern

/-- `RepetitionPattern::overlapsWith`. -/
def overlapsWith (p other : RepetitionPattern) : Bool :=
  other.any fun i =>
    match p[lowerBound (fun r => i.1 < r.2) p]? with
    | none => false
    | some it => it.1 < i.2

/-- Some number belongs to a range of each pattern. -/
def Overlaps (p other : RepetitionPattern) : Prop :=
  ∃ k, k ∈ numbers p ∧ k ∈ numbers other

/-- The last range of the other pattern begins where the middle range of the pattern ends, or
behind it. -/
def LastBehindMiddle (p other : RepetitionPattern) : Prop :=
  ∃ middle last, p[p.length / 2]? = some middle ∧ other.getLast? = some last ∧ middle.2 ≤ last.1

/-- Some number of the pattern is below some number of the other one. -/
def BelowSome (p other : RepetitionPattern) : Prop :=
  ∃ k ∈ numbers p, ∃ k' ∈ numbers other, k < k'

variable {p other : RepetitionPattern}

/-- The search of one round finds the first range, or nothing. -/
theorem getElem?_lowerBound_range (h : Ascending p) (val : Nat) {middle : Nat × Nat}
    (hmiddle : p[p.length / 2]? = some middle) :
    p[lowerBound (fun r => decide (val < r.2)) p]?
      = if val < middle.2 then none else p.head? := by
  have hsorted : p.Pairwise fun r r' => decide (val < r.2) = true → decide (val < r'.2) = true := by
    have hranges : p.Pairwise fun r r' => r.2 ≤ r'.2 := by
      clear hmiddle
      induction p with
      | nil => exact List.Pairwise.nil
      | cons r p ih =>
          rcases h with ⟨-, hbefore, hrest⟩
          refine List.pairwise_cons.2 ⟨fun r' hr' => ?_, ih hrest⟩
          exact Nat.le_trans (Nat.le_of_lt (hbefore r' hr')) (hrest.le hr')
    refine hranges.imp ?_
    intro r r' hle hlt
    simp only [decide_eq_true_eq] at hlt ⊢
    exact Nat.lt_of_lt_of_le hlt hle
  rw [lowerBound_reversed hmiddle hsorted]
  by_cases hlt : val < middle.2
  · simp [hlt]
  · simp [hlt, List.head?_eq_getElem?]

/-- The function asks no more than the middle range, the first number, and the last range of the
other pattern. -/
theorem overlapsWith_iff (h : Ascending p) (h' : Ascending other) :
    p.overlapsWith other = true ↔ LastBehindMiddle p other ∧ BelowSome p other := by
  cases p with
  | nil => simp [overlapsWith, LastBehindMiddle]
  | cons first p =>
      have hlt : (first :: p).length / 2 < (first :: p).length :=
        Nat.div_lt_self (Nat.succ_pos _) (by decide)
      obtain ⟨middle, hmiddle⟩ : ∃ middle, (first :: p)[(first :: p).length / 2]? = some middle :=
        ⟨_, List.getElem?_eq_getElem hlt⟩
      have hround : ∀ i : Nat × Nat,
          (match (first :: p)[lowerBound (fun r => i.1 < r.2) (first :: p)]? with
            | none => false
            | some it => decide (it.1 < i.2)) = true ↔ middle.2 ≤ i.1 ∧ first.1 < i.2 := by
        intro i
        rw [getElem?_lowerBound_range h i.1 hmiddle]
        by_cases hbehind : i.1 < middle.2
        · simp [hbehind, Nat.not_le.2 hbehind]
        · simp [hbehind, Nat.le_of_not_lt hbehind]
      rw [overlapsWith, List.any_eq_true]
      simp only [hround]
      constructor
      · rintro ⟨i, hi, hbehind, hfirst⟩
        obtain ⟨front, last, rfl⟩ : ∃ front last, other = front ++ [last] :=
          ⟨_, _, (List.dropLast_append_getLast (List.ne_nil_of_mem hi)).symm⟩
        have hle : i.1 ≤ last.1 := by
          rcases List.mem_append.1 hi with hi' | hi'
          · have hcross := (Ascending.append.1 h').2.2 i hi' last (by simp)
            exact Nat.le_trans (h'.le hi) (Nat.le_of_lt hcross)
          · exact Nat.le_of_eq (congrArg Prod.fst (List.mem_singleton.1 hi'))
        refine ⟨⟨middle, last, hmiddle, by simp, Nat.le_trans hbehind hle⟩, first.1, ?_, i.2, ?_,
          hfirst⟩
        · exact mem_numbers.2 ⟨first, List.mem_cons_self, Nat.le_refl _, h.1⟩
        · exact mem_numbers.2 ⟨i, hi, h'.le hi, Nat.le_refl _⟩
      · rintro ⟨⟨middle', last, hmiddle', hlast, hbehind⟩, k, hk, k', hk', hlt'⟩
        rcases Option.some.inj (hmiddle.symm.trans hmiddle') with rfl
        rcases List.getLast?_eq_some_iff.1 hlast with ⟨front, rfl⟩
        refine ⟨last, by simp, hbehind, ?_⟩
        have hlow := h.first_le hk
        have hhigh := h'.le_last hk'
        omega

/-- The answer is right where the patterns overlap and the last range of the other one is behind the
middle one (and not every number of the pattern is the last one there), and where they do not
overlap and the last range is not behind the middle one. -/
theorem overlapsWith_right_iff (h : Ascending p) (h' : Ascending other) :
    (p.overlapsWith other = true ↔ Overlaps p other) ↔
      (Overlaps p other ∧ LastBehindMiddle p other ∧ BelowSome p other) ∨
        (¬ Overlaps p other ∧ ¬ LastBehindMiddle p other) := by
  rw [overlapsWith_iff h h']
  by_cases hoverlaps : Overlaps p other
  · simp [hoverlaps]
  · have hbelow : LastBehindMiddle p other → BelowSome p other := by
      rintro ⟨middle, last, hmiddle, hlast, hle⟩
      have hmiddle := List.mem_of_getElem? hmiddle
      have hlast := List.mem_of_getLast? hlast
      have hk : middle.2 ∈ numbers p := mem_numbers.2 ⟨middle, hmiddle, h.le hmiddle, Nat.le_refl _⟩
      have hk' : last.2 ∈ numbers other := mem_numbers.2 ⟨last, hlast, h'.le hlast, Nat.le_refl _⟩
      refine ⟨middle.2, hk, last.2, hk', Nat.lt_of_le_of_ne ?_ ?_⟩
      · exact Nat.le_trans hle (h'.le hlast)
      · intro heq
        exact hoverlaps ⟨middle.2, hk, heq ▸ hk'⟩
    constructor
    · intro hright
      refine Or.inr ⟨hoverlaps, fun hbehind => ?_⟩
      exact hoverlaps (hright.1 ⟨hbehind, hbelow hbehind⟩)
    · rintro (⟨hyes, -⟩ | ⟨-, hno⟩)
      · exact absurd hyes hoverlaps
      · exact ⟨fun hboth => absurd hboth.1 hno, fun hyes => absurd hyes hoverlaps⟩

theorem overlapsWith_right_iff_apart :
    (overlapsWith [(0, 1), (4, 6), (8, 9)] [(2, 3), (7, 7)] = true ↔
        Overlaps [(0, 1), (4, 6), (8, 9)] [(2, 3), (7, 7)]) ↔
      (Overlaps [(0, 1), (4, 6), (8, 9)] [(2, 3), (7, 7)] ∧
          LastBehindMiddle [(0, 1), (4, 6), (8, 9)] [(2, 3), (7, 7)] ∧
            BelowSome [(0, 1), (4, 6), (8, 9)] [(2, 3), (7, 7)]) ∨
        (¬ Overlaps [(0, 1), (4, 6), (8, 9)] [(2, 3), (7, 7)] ∧
          ¬ LastBehindMiddle [(0, 1), (4, 6), (8, 9)] [(2, 3), (7, 7)]) :=
  overlapsWith_right_iff (by simp [Ascending]) (by simp [Ascending])

/-- A pattern with one number does not overlap with itself. -/
theorem not_overlapsWith_singleton :
    ¬ (overlapsWith [(0, 0)] [(0, 0)] = true ↔ Overlaps [(0, 0)] [(0, 0)]) := by
  intro h
  have hoverlaps : Overlaps [(0, 0)] [(0, 0)] := ⟨0, by decide, by decide⟩
  have hfalse : overlapsWith [(0, 0)] [(0, 0)] = false := by decide
  rw [h.2 hoverlaps] at hfalse
  cases hfalse

end RepetitionPattern
end CamAlias
