import Mathlib.Data.List.Basic
import Mathlib.Tactic.Common

/-!
# Ranges — sets of numbers written as ascending ranges

A set of numbers is written as a list of closed ranges.  `numbers` lists what the ranges cover;
`Ascending` says that no range is empty and each one ends before the next begins, so `numbers` is
strictly increasing and the first and the last number stand at the two ends of the list.
-/

namespace CamAlias
namespace Lib

/-- The numbers of one range. -/
def rangeNumbers (r : Nat × Nat) : List Nat :=
  List.range' r.1 (r.2 + 1 - r.1)

/-- The numbers that a list of ranges covers, range by range. -/
def numbers (rs : List (Nat × Nat)) : List Nat :=
  rs.flatMap rangeNumbers

/-- No range is empty, and each ends before the next one begins. -/
def Ascending : List (Nat × Nat) → Prop
  | [] => True
  | r :: rs => r.1 ≤ r.2 ∧ (∀ r' ∈ rs, r.2 < r'.1) ∧ Ascending rs

@[simp] theorem mem_rangeNumbers {r : Nat × Nat} {k : Nat} :
    k ∈ rangeNumbers r ↔ r.1 ≤ k ∧ k ≤ r.2 := by
  simp only [rangeNumbers, List.mem_range'_1]
  omega

@[simp] theorem length_rangeNumbers (r : Nat × Nat) :
    (rangeNumbers r).length = r.2 + 1 - r.1 := by
  simp [rangeNumbers]

@[simp] theorem numbers_nil : numbers [] = [] := rfl

@[simp] theorem numbers_cons (r : Nat × Nat) (rs : List (Nat × Nat)) :
    numbers (r :: rs) = rangeNumbers r ++ numbers rs := rfl

@[simp] theorem numbers_append (rs ss : List (Nat × Nat)) :
    numbers (rs ++ ss) = numbers rs ++ numbers ss := by
  simp [numbers]

theorem mem_numbers {rs : List (Nat × Nat)} {k : Nat} :
    k ∈ numbers rs ↔ ∃ r ∈ rs, r.1 ≤ k ∧ k ≤ r.2 := by
  simp [numbers, List.mem_flatMap]

theorem rangeNumbers_singleton (n : Nat) : rangeNumbers (n, n) = [n] := by
  simp [rangeNumbers]

theorem rangeNumbers_cons {a b : Nat} (h : a < b) :
    rangeNumbers (a, b) = a :: rangeNumbers (a + 1, b) := by
  have hlen : b + 1 - a = (b + 1 - (a + 1)) + 1 := by omega
  simp only [rangeNumbers]
  rw [hlen, List.range'_succ]

theorem rangeNumbers_snoc {a b : Nat} (h : a < b) :
    rangeNumbers (a, b) = rangeNumbers (a, b - 1) ++ [b] := by
  have hlen : b + 1 - a = (b - 1 + 1 - a) + 1 := by omega
  have hlast : a + 1 * (b - 1 + 1 - a) = b := by omega
  simp only [rangeNumbers]
  rw [hlen, List.range'_concat, hlast]

/-! ## Ascending ranges -/

theorem Ascending.append {rs ss : List (Nat × Nat)} :
    Ascending (rs ++ ss) ↔
      Ascending rs ∧ Ascending ss ∧ ∀ r ∈ rs, ∀ s ∈ ss, r.2 < s.1 := by
  induction rs with
  | nil => simp [Ascending]
  | cons r rs ih =>
      simp only [List.cons_append, Ascending, ih, List.mem_append, List.mem_cons]
      constructor
      · rintro ⟨hr, hlt, hrs, hss, hcross⟩
        refine ⟨⟨hr, fun r' hr' => hlt r' (Or.inl hr'), hrs⟩, hss, ?_⟩
        rintro r' (rfl | hr') s hs
        · exact hlt s (Or.inr hs)
        · exact hcross r' hr' s hs
      · rintro ⟨⟨hr, hlt, hrs⟩, hss, hcross⟩
        refine ⟨hr, ?_, hrs, hss, fun r' hr' => hcross r' (Or.inr hr')⟩
        rintro r' (hr' | hr')
        · exact hlt r' hr'
        · exact hcross r (Or.inl rfl) r' hr'

theorem Ascending.le {rs : List (Nat × Nat)} (h : Ascending rs) {r : Nat × Nat} (hr : r ∈ rs) :
    r.1 ≤ r.2 := by
  induction rs with
  | nil => simp at hr
  | cons r' rs ih =>
      rcases List.mem_cons.1 hr with rfl | hr
      · exact h.1
      · exact ih h.2.2 hr

/-- The first number is the smallest one. -/
theorem Ascending.first_le {r : Nat × Nat} {rs : List (Nat × Nat)} (h : Ascending (r :: rs))
    {k : Nat} (hk : k ∈ numbers (r :: rs)) : r.1 ≤ k := by
  rcases mem_numbers.1 hk with ⟨s, hs, hsk, -⟩
  rcases List.mem_cons.1 hs with rfl | hs
  · exact hsk
  · have hle := h.1
    have hlt := h.2.1 s hs
    omega

/-- The last number is the largest one. -/
theorem Ascending.le_last {r : Nat × Nat} {rs : List (Nat × Nat)} (h : Ascending (rs ++ [r]))
    {k : Nat} (hk : k ∈ numbers (rs ++ [r])) : k ≤ r.2 := by
  rcases Ascending.append.1 h with ⟨-, hr, hcross⟩
  rcases mem_numbers.1 hk with ⟨s, hs, -, hsk⟩
  rcases List.mem_append.1 hs with hs | hs
  · have hlt := hcross s hs r (by simp)
    have hle := hr.1
    omega
  · rcases List.mem_singleton.1 hs with rfl
    exact hsk

theorem Ascending.pairwise_numbers {rs : List (Nat × Nat)} (h : Ascending rs) :
    (numbers rs).Pairwise (· < ·) := by
  induction rs with
  | nil => simp
  | cons r rs ih =>
      rw [numbers_cons, List.pairwise_append]
      refine ⟨?_, ih h.2.2, ?_⟩
      · simpa [rangeNumbers] using List.pairwise_lt_range'
      · intro a ha b hb
        rcases mem_numbers.1 hb with ⟨s, hs, hsb, -⟩
        have hlt := h.2.1 s hs
        have hab := (mem_rangeNumbers.1 ha).2
        omega

theorem Ascending.nodup_numbers {rs : List (Nat × Nat)} (h : Ascending rs) :
    (numbers rs).Nodup :=
  h.pairwise_numbers.imp fun hab => Nat.ne_of_lt hab

/-- Ranges moved up by an offset. -/
theorem Ascending.shift {rs : List (Nat × Nat)} (h : Ascending rs) (n : Nat) :
    Ascending (rs.map fun r => (n + r.1, n + r.2)) := by
  induction rs with
  | nil => trivial
  | cons r rs ih =>
      refine ⟨Nat.add_le_add_left h.1 n, ?_, ih h.2.2⟩
      intro r' hr'
      rcases List.mem_map.1 hr' with ⟨s, hs, rfl⟩
      exact Nat.add_lt_add_left (h.2.1 s hs) n

theorem numbers_shift (rs : List (Nat × Nat)) (n : Nat) :
    numbers (rs.map fun r => (n + r.1, n + r.2)) = (numbers rs).map (n + ·) := by
  induction rs with
  | nil => rfl
  | cons r rs ih =>
      have hlen : n + r.2 + 1 - (n + r.1) = r.2 + 1 - r.1 := by omega
      have hhead : rangeNumbers (n + r.1, n + r.2) = (rangeNumbers r).map (n + ·) := by
        simp only [rangeNumbers, hlen]
        rw [List.map_add_range']
      rw [List.map_cons, numbers_cons, numbers_cons, List.map_append, ih, hhead]

/-- Ranges that cover one number only are one range. -/
theorem Ascending.eq_singleton {rs : List (Nat × Nat)} (h : Ascending rs) {n : Nat}
    (hn : numbers rs = [n]) : rs = [(n, n)] := by
  cases rs with
  | nil => simp at hn
  | cons r rs =>
      have hlen := congrArg List.length hn
      have hr := h.1
      simp only [numbers_cons, List.length_append, length_rangeNumbers, List.length_cons,
        List.length_nil] at hlen
      have hfirst : r.1 = n := by
        have hmem : r.1 ∈ numbers (r :: rs) :=
          mem_numbers.2 ⟨r, by simp, Nat.le_refl _, hr⟩
        rw [hn] at hmem
        exact List.mem_singleton.1 hmem
      have hrest : rs = [] := by
        cases rs with
        | nil => rfl
        | cons s rs =>
            have hs := h.2.2.1
            simp only [numbers_cons, List.length_append, length_rangeNumbers] at hlen
            omega
      subst hrest
      have hsnd : r.2 = n := by
        simp only [numbers_nil, List.length_nil] at hlen
        omega
      rw [show r = (r.1, r.2) from rfl, hfirst, hsnd]

/-- Two strictly increasing lists with the same members are equal. -/
theorem eq_of_pairwise_lt {xs ys : List Nat} (hx : xs.Pairwise (· < ·))
    (hy : ys.Pairwise (· < ·)) (h : ∀ k, k ∈ xs ↔ k ∈ ys) : xs = ys := by
  have hperm : xs.Perm ys := by
    rw [List.perm_ext_iff_of_nodup]
    · exact h
    · exact hx.imp fun hab => Nat.ne_of_lt hab
    · exact hy.imp fun hab => Nat.ne_of_lt hab
  refine hperm.eq_of_pairwise ?_ hx hy
  intro a b _ _ hab hba
  exact absurd hab (Nat.not_lt.2 (Nat.le_of_lt hba))

end Lib
end CamAlias
