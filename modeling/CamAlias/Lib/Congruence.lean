import Mathlib.Algebra.GroupWithZero.Nat
import Mathlib.Data.Finset.Card
import Mathlib.Data.Finset.Image
import Mathlib.Data.Finset.Range
import Mathlib.Data.Int.GCD
import Mathlib.Tactic.Ring

/-!
# Congruence — two congruences at once

Numbers that lie in two residue classes form one residue class modulo the least common multiple,
given by Bézout coefficients of the moduli, or none.
-/

namespace CamAlias
namespace Lib

/-- Two congruences with moduli `a` and `b` can only hold when `d` is a multiple of each common
divisor. -/
theorem dvd_of_dvd_sub_of_dvd {a b g d t : Int} (hga : g ∣ a) (hgb : g ∣ b) (ha : a ∣ t - d)
    (hb : b ∣ t) : g ∣ d := by
  have hsub : g ∣ t - d := Int.dvd_trans hga ha
  have ht : g ∣ t := Int.dvd_trans hgb hb
  have hd : d = t - (t - d) := by ring
  rw [hd]
  exact Int.dvd_sub ht hsub

/-- `t ≡ d (mod a)` and `t ≡ 0 (mod b)` is one congruence modulo `lcm a b`, solved by the Bézout
coefficient `v` of `b`. -/
theorem dvd_sub_and_dvd_iff {a b g u v d : Int} (hbezout : a * u + b * v = g) (hd : g ∣ d)
    (t : Int) :
    (a ∣ t - d ∧ b ∣ t) ↔ (Int.lcm a b : Int) ∣ t - b * v * (d / g) := by
  have hquot : g * (d / g) = d := Int.mul_ediv_cancel' hd
  have ha : a ∣ b * v * (d / g) - d := by
    refine ⟨-(u * (d / g)), ?_⟩
    calc
      b * v * (d / g) - d = b * v * (d / g) - g * (d / g) := by rw [hquot]
      _ = b * v * (d / g) - (a * u + b * v) * (d / g) := by rw [hbezout]
      _ = a * -(u * (d / g)) := by ring
  have hb : b ∣ b * v * (d / g) := by
    rw [Int.mul_assoc]
    exact Int.dvd_mul_right b _
  constructor
  · intro h
    refine Int.coe_lcm_dvd ?_ ?_
    · have hsub := Int.dvd_sub h.1 ha
      have heq : t - d - (b * v * (d / g) - d) = t - b * v * (d / g) := by ring
      rwa [heq] at hsub
    · exact Int.dvd_sub h.2 hb
  · intro h
    have hta : a ∣ t - b * v * (d / g) := Int.dvd_trans (Int.dvd_lcm_left a b) h
    have htb : b ∣ t - b * v * (d / g) := Int.dvd_trans (Int.dvd_lcm_right a b) h
    refine ⟨?_, ?_⟩
    · have hadd := Int.dvd_add hta ha
      have heq : t - b * v * (d / g) + (b * v * (d / g) - d) = t - d := by ring
      rwa [heq] at hadd
    · have hadd := Int.dvd_add htb hb
      have heq : t - b * v * (d / g) + b * v * (d / g) = t := by ring
      rwa [heq] at hadd

/-- A residue class meets `[0, hi]` when its least member from 0 on is in there. -/
theorem exists_le_iff {l r hi : Int} (h0 : 0 ≤ r) (hl : r < l) :
    (∃ t, 0 ≤ t ∧ t ≤ hi ∧ l ∣ t - r) ↔ r ≤ hi := by
  constructor
  · rintro ⟨t, ht0, hthi, k, hk⟩
    have hk0 : 0 ≤ k := by
      by_contra hneg
      have hle : l * k ≤ l * (-1) := Int.mul_le_mul_of_nonneg_left (by omega) (by omega)
      omega
    have hlk : 0 ≤ l * k := Int.mul_nonneg (by omega) hk0
    omega
  · intro hr
    exact ⟨r, h0, hr, by simp⟩

/-- A residue class meets `[lo, -1]` when its greatest member below 0 is in there. -/
theorem exists_ge_iff {l r lo : Int} (h0 : 0 ≤ r) (hl : r < l) :
    (∃ t, lo ≤ t ∧ t < 0 ∧ l ∣ t - r) ↔ lo ≤ r - l := by
  constructor
  · rintro ⟨t, htlo, ht0, k, hk⟩
    have hk0 : k ≤ -1 := by
      by_contra hneg
      have hle : 0 ≤ l * k := Int.mul_nonneg (by omega) (by omega)
      omega
    have hlk : l * k ≤ l * (-1) := Int.mul_le_mul_of_nonneg_left hk0 (by omega)
    omega
  · intro hr
    exact ⟨r - l, hr, by omega, ⟨-1, by ring⟩⟩

/-- The members of a residue class in a window, counted from its first. -/
theorem residue_iff {l off : Nat} (hoff : off < l) (low n x : Nat) :
    (low ≤ x ∧ x ≤ low + n ∧ (l : Int) ∣ (x : Int) - (low + off)) ↔
      ∃ k, k < (n + l - off) / l ∧ x = low + off + k * l := by
  have hl : 0 < l := by omega
  constructor
  · rintro ⟨hlow, hn, j, hj⟩
    have hj0 : 0 ≤ j := by
      by_contra hneg
      have hle : (l : Int) * j ≤ l * (-1) := Int.mul_le_mul_of_nonneg_left (by omega) (by omega)
      omega
    rcases Int.eq_ofNat_of_zero_le hj0 with ⟨k, rfl⟩
    have hx : x = low + off + k * l := by
      rw [Nat.mul_comm]
      omega
    refine ⟨k, ?_, hx⟩
    rw [Nat.lt_iff_add_one_le, Nat.le_div_iff_mul_le hl, Nat.add_mul]
    omega
  · rintro ⟨k, hk, rfl⟩
    rw [Nat.lt_iff_add_one_le, Nat.le_div_iff_mul_le hl, Nat.add_mul] at hk
    refine ⟨by omega, by omega, k, ?_⟩
    push_cast
    ring

theorem card_eq_of_progression {addresses : Finset Nat} {l first n : Nat} (hl : 0 < l)
    (h : ∀ x, x ∈ addresses ↔ ∃ k, k < n ∧ x = first + k * l) : addresses.card = n := by
  have himage : addresses = (Finset.range n).image fun k => first + k * l := by
    refine Finset.ext ?_
    intro x
    rw [h, Finset.mem_image]
    constructor
    · rintro ⟨k, hk, rfl⟩
      exact ⟨k, Finset.mem_range.2 hk, rfl⟩
    · rintro ⟨k, hk, rfl⟩
      exact ⟨k, Finset.mem_range.1 hk, rfl⟩
  rw [himage, Finset.card_image_of_injective, Finset.card_range]
  intro a b hab
  exact Nat.eq_of_mul_eq_mul_right hl (by simpa using hab)

end Lib
end CamAlias
