import CamAlias.Dependence.ExtendedEuclid
import CamAlias.Lib.Congruence

/-!
# DynamicGcd — common addresses of two strided patterns

`dynamic_gcd` finds the addresses that two arithmetic progressions have in common.  It works on
64-bit words: a Bézout coefficient that is negative, or a large product, makes the product in front
of the division wrap around, and each wrap-around displaces its quotient by the gcd by `2 ^ 64 / gcd`.

- `offset_wrap_spec`: which residue class the solver really looks for;
- `dynamicGcdOrdered_spec`: when it finds an address, while the product of the strides fits.
-/

namespace CamAlias

/-! ## The solver -/

def euclid_lcm (x y : BitVec 64) : BitVec 64 :=
  x * y / euclid_gcd x y

/-- The first common address, the distance of two, and their number. -/
structure AliasT where
  first : BitVec 64
  step : BitVec 64
  count : BitVec 64
  deriving DecidableEq, Repr

/-- How far the first address of the lower progression from `low2` on is above `low2`. -/
def delta (low1 low2 stride1 : BitVec 64) : BitVec 64 :=
  (stride1 - (low2 - low1) % stride1) % stride1

/-- The Bézout coefficient of the second stride, `y`. -/
def coefficient (stride1 stride2 : BitVec 64) : BitVec 64 :=
  (extended_euclid_words stride1 stride2).2

def offset (stride1 stride2 delta : BitVec 64) : BitVec 64 :=
  (stride2 * coefficient stride1 stride2 * delta / euclid_gcd stride1 stride2
    + euclid_lcm stride1 stride2) % euclid_lcm stride1 stride2

/-- `min (x, y)`. -/
def minimum (x y : BitVec 64) : BitVec 64 :=
  if y < x then y else x

theorem minimum_toNat (x y : BitVec 64) : (minimum x y).toNat = min x.toNat y.toNat := by
  simp only [minimum, BitVec.lt_def]
  split <;> omega

/-- `dynamic_gcd` after the exchange, `low1` being the lower one.  `none` is a division by zero. -/
def dynamicGcdOrdered (low1 low2 high stride1 stride2 : BitVec 64) : Option AliasT :=
  let length := high - low2 + 1
  if stride1 = 0 then none
  else
    let d := delta low1 low2 stride1
    let gcd := euclid_gcd stride1 stride2
    let lcm := euclid_lcm stride1 stride2
    -- no common address at all
    if d % gcd ≠ 0 then some { first := 0, step := 0, count := 0 }
    else if lcm = 0 then none
    else
      let off := offset stride1 stride2 d
      let count := (length - (off + 1) + lcm) / lcm
      some { first := low2 + off, step := lcm, count }

def dynamic_gcd (low1 low2 high1 high2 stride1 stride2 : BitVec 64) : Option AliasT :=
  if low2 < low1 then dynamicGcdOrdered low2 low1 (minimum high2 high1) stride2 stride1
  else dynamicGcdOrdered low1 low2 (minimum high1 high2) stride1 stride2

/-! ## What the solver finds -/

/-- The product in front of the division, before it is reduced to 64 bits. -/
def product (stride1 stride2 delta : BitVec 64) : Int :=
  stride2.toNat * (coefficient stride1 stride2).toInt * delta.toNat

/-- How far the wrap-arounds of the product displace the solution: each by `2 ^ 64 / gcd`, and back
by `2 ^ 64` when the sum with the least common multiple wraps around as well. -/
def wrapDisplacement (stride1 stride2 delta : BitVec 64) : Int :=
  let p := product stride1 stride2 delta
  let g := Nat.gcd stride1.toNat stride2.toNat
  let l := Nat.lcm stride1.toNat stride2.toNat
  let wraps := -(p / 2 ^ 64)
  wraps * 2 ^ 64 / g - if g = 1 ∧ 2 ^ 64 ≤ p % 2 ^ 64 + l then 2 ^ 64 else 0

/-- The strides are signed words, their product fits in 64 bits, and so does what the count is
divided out of. -/
structure ProductsFit (low2 high stride1 stride2 : BitVec 64) : Prop where
  stride1_lt : stride1.toNat < 2 ^ 63
  stride2_lt : stride2.toNat < 2 ^ 63
  product_lt : stride1.toNat * stride2.toNat < 2 ^ 64
  window_lt : ((high.toNat : Int) + 1 - low2.toNat).natAbs
    + Nat.lcm stride1.toNat stride2.toNat < 2 ^ 64

theorem delta_toNat {low1 low2 stride1 : BitVec 64} (hle : low1 ≤ low2) (hpos : 0 < stride1.toNat) :
    (delta low1 low2 stride1).toNat
      = (stride1.toNat - (low2.toNat - low1.toNat) % stride1.toNat) % stride1.toNat := by
  have hmod : (low2.toNat - low1.toNat) % stride1.toNat < stride1.toNat := Nat.mod_lt _ hpos
  have hrem : ((low2 - low1) % stride1).toNat = (low2.toNat - low1.toNat) % stride1.toNat := by
    rw [BitVec.toNat_umod, BitVec.toNat_sub_of_le hle]
  have hsub : (low2 - low1) % stride1 ≤ stride1 := by
    rw [BitVec.le_def, hrem]
    omega
  rw [delta, BitVec.toNat_umod, BitVec.toNat_sub_of_le hsub, hrem]

/-- `low2 + delta` lies on the lower progression. -/
theorem dvd_delta {low1 low2 stride1 : BitVec 64} (hle : low1 ≤ low2) (hpos : 0 < stride1.toNat) :
    (stride1.toNat : Int) ∣ (delta low1 low2 stride1).toNat + ((low2.toNat : Int) - low1.toNat) := by
  have hlow : low1.toNat ≤ low2.toNat := hle
  rw [delta_toNat hle hpos]
  have hmod : (low2.toNat - low1.toNat) % stride1.toNat < stride1.toNat := Nat.mod_lt _ hpos
  have hnat : stride1.toNat ∣
      (stride1.toNat - (low2.toNat - low1.toNat) % stride1.toNat) % stride1.toNat
        + (low2.toNat - low1.toNat) := by
    rw [Nat.dvd_iff_mod_eq_zero, Nat.mod_add_mod, ← Nat.add_mod_mod, Nat.sub_add_cancel (by omega),
      Nat.mod_self]
  have hcast := Int.natCast_dvd_natCast.2 hnat
  rwa [Int.natCast_add, Int.natCast_sub hlow] at hcast

theorem euclid_lcm_toNat {stride1 stride2 : BitVec 64}
    (h : stride1.toNat * stride2.toNat < 2 ^ 64) :
    (euclid_lcm stride1 stride2).toNat = Nat.lcm stride1.toNat stride2.toNat := by
  rw [euclid_lcm, BitVec.toNat_udiv, BitVec.toNat_mul, Nat.mod_eq_of_lt h, euclid_gcd_toNat,
    Nat.lcm_eq_mul_div]

theorem product_toNat (stride1 stride2 d : BitVec 64) :
    ((stride2 * coefficient stride1 stride2 * d).toNat : Int)
      = product stride1 stride2 d % 2 ^ 64 := by
  have hcast : ((2 ^ 64 : Nat) : Int) = 2 ^ 64 := by norm_num
  have hcoeff : ((coefficient stride1 stride2).toNat : Int) % 2 ^ 64
      = (coefficient stride1 stride2).toInt % 2 ^ 64 := by
    rw [BitVec.toInt_eq_toNat_bmod, ← hcast, Int.bmod_emod]
  have hfirst : (stride2.toNat : Int) * (coefficient stride1 stride2).toNat % 2 ^ 64
      = stride2.toNat * (coefficient stride1 stride2).toInt % 2 ^ 64 := by
    rw [Int.mul_emod, hcoeff, ← Int.mul_emod]
  rw [BitVec.toNat_mul, BitVec.toNat_mul, product]
  rw [Int.natCast_emod, Int.natCast_mul, Int.natCast_emod, Int.natCast_mul, hcast, hfirst,
    Int.mul_emod, Int.emod_emod_of_dvd _ (Int.dvd_refl _), ← Int.mul_emod]

/-- The quotient of the wrapped product is the exact solution, displaced. -/
theorem quotient_add_lcm_eq {p : Int} {g l q : Nat} (hq : (q : Int) = p % 2 ^ 64) (hg : 0 < g)
    (hdvd : (g : Int) ∣ p) (hl : g * l < 2 ^ 64) :
    ((q / g + l) % 2 ^ 64 : Nat) = p / g
      + (-(p / 2 ^ 64) * 2 ^ 64 / g - if g = 1 ∧ 2 ^ 64 ≤ p % 2 ^ 64 + l then 2 ^ 64 else 0) + l := by
  have hqlt : q < 2 ^ 64 := by
    have := Int.emod_lt_of_pos p (show (0 : Int) < 2 ^ 64 by decide)
    omega
  have hquot : ((q / g : Nat) : Int) = p / g + -(p / 2 ^ 64) * 2 ^ 64 / g := by
    rcases hdvd with ⟨k, rfl⟩
    have hsplit : (q : Int) = -(g * k / 2 ^ 64) * 2 ^ 64 + g * k := by
      rw [hq, Int.emod_def]
      ring
    rw [Int.natCast_ediv, hsplit, Int.add_mul_ediv_left _ _ (by omega),
      Int.mul_ediv_cancel_left k (by omega), Int.add_comm]
  by_cases hone : g = 1
  · subst hone
    have hdiv : q / 1 = q := Nat.div_one q
    by_cases hwrap : 2 ^ 64 ≤ p % 2 ^ 64 + l
    · rw [if_pos ⟨rfl, hwrap⟩]
      omega
    · rw [if_neg (fun h => hwrap h.2)]
      omega
  · have hhalf : q / g ≤ q / 2 := Nat.div_le_div_left (by omega) (by omega)
    have hgl : 2 * l ≤ g * l := Nat.mul_le_mul_right l (by omega)
    rw [if_neg (fun h => hone h.1), Nat.mod_eq_of_lt (by omega)]
    omega

/-- The offset is the exact solution modulo the least common multiple, displaced. -/
theorem offset_wrap_spec {stride1 stride2 d : BitVec 64} (h1 : 0 < stride1.toNat)
    (h2 : 0 < stride2.toNat) (hdvd : Nat.gcd stride1.toNat stride2.toNat ∣ d.toNat)
    (hfit : stride1.toNat * stride2.toNat < 2 ^ 64) :
    (offset stride1 stride2 d).toNat < Nat.lcm stride1.toNat stride2.toNat ∧
      (Nat.lcm stride1.toNat stride2.toNat : Int) ∣ (offset stride1 stride2 d).toNat
        - (product stride1 stride2 d / Nat.gcd stride1.toNat stride2.toNat
          + wrapDisplacement stride1 stride2 d) := by
  let g := Nat.gcd stride1.toNat stride2.toNat
  let l := Nat.lcm stride1.toNat stride2.toNat
  let q := (stride2 * coefficient stride1 stride2 * d).toNat
  have hgpos : 0 < g := Nat.gcd_pos_of_pos_left _ h1
  have hlpos : 0 < l := Nat.lcm_pos h1 h2
  have hgl : g * l = stride1.toNat * stride2.toNat := Nat.gcd_mul_lcm _ _
  have hlcm : (euclid_lcm stride1 stride2).toNat = l := euclid_lcm_toNat hfit
  have hq : (q : Int) = product stride1 stride2 d % 2 ^ 64 := product_toNat _ _ _
  have hgp : (g : Int) ∣ product stride1 stride2 d :=
    Int.dvd_mul_of_dvd_right (Int.natCast_dvd_natCast.2 hdvd)
  have hquot := quotient_add_lcm_eq hq hgpos hgp (hgl ▸ hfit)
  have hoffset : (offset stride1 stride2 d).toNat = ((q / g + l) % 2 ^ 64) % l := by
    rw [offset, BitVec.toNat_umod, BitVec.toNat_add, BitVec.toNat_udiv, euclid_gcd_toNat, hlcm]
  refine ⟨?_, ?_⟩
  · rw [hoffset]
    exact Nat.mod_lt _ hlpos
  · have hmod : ((offset stride1 stride2 d).toNat : Int)
        = (product stride1 stride2 d / g + wrapDisplacement stride1 stride2 d + l) % l := by
      rw [hoffset, Int.natCast_emod, hquot]
      rfl
    rw [hmod, Int.add_emod_right]
    exact Int.dvd_emod_sub_self

/-- The addresses among which the solver looks: from `low2` to `high`, or, when `high` is below
`low2`, the gap between them. -/
def InWindow (low2 high : BitVec 64) (x : Int) : Prop :=
  (low2.toNat ≤ x ∧ x ≤ high.toNat) ∨ (high.toNat < x ∧ x < low2.toNat)

/-- Some address of the window is, moved back by `w`, on both progressions continued without
end. -/
def CommonAddress (low1 low2 high stride1 stride2 : BitVec 64) (w : Int) : Prop :=
  ∃ x : Int, InWindow low2 high x ∧ (stride1.toNat : Int) ∣ x - w - low1.toNat ∧
    (stride2.toNat : Int) ∣ x - w - low2.toNat

theorem count_pos_iff {low2 high off lcm : BitVec 64} (hoff : off.toNat < lcm.toNat)
    (hfit : ((high.toNat : Int) + 1 - low2.toNat).natAbs + lcm.toNat < 2 ^ 64) :
    0 < ((high - low2 + 1 - (off + 1) + lcm) / lcm).toNat ↔
      ∃ t : Int, InWindow low2 high (low2.toNat + t) ∧ (lcm.toNat : Int) ∣ t - off.toNat := by
  have hlow := low2.isLt
  have hhigh := high.isLt
  have hone : (1 : BitVec 64).toNat = 1 := rfl
  have hcount : 0 < ((high - low2 + 1 - (off + 1) + lcm) / lcm).toNat ↔
      lcm.toNat ≤ (high - low2 + 1 - (off + 1) + lcm).toNat := by
    rw [BitVec.toNat_udiv]
    exact ⟨fun h => (Nat.div_pos_iff.1 h).2, fun h => Nat.div_pos h (by omega)⟩
  rw [hcount]
  by_cases hwin : low2.toNat ≤ high.toNat
  · have hvalue : lcm.toNat ≤ (high - low2 + 1 - (off + 1) + lcm).toNat ↔
        (off.toNat : Int) ≤ high.toNat - low2.toNat := by
      simp only [BitVec.toNat_add, BitVec.toNat_sub, hone]
      omega
    rw [hvalue, ← Lib.exists_le_iff (by omega) (Int.ofNat_lt.2 hoff)]
    constructor
    · rintro ⟨t, h0, hle, hdvd⟩
      exact ⟨t, Or.inl ⟨by omega, by omega⟩, hdvd⟩
    · rintro ⟨t, h | h, hdvd⟩
      · exact ⟨t, by omega, by omega, hdvd⟩
      · omega
  · -- the window is empty, and `length` has wrapped around
    have hvalue : lcm.toNat ≤ (high - low2 + 1 - (off + 1) + lcm).toNat ↔
        (high.toNat : Int) + 1 - low2.toNat ≤ off.toNat - lcm.toNat := by
      simp only [BitVec.toNat_add, BitVec.toNat_sub, hone]
      omega
    rw [hvalue, ← Lib.exists_ge_iff (by omega) (Int.ofNat_lt.2 hoff)]
    constructor
    · rintro ⟨t, hle, h0, hdvd⟩
      exact ⟨t, Or.inr ⟨by omega, by omega⟩, hdvd⟩
    · rintro ⟨t, h | h, hdvd⟩
      · omega
      · exact ⟨t, by omega, by omega, hdvd⟩

/-- One congruence for two: an address is, moved back by `w`, on both progressions when its
distance from `low2` is the exact solution, displaced by `w`. -/
theorem onBoth_iff {low1 low2 stride1 stride2 d : BitVec 64} {w : Int}
    (hdelta : (stride1.toNat : Int) ∣ d.toNat + ((low2.toNat : Int) - low1.toNat))
    (hdvd : Nat.gcd stride1.toNat stride2.toNat ∣ d.toNat)
    (hpos1 : 0 < stride1.toNat) (hpos2 : 0 < stride2.toNat)
    (h1 : stride1.toNat < 2 ^ 63) (h2 : stride2.toNat < 2 ^ 63) (t : Int) :
    ((stride1.toNat : Int) ∣ low2.toNat + t - w - low1.toNat ∧
        (stride2.toNat : Int) ∣ low2.toNat + t - w - low2.toNat) ↔
      (Nat.lcm stride1.toNat stride2.toNat : Int) ∣
        t - (product stride1 stride2 d / Nat.gcd stride1.toNat stride2.toNat + w) := by
  have hbezout := extended_euclid_spec (a := stride1.toNat) (b := stride2.toNat)
    (by omega) (by omega)
  rw [Int.gcd_natCast_natCast] at hbezout
  -- the word loop computes the coefficient of Bezout's identity
  have hcoeff : (extended_euclid stride1.toNat stride2.toNat).2
      = (coefficient stride1 stride2).toInt := by
    have hint1 : stride1.toInt = stride1.toNat := BitVec.toInt_eq_toNat_of_lt (by omega)
    have hint2 : stride2.toInt = stride2.toNat := BitVec.toInt_eq_toNat_of_lt (by omega)
    rw [coefficient, extended_euclid_words_coefficient (by omega) (by omega), hint1, hint2]
  rw [hcoeff] at hbezout
  have hsolve := Lib.dvd_sub_and_dvd_iff hbezout (Int.natCast_dvd_natCast.2 hdvd) (t - w)
  have hquot : product stride1 stride2 d / Nat.gcd stride1.toNat stride2.toNat
      = stride2.toNat * (coefficient stride1 stride2).toInt
        * (d.toNat / Nat.gcd stride1.toNat stride2.toNat) := by
    rw [product, Int.mul_ediv_assoc _ (Int.natCast_dvd_natCast.2 hdvd)]
  have hshift : (stride1.toNat : Int) ∣ low2.toNat + t - w - low1.toNat ↔
      (stride1.toNat : Int) ∣ t - w - d.toNat := by
    have heq : low2.toNat + t - w - low1.toNat
        = t - w - d.toNat + (d.toNat + ((low2.toNat : Int) - low1.toNat)) := by ring
    rw [heq]
    exact Int.dvd_add_left hdelta
  have hzero : (low2.toNat : Int) + t - w - low2.toNat = t - w := by ring
  have hsub : t - (product stride1 stride2 d / Nat.gcd stride1.toNat stride2.toNat + w)
      = t - w - stride2.toNat * (coefficient stride1 stride2).toInt
        * (d.toNat / Nat.gcd stride1.toNat stride2.toNat) := by
    rw [hquot]
    ring
  rw [hshift, hzero, hsub, hsolve, Int.lcm_natCast_natCast]

/-- A common address makes `delta` a multiple of the gcd. -/
theorem gcd_dvd_delta {low1 low2 stride1 stride2 : BitVec 64} {x : Int} (hle : low1 ≤ low2)
    (h1 : 0 < stride1.toNat) (hx1 : (stride1.toNat : Int) ∣ x - low1.toNat)
    (hx2 : (stride2.toNat : Int) ∣ x - low2.toNat) :
    Nat.gcd stride1.toNat stride2.toNat ∣ (delta low1 low2 stride1).toNat := by
  have hshift : x - low1.toNat = x - low2.toNat - (delta low1 low2 stride1).toNat
      + ((delta low1 low2 stride1).toNat + ((low2.toNat : Int) - low1.toNat)) := by ring
  rw [hshift] at hx1
  have hx1' := (Int.dvd_add_left (dvd_delta hle h1)).1 hx1
  have hg1 : (Nat.gcd stride1.toNat stride2.toNat : Int) ∣ stride1.toNat :=
    Int.natCast_dvd_natCast.2 (Nat.gcd_dvd_left _ _)
  have hg2 : (Nat.gcd stride1.toNat stride2.toNat : Int) ∣ stride2.toNat :=
    Int.natCast_dvd_natCast.2 (Nat.gcd_dvd_right _ _)
  exact Int.natCast_dvd_natCast.1 (Lib.dvd_of_dvd_sub_of_dvd hg1 hg2 hx1' hx2)

/-- The addresses the solver reports: those of the window that are common to both progressions
after a displacement. -/
theorem dynamicGcdOrdered_spec {low1 low2 high stride1 stride2 : BitVec 64}
    (hle : low1 ≤ low2) (h1 : 0 < stride1.toNat) (h2 : 0 < stride2.toNat)
    (hcase : ¬ Nat.gcd stride1.toNat stride2.toNat ∣ (delta low1 low2 stride1).toNat ∨
      ProductsFit low2 high stride1 stride2) :
    ∃ r, dynamicGcdOrdered low1 low2 high stride1 stride2 = some r ∧
      (0 < r.count.toNat ↔ CommonAddress low1 low2 high stride1 stride2
        (wrapDisplacement stride1 stride2 (delta low1 low2 stride1))) := by
  have hdelta := dvd_delta hle h1
  have hne : ∀ x : BitVec 64, 0 < x.toNat → x ≠ 0 := by
    intro x hx h0
    rw [h0] at hx
    exact absurd hx (by decide)
  have hgcd : (euclid_gcd stride1 stride2).toNat = Nat.gcd stride1.toNat stride2.toNat :=
    euclid_gcd_toNat _ _
  simp only [dynamicGcdOrdered]
  rw [if_neg (hne _ h1)]
  generalize hd : delta low1 low2 stride1 = d at hdelta hcase ⊢
  have hrem : (d % euclid_gcd stride1 stride2).toNat
      = d.toNat % Nat.gcd stride1.toNat stride2.toNat := by
    rw [BitVec.toNat_umod, hgcd]
  by_cases hdvd : Nat.gcd stride1.toNat stride2.toNat ∣ d.toNat
  · rcases hcase.resolve_left (not_not.2 hdvd) with ⟨hs1, hs2, hproduct, hwindow⟩
    have hlcm : (euclid_lcm stride1 stride2).toNat = Nat.lcm stride1.toNat stride2.toNat :=
      euclid_lcm_toNat hproduct
    have hlpos := Nat.lcm_pos h1 h2
    have hzero : d % euclid_gcd stride1 stride2 = 0 := by
      refine BitVec.eq_of_toNat_eq ?_
      rw [hrem]
      exact Nat.mod_eq_zero_of_dvd hdvd
    rcases offset_wrap_spec h1 h2 hdvd hproduct with ⟨hofflt, hoffset⟩
    rw [← hlcm] at hofflt hoffset hwindow
    rw [if_neg (not_not.2 hzero), if_neg (hne _ (by omega))]
    refine ⟨_, rfl, ?_⟩
    rw [count_pos_iff hofflt (by omega)]
    -- a common address is found relative to `low2`
    have hclass : ∀ t : Int, ((euclid_lcm stride1 stride2).toNat : Int)
        ∣ t - (offset stride1 stride2 d).toNat ↔
        ((stride1.toNat : Int) ∣ low2.toNat + t - wrapDisplacement stride1 stride2 d - low1.toNat ∧
          (stride2.toNat : Int) ∣ low2.toNat + t - wrapDisplacement stride1 stride2 d
            - low2.toNat) := by
      intro t
      rw [onBoth_iff hdelta hdvd h1 h2 hs1 hs2, ← hlcm]
      have hsplit : t - (product stride1 stride2 d / Nat.gcd stride1.toNat stride2.toNat
            + wrapDisplacement stride1 stride2 d)
          = t - (offset stride1 stride2 d).toNat + ((offset stride1 stride2 d).toNat
            - (product stride1 stride2 d / Nat.gcd stride1.toNat stride2.toNat
              + wrapDisplacement stride1 stride2 d)) := by ring
      rw [hsplit]
      exact (Int.dvd_add_left hoffset).symm
    constructor
    · rintro ⟨t, hwin, ht⟩
      exact ⟨low2.toNat + t, hwin, (hclass t).1 ht⟩
    · rintro ⟨x, hwin, hx⟩
      have hback : (low2.toNat : Int) + (x - low2.toNat) = x := by ring
      refine ⟨x - low2.toNat, ?_, (hclass _).2 ?_⟩
      · rwa [hback]
      · rwa [hback]
  · have hnonzero : d % euclid_gcd stride1 stride2 ≠ 0 := by
      intro h0
      rw [h0] at hrem
      exact hdvd (Nat.dvd_of_mod_eq_zero hrem.symm)
    rw [if_pos hnonzero]
    refine ⟨_, rfl, ?_⟩
    constructor
    · intro hpos
      exact absurd hpos (by decide)
    · rintro ⟨x, -, hx1, hx2⟩
      exact absurd (hd ▸ gcd_dvd_delta hle h1 hx1 hx2) hdvd

end CamAlias
