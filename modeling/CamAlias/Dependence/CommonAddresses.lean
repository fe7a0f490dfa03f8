import CamAlias.Dependence.DynamicGcd

/-!
# CommonAddresses — what `dynamic_gcd` is for, and when it answers right

The contract of the solver is the set of addresses that lie on both progressions: the lowest of
them, the distance of two, and their number.

`dynamic_gcd_reports_iff`: as long as the product of the strides fits in 64 bits, the answer is right
exactly when the wrap-arounds of the product in front of the division do no harm.
-/

namespace CamAlias

/-! ## The contract -/

/-- `x` is one of `low, low + stride, …, high`. -/
def OnProgression (low high stride : BitVec 64) (x : Nat) : Prop :=
  low.toNat ≤ x ∧ x ≤ high.toNat ∧ stride.toNat ∣ x - low.toNat

instance (low high stride : BitVec 64) (x : Nat) : Decidable (OnProgression low high stride x) :=
  inferInstanceAs (Decidable (_ ∧ _ ∧ _))

/-- The addresses that lie on both progressions. -/
def commonAddresses (low1 low2 high1 high2 stride1 stride2 : BitVec 64) : Finset Nat :=
  (Finset.range (high1.toNat + 1)).filter fun x =>
    OnProgression low1 high1 stride1 x ∧ OnProgression low2 high2 stride2 x

/-- `r` gives the number of the addresses and, if there are any, each of them. -/
def AliasT.Reports (r : AliasT) (addresses : Finset Nat) : Prop :=
  r.count.toNat = addresses.card ∧
    (0 < r.count.toNat → ∀ x, x ∈ addresses ↔
      ∃ k, k < r.count.toNat ∧ x = r.first.toNat + k * r.step.toNat)

def ReportsCommonAddresses (low1 low2 high1 high2 stride1 stride2 : BitVec 64) : Prop :=
  ∃ r, dynamic_gcd low1 low2 high1 high2 stride1 stride2 = some r ∧
    r.Reports (commonAddresses low1 low2 high1 high2 stride1 stride2)

/-- Two progressions of user space addresses that overlap. -/
structure ProgressionPair (low1 low2 high1 high2 stride1 stride2 : BitVec 64) : Prop where
  low1_le : low1 ≤ high1
  low2_le : low2 ≤ high2
  stride1_pos : 0 < stride1
  stride2_pos : 0 < stride2
  stride1_dvd : stride1.toNat ∣ high1.toNat - low1.toNat
  stride2_dvd : stride2.toNat ∣ high2.toNat - low2.toNat
  overlap : low1 ≤ high2 ∧ low2 ≤ high1
  high1_lt : high1.toNat < 2 ^ 47
  high2_lt : high2.toNat < 2 ^ 47
  stride1_lt : stride1.toNat < 2 ^ 47
  stride2_lt : stride2.toNat < 2 ^ 47

/-- An answer that counts the members of a residue class in a window is right for a set of
addresses when these are the members. -/
theorem AliasT.reports_iff {r : AliasT} {low off n : Nat} (hoff : off < r.step.toNat)
    (hcount : r.count.toNat = (n + r.step.toNat - off) / r.step.toNat)
    (hfirst : 0 < r.count.toNat → r.first.toNat = low + off) (addresses : Finset Nat) :
    r.Reports addresses ↔ ∀ x, x ∈ addresses ↔
      low ≤ x ∧ x ≤ low + n ∧ (r.step.toNat : Int) ∣ (x : Int) - (low + off) := by
  simp only [Lib.residue_iff hoff, ← hcount]
  constructor
  · rintro ⟨hcard, hmem⟩ x
    by_cases hpos : 0 < r.count.toNat
    · rw [hmem hpos x, hfirst hpos]
    · have hempty : addresses = ∅ := Finset.card_eq_zero.1 (by omega)
      simp only [hempty, Finset.notMem_empty, false_iff, not_exists, not_and]
      intro k hk
      omega
  · intro hmem
    refine ⟨(Lib.card_eq_of_progression (by omega) hmem).symm, ?_⟩
    intro hpos x
    rw [hmem x, hfirst hpos]

/-! ## Where the solver is right -/

/-- The product of the strides fits in 64 bits, and so does what the count is divided out of. -/
def StridesFit (low2 high stride1 stride2 : BitVec 64) : Prop :=
  stride1.toNat * stride2.toNat < 2 ^ 64 ∧
    Nat.lcm stride1.toNat stride2.toNat + (high.toNat + 1 - low2.toNat) < 2 ^ 64

/-- There is nothing to solve; or the wrap-arounds displace the solution by a multiple of the least
common multiple where there is a common address, and not onto an address of the window where there
is none. -/
def SolvesOrdered (low1 low2 high stride1 stride2 : BitVec 64) : Prop :=
  let d := delta low1 low2 stride1
  let w := wrapDisplacement stride1 stride2 d
  ¬ Nat.gcd stride1.toNat stride2.toNat ∣ d.toNat ∨
    StridesFit low2 high stride1 stride2 ∧
    (CommonAddress low1 low2 high stride1 stride2 0 →
      (Nat.lcm stride1.toNat stride2.toNat : Int) ∣ w) ∧
    (CommonAddress low1 low2 high stride1 stride2 w →
      CommonAddress low1 low2 high stride1 stride2 0)

/-- The members of a residue class are those of another one when the two are equal, unless both
are empty. -/
theorem forall_class_iff {P : Int → Prop} {l e w : Int} :
    (∀ t, P t → (l ∣ t - e ↔ l ∣ t - (e + w))) ↔
      ((∃ t, P t ∧ l ∣ t - e) → l ∣ w) ∧
      ((∃ t, P t ∧ l ∣ t - (e + w)) → ∃ t, P t ∧ l ∣ t - e) := by
  have hshift : ∀ t, t - (e + w) = t - e - w := fun t => by ring
  constructor
  · intro h
    refine ⟨?_, ?_⟩
    · rintro ⟨t, ht, hdvd⟩
      have hw := (h t ht).1 hdvd
      rw [hshift] at hw
      have hsub := Int.dvd_sub hdvd hw
      have hid : t - e - (t - e - w) = w := by ring
      rwa [hid] at hsub
    · rintro ⟨t, ht, hdvd⟩
      exact ⟨t, ht, (h t ht).2 hdvd⟩
  · rintro ⟨hw, hback⟩ t ht
    rw [hshift]
    constructor
    · intro hdvd
      exact Int.dvd_sub hdvd (hw ⟨t, ht, hdvd⟩)
    · intro hdvd
      have hw' := hw (hback ⟨t, ht, by rwa [hshift]⟩)
      have hadd := Int.dvd_add hdvd hw'
      have hid : t - e - w + w = t - e := by ring
      rwa [hid] at hadd

/-- A common address of a window that is not empty, by its distance from `low2`. -/
theorem commonAddress_iff {low1 low2 high stride1 stride2 : BitVec 64} (hle : low1 ≤ low2)
    (hwin : low2.toNat ≤ high.toNat) (h1 : 0 < stride1.toNat) (h2 : 0 < stride2.toNat)
    (hs1 : stride1.toNat < 2 ^ 63) (hs2 : stride2.toNat < 2 ^ 63)
    (hdvd : Nat.gcd stride1.toNat stride2.toNat ∣ (delta low1 low2 stride1).toNat) (w : Int) :
    CommonAddress low1 low2 high stride1 stride2 w ↔
      ∃ t : Int, (0 ≤ t ∧ t ≤ high.toNat - low2.toNat) ∧
        (Nat.lcm stride1.toNat stride2.toNat : Int) ∣
          t - (product stride1 stride2 (delta low1 low2 stride1)
            / Nat.gcd stride1.toNat stride2.toNat + w) := by
  have hclass := onBoth_iff (w := w) (dvd_delta hle h1) hdvd h1 h2 hs1 hs2
  constructor
  · rintro ⟨x, hx | hx, hboth⟩
    · refine ⟨x - low2.toNat, ⟨by omega, by omega⟩, (hclass _).1 ?_⟩
      have hback : (low2.toNat : Int) + (x - low2.toNat) = x := by ring
      rwa [hback]
    · omega
  · rintro ⟨t, ht, hdvd⟩
    exact ⟨low2.toNat + t, Or.inl ⟨by omega, by omega⟩, (hclass t).2 hdvd⟩

/-- The count of the solver, while nothing wraps around. -/
theorem count_toNat {low2 high off lcm : BitVec 64} (hwin : low2.toNat ≤ high.toNat)
    (hoff : off.toNat < lcm.toNat) (hfit : lcm.toNat + (high.toNat + 1 - low2.toNat) < 2 ^ 64) :
    ((high - low2 + 1 - (off + 1) + lcm) / lcm).toNat
      = (high.toNat - low2.toNat + lcm.toNat - off.toNat) / lcm.toNat := by
  have hlow := low2.isLt
  have hhigh := high.isLt
  have hone : (1 : BitVec 64).toNat = 1 := rfl
  rw [BitVec.toNat_udiv]
  congr 1
  simp only [BitVec.toNat_add, BitVec.toNat_sub, hone]
  omega

theorem dynamicGcdOrdered_reports_iff {low1 low2 high stride1 stride2 : BitVec 64}
    {addresses : Finset Nat} (hle : low1 ≤ low2) (hwin : low2.toNat ≤ high.toNat)
    (h1 : 0 < stride1.toNat) (h2 : 0 < stride2.toNat)
    (hs1 : stride1.toNat < 2 ^ 63) (hs2 : stride2.toNat < 2 ^ 63)
    (hmem : ∀ x : Nat, x ∈ addresses ↔ low2.toNat ≤ x ∧ x ≤ high.toNat ∧
      (stride1.toNat : Int) ∣ x - low1.toNat ∧ (stride2.toNat : Int) ∣ x - low2.toNat)
    (hcase : ¬ Nat.gcd stride1.toNat stride2.toNat ∣ (delta low1 low2 stride1).toNat ∨
      StridesFit low2 high stride1 stride2) :
    (∃ r, dynamicGcdOrdered low1 low2 high stride1 stride2 = some r ∧ r.Reports addresses) ↔
      SolvesOrdered low1 low2 high stride1 stride2 := by
  have hne : ∀ x : BitVec 64, 0 < x.toNat → x ≠ 0 := by
    intro x hx h0
    rw [h0] at hx
    exact absurd hx (by decide)
  have hrem : (delta low1 low2 stride1 % euclid_gcd stride1 stride2).toNat
      = (delta low1 low2 stride1).toNat % Nat.gcd stride1.toNat stride2.toNat := by
    rw [BitVec.toNat_umod, euclid_gcd_toNat]
  by_cases hdvd : Nat.gcd stride1.toNat stride2.toNat ∣ (delta low1 low2 stride1).toNat
  · have hfit : StridesFit low2 high stride1 stride2 := hcase.resolve_left (not_not.2 hdvd)
    rcases hfit with ⟨hprod, hwindow⟩
    have hlcm : (euclid_lcm stride1 stride2).toNat = Nat.lcm stride1.toNat stride2.toNat :=
      euclid_lcm_toNat hprod
    have hlpos := Nat.lcm_pos h1 h2
    have hzero : delta low1 low2 stride1 % euclid_gcd stride1 stride2 = 0 := by
      refine BitVec.eq_of_toNat_eq ?_
      rw [hrem]
      exact Nat.mod_eq_zero_of_dvd hdvd
    rcases offset_wrap_spec h1 h2 hdvd hprod with ⟨hofflt, hoffset⟩
    rw [← hlcm] at hofflt
    have hcount := count_toNat hwin hofflt (by omega)
    simp only [dynamicGcdOrdered]
    rw [if_neg (hne _ h1), if_neg (not_not.2 hzero), if_neg (hne _ (by omega))]
    simp only [Option.some.injEq, exists_eq_left']
    rw [AliasT.reports_iff (n := high.toNat - low2.toNat) hofflt hcount]
    · have hreported : ∀ x : Nat, ((euclid_lcm stride1 stride2).toNat : Int) ∣
            (x : Int) - (low2.toNat + (offset stride1 stride2 (delta low1 low2 stride1)).toNat) ↔
          (Nat.lcm stride1.toNat stride2.toNat : Int) ∣ ((x : Int) - low2.toNat)
            - (product stride1 stride2 (delta low1 low2 stride1)
              / Nat.gcd stride1.toNat stride2.toNat
              + wrapDisplacement stride1 stride2 (delta low1 low2 stride1)) := by
        intro x
        rw [hlcm]
        have hsplit : (x : Int) - low2.toNat - (product stride1 stride2 (delta low1 low2 stride1)
                / Nat.gcd stride1.toNat stride2.toNat
                + wrapDisplacement stride1 stride2 (delta low1 low2 stride1))
            = (x : Int) - (low2.toNat + (offset stride1 stride2 (delta low1 low2 stride1)).toNat)
              + ((offset stride1 stride2 (delta low1 low2 stride1)).toNat
                - (product stride1 stride2 (delta low1 low2 stride1)
                  / Nat.gcd stride1.toNat stride2.toNat
                  + wrapDisplacement stride1 stride2 (delta low1 low2 stride1))) := by ring
        rw [hsplit]
        exact (Int.dvd_add_left hoffset).symm
      have hcommon : ∀ x : Nat, ((stride1.toNat : Int) ∣ x - low1.toNat ∧
            (stride2.toNat : Int) ∣ x - low2.toNat) ↔
          (Nat.lcm stride1.toNat stride2.toNat : Int) ∣ ((x : Int) - low2.toNat)
            - product stride1 stride2 (delta low1 low2 stride1)
              / Nat.gcd stride1.toNat stride2.toNat := by
        intro x
        have hclass := onBoth_iff (w := 0) (dvd_delta hle h1) hdvd h1 h2 hs1 hs2 ((x : Int) - low2.toNat)
        have hback : (low2.toNat : Int) + (x - low2.toNat) - 0 = x := by ring
        rwa [hback, Int.add_zero] at hclass
      have hsolves := forall_class_iff (P := fun t => 0 ≤ t ∧ t ≤ high.toNat - low2.toNat)
        (l := (Nat.lcm stride1.toNat stride2.toNat : Int))
        (e := product stride1 stride2 (delta low1 low2 stride1)
          / Nat.gcd stride1.toNat stride2.toNat)
        (w := wrapDisplacement stride1 stride2 (delta low1 low2 stride1))
      have hcommon0 := commonAddress_iff hle hwin h1 h2 hs1 hs2 hdvd 0
      have hcommonw := commonAddress_iff hle hwin h1 h2 hs1 hs2 hdvd
        (wrapDisplacement stride1 stride2 (delta low1 low2 stride1))
      simp only [Int.add_zero] at hcommon0
      rw [← hcommon0, ← hcommonw] at hsolves
      have hright : SolvesOrdered low1 low2 high stride1 stride2 ↔ _ :=
        ⟨fun h => (h.resolve_left (not_not.2 hdvd)).2, fun h => Or.inr ⟨⟨hprod, hwindow⟩, h⟩⟩
      rw [hright, ← hsolves]
      constructor
      · intro h t ht
        obtain ⟨x, hx⟩ : ∃ x : Nat, (x : Int) = low2.toNat + t := ⟨low2.toNat + t.toNat, by omega⟩
        have htx : t = (x : Int) - low2.toNat := by omega
        have hiff := h x
        rw [hmem x, hreported x, hcommon x] at hiff
        rw [htx]
        constructor
        · intro hdvd'
          exact (hiff.1 ⟨by omega, by omega, hdvd'⟩).2.2
        · intro hdvd'
          exact (hiff.2 ⟨by omega, by omega, hdvd'⟩).2.2
      · intro h x
        rw [hmem x, hreported x, hcommon x]
        constructor
        · rintro ⟨hlow, hhigh, hdvd'⟩
          exact ⟨hlow, by omega, (h _ ⟨by omega, by omega⟩).1 hdvd'⟩
        · rintro ⟨hlow, hhigh, hdvd'⟩
          exact ⟨hlow, by omega, (h _ ⟨by omega, by omega⟩).2 hdvd'⟩
    · -- the first address is in the window
      intro hpos
      simp only at hpos
      rw [hcount, Nat.div_pos_iff] at hpos
      have hhigh := high.isLt
      rw [BitVec.toNat_add, Nat.mod_eq_of_lt (by omega)]
  · have hnonzero : delta low1 low2 stride1 % euclid_gcd stride1 stride2 ≠ 0 := by
      intro h0
      rw [h0] at hrem
      exact hdvd (Nat.dvd_of_mod_eq_zero hrem.symm)
    have hempty : addresses = ∅ := by
      refine Finset.eq_empty_of_forall_notMem ?_
      intro x hx
      rcases (hmem x).1 hx with ⟨-, -, hx1, hx2⟩
      exact hdvd (gcd_dvd_delta hle h1 hx1 hx2)
    simp only [dynamicGcdOrdered]
    rw [if_neg (hne _ h1), if_pos hnonzero]
    refine ⟨fun _ => Or.inl hdvd, fun _ => ⟨_, rfl, ?_, ?_⟩⟩
    · rw [hempty]
      rfl
    · intro hpos
      exact absurd hpos (by decide)

/-- What the solver returns: no address at all, or addresses a least common multiple apart. -/
theorem dynamicGcdOrdered_cases {low1 low2 high stride1 stride2 : BitVec 64} {r : AliasT}
    (h : dynamicGcdOrdered low1 low2 high stride1 stride2 = some r) :
    r.count = 0 ∨ r.step = euclid_lcm stride1 stride2 ∧ euclid_lcm stride1 stride2 ≠ 0 := by
  simp only [dynamicGcdOrdered] at h
  split at h
  · simp at h
  · split at h
    · exact Or.inl (by rw [← Option.some.inj h])
    · split at h
      · simp at h
      · rename_i hlcm
        exact Or.inr ⟨by rw [← Option.some.inj h], hlcm⟩

/-- Where the strides do not fit, two common addresses are never reported: the answer has the wrong
distance, or the window has no room for two. -/
theorem card_le_one_of_not_stridesFit {low1 low2 high stride1 stride2 : BitVec 64}
    {addresses : Finset Nat} (hhigh : high.toNat < 2 ^ 47) (h1 : 0 < stride1.toNat)
    (hmem : ∀ x : Nat, x ∈ addresses ↔ low2.toNat ≤ x ∧ x ≤ high.toNat ∧
      (stride1.toNat : Int) ∣ x - low1.toNat ∧ (stride2.toNat : Int) ∣ x - low2.toNat)
    {r : AliasT} (hr : dynamicGcdOrdered low1 low2 high stride1 stride2 = some r)
    (hreports : r.Reports addresses) (hfit : ¬ StridesFit low2 high stride1 stride2) :
    addresses.card ≤ 1 := by
  by_contra hcard
  -- two common addresses are a multiple of the least common multiple apart
  have hdist : ∀ x y : Nat, x ∈ addresses → y ∈ addresses → x < y →
      Nat.lcm stride1.toNat stride2.toNat ≤ y - x := by
    intro x y hx hy hxy
    rcases (hmem x).1 hx with ⟨-, -, hx1, hx2⟩
    rcases (hmem y).1 hy with ⟨-, -, hy1, hy2⟩
    refine Nat.le_of_dvd (by omega) (Nat.lcm_dvd ?_ ?_)
    · have hsub := Int.dvd_sub hy1 hx1
      rw [← Int.natCast_dvd_natCast]
      have heq : (y : Int) - low1.toNat - (x - low1.toNat) = ((y - x : Nat) : Int) := by omega
      rwa [heq] at hsub
    · have hsub := Int.dvd_sub hy2 hx2
      rw [← Int.natCast_dvd_natCast]
      have heq : (y : Int) - low2.toNat - (x - low2.toNat) = ((y - x : Nat) : Int) := by omega
      rwa [heq] at hsub
  have hcount := hreports.1
  rcases dynamicGcdOrdered_cases hr with hzero | ⟨hstep, hlcm⟩
  · rw [hzero] at hcount
    exact hcard (by rw [← hcount]; decide)
  · have hlist := hreports.2 (by omega)
    have hfirst : r.first.toNat ∈ addresses := (hlist _).2 ⟨0, by omega, by simp⟩
    have hsecond : r.first.toNat + r.step.toNat ∈ addresses := (hlist _).2 ⟨1, by omega, by simp⟩
    have hpos : 0 < r.step.toNat := by
      rw [hstep]
      by_contra h0
      exact hlcm (BitVec.eq_of_toNat_eq (by simpa using h0))
    have hle := hdist _ _ hfirst hsecond (by omega)
    have hbound := (hmem _).1 hsecond
    have hlow := (hmem _).1 hfirst
    by_cases hprod : stride1.toNat * stride2.toNat < 2 ^ 64
    · exact hfit ⟨hprod, by omega⟩
    · -- the product has wrapped around, and the step is too small
      have hgpos : 0 < Nat.gcd stride1.toNat stride2.toNat := Nat.gcd_pos_of_pos_left _ h1
      have hsmall : r.step.toNat < Nat.lcm stride1.toNat stride2.toNat := by
        rw [hstep, euclid_lcm, BitVec.toNat_udiv, BitVec.toNat_mul, euclid_gcd_toNat,
          Nat.div_lt_iff_lt_mul hgpos, Nat.mul_comm (Nat.lcm _ _), Nat.gcd_mul_lcm]
        have := Nat.mod_lt (stride1.toNat * stride2.toNat) (show 0 < 2 ^ 64 by decide)
        omega
      omega

/-! ## Both orders -/

/-- Where the solver is right, whichever progression starts lower. -/
def SolvesExactly (low1 low2 high1 high2 stride1 stride2 : BitVec 64) : Prop :=
  if low2 < low1 then SolvesOrdered low2 low1 (minimum high2 high1) stride2 stride1
  else SolvesOrdered low1 low2 (minimum high1 high2) stride1 stride2

/-- Where the strides fit, whichever progression starts lower. -/
def ProductOfStridesFits (low1 low2 high1 high2 stride1 stride2 : BitVec 64) : Prop :=
  if low2 < low1 then StridesFit low1 (minimum high2 high1) stride2 stride1
  else StridesFit low2 (minimum high1 high2) stride1 stride2

/-- The common addresses of two progressions, the first of them starting lower. -/
theorem onBoth_window_iff {low1 low2 high1 high2 stride1 stride2 : BitVec 64} (hle : low1 ≤ low2)
    (x : Nat) :
    OnProgression low1 high1 stride1 x ∧ OnProgression low2 high2 stride2 x ↔
      low2.toNat ≤ x ∧ x ≤ min high1.toNat high2.toNat ∧
        (stride1.toNat : Int) ∣ x - low1.toNat ∧ (stride2.toNat : Int) ∣ x - low2.toNat := by
  have hlow : low1.toNat ≤ low2.toNat := hle
  have hcast : ∀ {s low : Nat}, low ≤ x → (s ∣ x - low ↔ (s : Int) ∣ x - low) := by
    intro s low hx
    rw [← Int.natCast_dvd_natCast, Int.natCast_sub hx]
  simp only [OnProgression]
  constructor
  · rintro ⟨⟨hx1, hh1, hd1⟩, hx2, hh2, hd2⟩
    exact ⟨hx2, by omega, (hcast hx1).1 hd1, (hcast hx2).1 hd2⟩
  · rintro ⟨hx2, hh, hd1, hd2⟩
    exact ⟨⟨by omega, by omega, (hcast (by omega)).2 hd1⟩, hx2, by omega, (hcast hx2).2 hd2⟩

/-- The solver on the lower progression first, for the addresses of a window. -/
theorem dynamicGcdOrdered_reports {low1 low2 high stride1 stride2 : BitVec 64}
    {addresses : Finset Nat} (hle : low1 ≤ low2) (hwin : low2.toNat ≤ high.toNat)
    (hhigh : high.toNat < 2 ^ 47) (h1 : 0 < stride1.toNat) (h2 : 0 < stride2.toNat)
    (hs1 : stride1.toNat < 2 ^ 63) (hs2 : stride2.toNat < 2 ^ 63)
    (hmem : ∀ x : Nat, x ∈ addresses ↔ low2.toNat ≤ x ∧ x ≤ high.toNat ∧
      (stride1.toNat : Int) ∣ x - low1.toNat ∧ (stride2.toNat : Int) ∣ x - low2.toNat) :
    (SolvesOrdered low1 low2 high stride1 stride2 →
      ∃ r, dynamicGcdOrdered low1 low2 high stride1 stride2 = some r ∧ r.Reports addresses) ∧
    ((∃ r, dynamicGcdOrdered low1 low2 high stride1 stride2 = some r ∧ r.Reports addresses) →
      SolvesOrdered low1 low2 high stride1 stride2 ∨
        ¬ StridesFit low2 high stride1 stride2 ∧ addresses.card ≤ 1) := by
  have hiff := dynamicGcdOrdered_reports_iff hle hwin h1 h2 hs1 hs2 hmem
  constructor
  · intro hsolves
    exact (hiff (hsolves.imp_right And.left)).2 hsolves
  · intro hreports
    by_cases hfit : StridesFit low2 high stride1 stride2
    · exact Or.inl ((hiff (Or.inr hfit)).1 hreports)
    · rcases hreports with ⟨r, hr, hreports⟩
      exact Or.inr ⟨hfit, card_le_one_of_not_stridesFit hhigh h1 hmem hr hreports hfit⟩

/-- The answer is right where the wrap-arounds do no harm; and it is right nowhere else, except that
where the strides do not fit it may by accident find the only common address, or none. -/
theorem dynamic_gcd_reports_iff {low1 low2 high1 high2 stride1 stride2 : BitVec 64}
    (h : ProgressionPair low1 low2 high1 high2 stride1 stride2) :
    (SolvesExactly low1 low2 high1 high2 stride1 stride2 →
      ReportsCommonAddresses low1 low2 high1 high2 stride1 stride2) ∧
    (ReportsCommonAddresses low1 low2 high1 high2 stride1 stride2 →
      SolvesExactly low1 low2 high1 high2 stride1 stride2 ∨
        ¬ ProductOfStridesFits low1 low2 high1 high2 stride1 stride2 ∧
          (commonAddresses low1 low2 high1 high2 stride1 stride2).card ≤ 1) := by
  have h1 : 0 < stride1.toNat := h.stride1_pos
  have h2 : 0 < stride2.toNat := h.stride2_pos
  have hlow1 : low1.toNat ≤ high1.toNat := h.low1_le
  have hlow2 : low2.toNat ≤ high2.toNat := h.low2_le
  have hov1 : low1.toNat ≤ high2.toNat := h.overlap.1
  have hov2 : low2.toNat ≤ high1.toNat := h.overlap.2
  have hs1 := h.stride1_lt
  have hs2 := h.stride2_lt
  have hhigh1 := h.high1_lt
  have hhigh2 := h.high2_lt
  have hmem : ∀ x : Nat, x ∈ commonAddresses low1 low2 high1 high2 stride1 stride2 ↔
      OnProgression low1 high1 stride1 x ∧ OnProgression low2 high2 stride2 x := by
    intro x
    rw [commonAddresses, Finset.mem_filter, Finset.mem_range, and_iff_right_iff_imp]
    intro hx
    have := hx.1.2.1
    omega
  simp only [SolvesExactly, ProductOfStridesFits, ReportsCommonAddresses, dynamic_gcd]
  -- the patterns are ordered by their bases
  by_cases hswap : low2 < low1
  · simp only [if_pos hswap]
    have hlow : low2.toNat < low1.toNat := hswap
    refine dynamicGcdOrdered_reports (Nat.le_of_lt hlow) ?_ ?_ h2 h1 (by omega) (by omega) ?_
    · rw [minimum_toNat]
      omega
    · rw [minimum_toNat]
      omega
    · intro x
      rw [hmem x, and_comm, onBoth_window_iff (Nat.le_of_lt hlow), minimum_toNat]
  · simp only [if_neg hswap]
    have hlow : low1.toNat ≤ low2.toNat := Nat.le_of_not_lt hswap
    refine dynamicGcdOrdered_reports hlow ?_ ?_ h1 h2 (by omega) (by omega) ?_
    · rw [minimum_toNat]
      omega
    · rw [minimum_toNat]
      omega
    · intro x
      rw [hmem x, onBoth_window_iff hlow, minimum_toNat]

/-- Strides 4 and 6 from 0: the common addresses are 0, 12 and 24. -/
theorem dynamic_gcd_reports_iff_four_six :
    (SolvesExactly 0 0 24 24 4 6 → ReportsCommonAddresses 0 0 24 24 4 6) ∧
    (ReportsCommonAddresses 0 0 24 24 4 6 →
      SolvesExactly 0 0 24 24 4 6 ∨ ¬ ProductOfStridesFits 0 0 24 24 4 6 ∧
        (commonAddresses 0 0 24 24 4 6).card ≤ 1) :=
  dynamic_gcd_reports_iff ⟨by decide, by decide, by decide, by decide, by decide, by decide,
    by decide, by decide, by decide, by decide, by decide⟩

/-- 24 is on both `0, 12, 24` and `4, 24`, but the Bézout coefficient of 20 for 12 and 20 is -1,
and no address is found. -/
theorem dynamic_gcd_misses_common_address :
    ProgressionPair 0 4 24 24 12 20 ∧ ¬ ReportsCommonAddresses 0 4 24 24 12 20 := by
  refine ⟨⟨by decide, by decide, by decide, by decide, by decide, by decide, by decide, by decide,
    by decide, by decide, by decide⟩, ?_⟩
  rintro ⟨r, hr, hcard, -⟩
  have hcount : (dynamic_gcd 0 4 24 24 12 20).map AliasT.count = some 0 := by decide
  rw [hr, Option.map_some, Option.some.injEq] at hcount
  rw [hcount] at hcard
  revert hcard
  decide

end CamAlias
