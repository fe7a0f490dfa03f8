import CamAlias.Lib.Iterate
import Mathlib.Algebra.Order.Ring.Int
import Mathlib.Tactic.Ring

/-!
# ExtendedEuclid — Euclid's loops

`euclid_gcd` works on unsigned words.  `extended_euclid` keeps six variables of type `int64_t`.  The
coefficients of a row alternate in sign, and their magnitudes are bounded by the strides
(`EuclidMagnitudes`), so no product or difference of the loop leaves the signed range: the loop on
words is the loop over the integers.

* `euclid_gcd_toNat`, `extended_euclid_spec`: the two loops;
* `EuclidMagnitudes.step`: what one round keeps;
* `EuclidMagnitudes.inRange`: every value of a round fits;
* `extended_euclid_words_exact`: the loop on words ends with a Bézout identity.
-/

namespace CamAlias

/-! ## Euclid's loops -/

def euclidStep (s : BitVec 64 × BitVec 64) : Option (BitVec 64 × BitVec 64) :=
  if s.2 ≠ 0 then some (s.2, s.1 % s.2) else none

def euclid_gcd (x y : BitVec 64) : BitVec 64 :=
  (Lib.iterate euclidStep y.toNat (x, y)).1

theorem euclidStep_eq_some {s s' : BitVec 64 × BitVec 64} (h : euclidStep s = some s') :
    s.2 ≠ 0 ∧ s' = (s.2, s.1 % s.2) := by
  simp only [euclidStep] at h
  split at h
  · rename_i hne
    exact ⟨hne, (Option.some.inj h).symm⟩
  · simp at h

theorem euclid_gcd_toNat (x y : BitVec 64) : (euclid_gcd x y).toNat = Nat.gcd x.toNat y.toNat := by
  have hpos : ∀ {z : BitVec 64}, z ≠ 0 → 0 < z.toNat := by
    intro z hz
    by_contra h0
    exact hz (BitVec.eq_of_toNat_eq (by simpa using h0))
  have hinv := Lib.iterate_induction
    (fun s : BitVec 64 × BitVec 64 => Nat.gcd s.1.toNat s.2.toNat = Nat.gcd x.toNat y.toNat)
    (fun s s' (hstep : euclidStep s = some s') hs => by
      rcases euclidStep_eq_some hstep with ⟨_, rfl⟩
      simp only [BitVec.toNat_umod]
      rw [← hs, Nat.gcd_comm s.1.toNat, Nat.gcd_rec s.2.toNat s.1.toNat, Nat.gcd_comm])
    y.toNat (x, y) rfl
  have hfinal := Lib.iterate_final (fun s : BitVec 64 × BitVec 64 => s.2.toNat)
    (fun s s' (hstep : euclidStep s = some s') => by
      rcases euclidStep_eq_some hstep with ⟨hne, rfl⟩
      simp only [BitVec.toNat_umod]
      exact Nat.mod_lt _ (hpos hne))
    y.toNat (x, y) (Nat.le_refl _)
  have hzero : (Lib.iterate euclidStep y.toNat (x, y)).2 = 0 := by
    by_contra hne
    rw [euclidStep, if_pos hne] at hfinal
    exact Option.some_ne_none _ hfinal
  rw [hzero] at hinv
  simpa [euclid_gcd] using hinv

/-- The variables of `extended_euclid`. -/
structure EuclidState where
  s : Int
  old_s : Int
  t : Int
  old_t : Int
  r : Int
  old_r : Int

def extendedEuclidStep (e : EuclidState) : Option EuclidState :=
  if e.r ≠ 0 then
    let quot := e.old_r.tdiv e.r
    some
      { r := e.old_r - quot * e.r, old_r := e.r
        t := e.old_t - quot * e.t, old_t := e.t
        s := e.old_s - quot * e.s, old_s := e.s }
  else none

/-- `extended_euclid` over the integers. -/
def extended_euclid (a b : Int) : Int × Int :=
  let e := Lib.iterate extendedEuclidStep b.natAbs
    { s := 0, old_s := 1, t := 1, old_t := 0, r := b, old_r := a }
  (e.old_s, e.old_t)

/-- What the loop keeps: both rows are combinations of `a` and `b`, and the gcd. -/
structure EuclidInvariant (a b : Int) (e : EuclidState) : Prop where
  row : a * e.s + b * e.t = e.r
  old_row : a * e.old_s + b * e.old_t = e.old_r
  gcd_eq : Int.gcd e.old_r e.r = Int.gcd a b
  old_r_nonneg : 0 ≤ e.old_r
  r_nonneg : 0 ≤ e.r

theorem extendedEuclidStep_cases {e e' : EuclidState} (h : extendedEuclidStep e = some e') :
    e.r ≠ 0 ∧ e'.r = e.old_r.tmod e.r ∧ e'.old_r = e.r ∧
      e'.t = e.old_t - e.old_r.tdiv e.r * e.t ∧ e'.old_t = e.t ∧
      e'.s = e.old_s - e.old_r.tdiv e.r * e.s ∧ e'.old_s = e.s := by
  simp only [extendedEuclidStep] at h
  split at h
  · rename_i hne
    rcases Option.some.inj h with rfl
    refine ⟨hne, ?_, rfl, rfl, rfl, rfl, rfl⟩
    simp only [Int.tmod_def, Int.mul_comm]
  · simp at h

theorem EuclidInvariant.step {a b : Int} {e e' : EuclidState}
    (hstep : extendedEuclidStep e = some e') (h : EuclidInvariant a b e) :
    EuclidInvariant a b e' := by
  rcases extendedEuclidStep_cases hstep with ⟨hne, hr, hor, ht, hot, hs, hos⟩
  have hmod : e.old_r.tmod e.r = e.old_r % e.r := Int.tmod_eq_emod_of_nonneg h.old_r_nonneg
  have hdiv : e.old_r.tdiv e.r * e.r + e.old_r.tmod e.r = e.old_r := by
    rw [Int.mul_comm]
    exact Int.mul_tdiv_add_tmod e.old_r e.r
  refine ⟨?_, ?_, ?_, ?_, ?_⟩
  · calc
      a * e'.s + b * e'.t
          = (a * e.old_s + b * e.old_t) - e.old_r.tdiv e.r * (a * e.s + b * e.t) := by
            rw [hs, ht]
            ring
      _ = e.old_r - e.old_r.tdiv e.r * e.r := by rw [h.row, h.old_row]
      _ = e'.r := by
            rw [hr]
            omega
  · rw [hos, hot, hor]
    exact h.row
  · rcases Int.eq_ofNat_of_zero_le h.old_r_nonneg with ⟨m, hm⟩
    rcases Int.eq_ofNat_of_zero_le h.r_nonneg with ⟨n, hn⟩
    rw [hr, hor, hmod, ← h.gcd_eq, hm, hn, ← Int.natCast_emod, Int.gcd_natCast_natCast,
      Int.gcd_natCast_natCast, Nat.gcd_comm m n, Nat.gcd_rec n m, Nat.gcd_comm]
  · rw [hor]
    exact h.r_nonneg
  · rw [hr, hmod]
    exact Int.emod_nonneg _ hne

/-- The remainder decreases, so as many rounds as its start end the loop. -/
theorem extendedEuclidStep_final (e : EuclidState) :
    extendedEuclidStep (Lib.iterate extendedEuclidStep e.r.natAbs e) = none :=
  Lib.iterate_final (fun e : EuclidState => e.r.natAbs)
    (fun e e' (hstep : extendedEuclidStep e = some e') => by
      rcases extendedEuclidStep_cases hstep with ⟨hne, hr, -⟩
      simp only [hr]
      rw [Int.natAbs_tmod]
      exact Nat.mod_lt _ (Int.natAbs_pos.2 hne))
    e.r.natAbs e (Nat.le_refl _)

/-- The loop ends with a Bézout identity. -/
theorem extended_euclid_spec {a b : Int} (ha : 0 ≤ a) (hb : 0 ≤ b) :
    a * (extended_euclid a b).1 + b * (extended_euclid a b).2 = (Int.gcd a b : Int) := by
  let e₀ : EuclidState := { s := 0, old_s := 1, t := 1, old_t := 0, r := b, old_r := a }
  have hinit : EuclidInvariant a b e₀ := by
    refine ⟨?_, ?_, rfl, ha, hb⟩
    · simp [e₀]
    · simp [e₀]
  have hinv := Lib.iterate_induction (EuclidInvariant a b)
    (fun e e' hstep he => he.step hstep) b.natAbs e₀ hinit
  have hfinal : extendedEuclidStep (Lib.iterate extendedEuclidStep b.natAbs e₀) = none :=
    extendedEuclidStep_final e₀
  have hzero : (Lib.iterate extendedEuclidStep b.natAbs e₀).r = 0 := by
    by_contra hne
    rw [extendedEuclidStep, if_pos hne] at hfinal
    exact Option.some_ne_none _ hfinal
  have hgcd := hinv.gcd_eq
  rw [hzero, Int.gcd_zero_right] at hgcd
  have hnonneg := hinv.old_r_nonneg
  have hrow := hinv.old_row
  simp only [extended_euclid]
  rw [show a * _ + b * _ = _ from hrow]
  omega

/-! ## The loop on words -/

/-- The variables of `extended_euclid` as the machine keeps them. -/
structure EuclidWords where
  s : BitVec 64
  old_s : BitVec 64
  t : BitVec 64
  old_t : BitVec 64
  r : BitVec 64
  old_r : BitVec 64

/-- `s = 0, old_s = 1, t = 1, old_t = 0, r = b, old_r = a`. -/
def euclidWordsStart (a b : BitVec 64) : EuclidWords :=
  { s := 0, old_s := 1, t := 1, old_t := 0, r := b, old_r := a }

/-- One round of the loop, with the division of signed words. -/
def extendedEuclidStepWords (w : EuclidWords) : Option EuclidWords :=
  if w.r ≠ 0 then
    let quot := w.old_r.sdiv w.r
    some
      { r := w.old_r - quot * w.r, old_r := w.r
        t := w.old_t - quot * w.t, old_t := w.t
        s := w.old_s - quot * w.s, old_s := w.s }
  else none

/-- `extended_euclid`. -/
def extended_euclid_words (a b : BitVec 64) : BitVec 64 × BitVec 64 :=
  let w := Lib.iterate extendedEuclidStepWords b.toNat (euclidWordsStart a b)
  (w.old_s, w.old_t)

/-- The numbers that the words stand for. -/
def EuclidWords.toState (w : EuclidWords) : EuclidState :=
  { s := w.s.toInt, old_s := w.old_s.toInt, t := w.t.toInt, old_t := w.old_t.toInt
    r := w.r.toInt, old_r := w.old_r.toInt }

/-! ## The values of a round -/

/-- The range of `int64_t`. -/
def Signed64 (x : Int) : Prop :=
  -2 ^ 63 ≤ x ∧ x < 2 ^ 63

def EuclidState.quot (e : EuclidState) : Int :=
  e.old_r.tdiv e.r

/-- What a round computes from its variables: the quotient, the products and the differences. -/
def EuclidState.computed (e : EuclidState) : List Int :=
  [e.quot, e.quot * e.r, e.old_r - e.quot * e.r, e.quot * e.t, e.old_t - e.quot * e.t,
    e.quot * e.s, e.old_s - e.quot * e.s]

/-- The variables are signed words, and so is what the next round computes. -/
structure EuclidState.InRange (e : EuclidState) : Prop where
  kept : ∀ x ∈ [e.s, e.old_s, e.t, e.old_t, e.r, e.old_r], Signed64 x
  computed : e.r ≠ 0 → ∀ x ∈ e.computed, Signed64 x

theorem toInt_sub_of_signed64 {x y : BitVec 64} (h : Signed64 (x.toInt - y.toInt)) :
    (x - y).toInt = x.toInt - y.toInt := by
  rw [BitVec.toInt_sub]
  exact Int.bmod_eq_of_le h.1 h.2

theorem toInt_mul_of_signed64 {x y : BitVec 64} (h : Signed64 (x.toInt * y.toInt)) :
    (x * y).toInt = x.toInt * y.toInt := by
  rw [BitVec.toInt_mul]
  exact Int.bmod_eq_of_le h.1 h.2

theorem toInt_sdiv_of_signed64 {x y : BitVec 64} (h : Signed64 (x.toInt.tdiv y.toInt)) :
    (x.sdiv y).toInt = x.toInt.tdiv y.toInt := by
  rw [BitVec.toInt_sdiv]
  exact Int.bmod_eq_of_le h.1 h.2

/-- A round whose values fit is the round over the integers. -/
theorem toState_extendedEuclidStepWords {w : EuclidWords} (h : w.toState.InRange) :
    (extendedEuclidStepWords w).map EuclidWords.toState = extendedEuclidStep w.toState := by
  by_cases hzero : w.r = 0
  · have hstate : w.toState.r = 0 := congrArg BitVec.toInt hzero
    rw [extendedEuclidStepWords, extendedEuclidStep, if_neg (not_not.2 hzero),
      if_neg (not_not.2 hstate), Option.map_none]
  · have hstate : w.toState.r ≠ 0 := by
      intro hr
      exact hzero (BitVec.eq_of_toInt_eq hr)
    have hfits := h.computed hstate
    simp only [EuclidState.computed, List.forall_mem_cons] at hfits
    rcases hfits with ⟨hquot, hqr, hr, hqt, ht, hqs, hs, -⟩
    have hdiv : (w.old_r.sdiv w.r).toInt = w.toState.quot := toInt_sdiv_of_signed64 hquot
    rw [extendedEuclidStepWords, extendedEuclidStep, if_pos hzero, if_pos hstate, Option.map_some]
    -- one row of the simultaneous update after the other
    have hrow : ∀ old new : BitVec 64, Signed64 (w.toState.quot * new.toInt) →
        Signed64 (old.toInt - w.toState.quot * new.toInt) →
        (old - w.old_r.sdiv w.r * new).toInt = old.toInt - w.toState.quot * new.toInt := by
      intro old new hproduct hdifference
      have hmul : (w.old_r.sdiv w.r * new).toInt = w.toState.quot * new.toInt := by
        rw [toInt_mul_of_signed64 (by rwa [hdiv]), hdiv]
      rw [toInt_sub_of_signed64 (by rwa [hmul]), hmul]
    have hrowR := hrow w.old_r w.r hqr hr
    have hrowT := hrow w.old_t w.t hqt ht
    have hrowS := hrow w.old_s w.s hqs hs
    simp only [EuclidWords.toState, hrowR, hrowT, hrowS]
    rfl

/-! ## The magnitudes of the coefficients -/

/-- The coefficients alternate in sign; with their magnitudes the strides are combinations of the
two remainders. -/
structure EuclidMagnitudes (a b : Int) (e : EuclidState) (sign s old_s t old_t : Int) : Prop where
  sign_cases : sign = 1 ∨ sign = -1
  s_eq : e.s = -sign * s
  old_s_eq : e.old_s = sign * old_s
  t_eq : e.t = sign * t
  old_t_eq : e.old_t = -sign * old_t
  s_nonneg : 0 ≤ s
  old_s_nonneg : 0 ≤ old_s
  t_nonneg : 0 ≤ t
  old_t_nonneg : 0 ≤ old_t
  row_s : s * e.old_r + old_s * e.r = b
  row_t : t * e.old_r + old_t * e.r = a
  old_s_le : old_s ≤ b
  old_t_le : old_t ≤ a
  old_r_pos : 0 < e.old_r
  r_nonneg : 0 ≤ e.r

variable {a b : Int} {e e' : EuclidState} {sign s old_s t old_t : Int}

theorem EuclidMagnitudes.s_le (h : EuclidMagnitudes a b e sign s old_s t old_t) : s ≤ b := by
  have hother := mul_nonneg h.old_s_nonneg h.r_nonneg
  calc
    s = s * 1 := (mul_one s).symm
    _ ≤ s * e.old_r := mul_le_mul_of_nonneg_left h.old_r_pos h.s_nonneg
    _ ≤ b := by
        rw [← h.row_s]
        exact le_add_of_nonneg_right hother

theorem EuclidMagnitudes.t_le (h : EuclidMagnitudes a b e sign s old_s t old_t) : t ≤ a := by
  have hother := mul_nonneg h.old_t_nonneg h.r_nonneg
  calc
    t = t * 1 := (mul_one t).symm
    _ ≤ t * e.old_r := mul_le_mul_of_nonneg_left h.old_r_pos h.t_nonneg
    _ ≤ a := by
        rw [← h.row_t]
        exact le_add_of_nonneg_right hother

theorem EuclidMagnitudes.quot_nonneg (h : EuclidMagnitudes a b e sign s old_s t old_t) :
    0 ≤ e.quot :=
  Int.tdiv_nonneg (Int.le_of_lt h.old_r_pos) h.r_nonneg

theorem euclidMagnitudes_start (ha : 0 < a) (hb : 0 < b) :
    EuclidMagnitudes a b { s := 0, old_s := 1, t := 1, old_t := 0, r := b, old_r := a }
      1 0 1 1 0 :=
  { sign_cases := Or.inl rfl
    s_eq := rfl
    old_s_eq := rfl
    t_eq := rfl
    old_t_eq := rfl
    s_nonneg := Int.le_refl 0
    old_s_nonneg := Int.one_nonneg
    t_nonneg := Int.one_nonneg
    old_t_nonneg := Int.le_refl 0
    row_s := by simp
    row_t := by simp
    old_s_le := hb
    old_t_le := Int.le_of_lt ha
    old_r_pos := ha
    r_nonneg := Int.le_of_lt hb }

/-- One round moves the magnitudes on and turns the signs round. -/
theorem EuclidMagnitudes.step (hstep : extendedEuclidStep e = some e')
    (h : EuclidMagnitudes a b e sign s old_s t old_t) :
    EuclidMagnitudes a b e' (-sign) (old_s + e.quot * s) s (old_t + e.quot * t) t := by
  rcases extendedEuclidStep_cases hstep with ⟨hne, hr, hor, ht, hot, hs, hos⟩
  have hquot := h.quot_nonneg
  have hmod : e'.r = e.old_r - e.quot * e.r := by
    rw [hr, Int.tmod_def, EuclidState.quot, Int.mul_comm]
  -- the coefficients change their signs in turns, so their magnitudes only grow
  exact
    { sign_cases := by
        rcases h.sign_cases with rfl | rfl
        · exact Or.inr rfl
        · exact Or.inl rfl
      s_eq := by
        rw [hs, h.old_s_eq, h.s_eq, EuclidState.quot]
        ring
      old_s_eq := by rw [hos, h.s_eq]
      t_eq := by
        rw [ht, h.old_t_eq, h.t_eq, EuclidState.quot]
        ring
      old_t_eq := by rw [hot, h.t_eq, neg_neg]
      s_nonneg := add_nonneg h.old_s_nonneg (mul_nonneg hquot h.s_nonneg)
      old_s_nonneg := h.s_nonneg
      t_nonneg := add_nonneg h.old_t_nonneg (mul_nonneg hquot h.t_nonneg)
      old_t_nonneg := h.t_nonneg
      row_s := by
        rw [hor, hmod, ← h.row_s]
        ring
      row_t := by
        rw [hor, hmod, ← h.row_t]
        ring
      old_s_le := h.s_le
      old_t_le := h.t_le
      old_r_pos := by
        rw [hor]
        exact lt_of_le_of_ne h.r_nonneg (Ne.symm hne)
      r_nonneg := by
        rw [hr]
        exact Int.tmod_nonneg _ (Int.le_of_lt h.old_r_pos) }

/-- A coefficient whose magnitude is below a stride fits. -/
theorem signed64_of_magnitude {m bound : Int} (hsign : sign = 1 ∨ sign = -1) (hnonneg : 0 ≤ m)
    (hle : m ≤ bound) (hbound : bound < 2 ^ 63) : Signed64 (sign * m) := by
  rcases hsign with rfl | rfl
  · exact ⟨by omega, by omega⟩
  · exact ⟨by omega, by omega⟩

/-- The invariant of the loop: some magnitudes, and remainders below the strides. -/
def EuclidBounded (a b : Int) (e : EuclidState) : Prop :=
  (∃ sign s old_s t old_t, EuclidMagnitudes a b e sign s old_s t old_t) ∧
    e.r < 2 ^ 63 ∧ e.old_r < 2 ^ 63

theorem EuclidBounded.step (hstep : extendedEuclidStep e = some e') (h : EuclidBounded a b e) :
    EuclidBounded a b e' := by
  rcases h with ⟨⟨sign, s, old_s, t, old_t, h⟩, hr, hor⟩
  rcases extendedEuclidStep_cases hstep with ⟨hne, hr', hor', -⟩
  refine ⟨⟨_, _, _, _, _, h.step hstep⟩, ?_, ?_⟩
  · have hpos : 0 < e.r := lt_of_le_of_ne h.r_nonneg (Ne.symm hne)
    rw [hr']
    exact lt_trans (Int.tmod_lt_of_pos _ hpos) hr
  · rw [hor']
    exact hr

/-- Every value of a round fits. -/
theorem EuclidBounded.inRange (h : EuclidBounded a b e) (ha : a < 2 ^ 63) (hb : b < 2 ^ 63) :
    e.InRange := by
  rcases h with ⟨⟨sign, s, old_s, t, old_t, h⟩, hr, hor⟩
  have hnegated : -sign = 1 ∨ -sign = -1 := by
    rcases h.sign_cases with rfl | rfl
    · exact Or.inr rfl
    · exact Or.inl rfl
  have hr_nonneg := h.r_nonneg
  have hor_pos := h.old_r_pos
  have hs : Signed64 e.s := by
    rw [h.s_eq]
    exact signed64_of_magnitude hnegated h.s_nonneg h.s_le hb
  have hos : Signed64 e.old_s := by
    rw [h.old_s_eq]
    exact signed64_of_magnitude h.sign_cases h.old_s_nonneg h.old_s_le hb
  have ht : Signed64 e.t := by
    rw [h.t_eq]
    exact signed64_of_magnitude h.sign_cases h.t_nonneg h.t_le ha
  have hot : Signed64 e.old_t := by
    rw [h.old_t_eq]
    exact signed64_of_magnitude hnegated h.old_t_nonneg h.old_t_le ha
  refine ⟨?_, fun hne => ?_⟩
  · simp only [List.forall_mem_cons, List.not_mem_nil, false_imp_iff, implies_true, and_true]
    exact ⟨hs, hos, ht, hot, ⟨by omega, hr⟩, ⟨by omega, hor⟩⟩
  · obtain ⟨e', hstep⟩ : ∃ e', extendedEuclidStep e = some e' := by
      rw [extendedEuclidStep, if_pos hne]
      exact ⟨_, rfl⟩
    have hnext := h.step hstep
    have hquot := h.quot_nonneg
    have hpos : 0 < e.r := lt_of_le_of_ne hr_nonneg (Ne.symm hne)
    have hdivision : e.quot * e.r + e.old_r.tmod e.r = e.old_r := by
      rw [EuclidState.quot, Int.mul_comm]
      exact Int.mul_tdiv_add_tmod e.old_r e.r
    have hrest := Int.tmod_nonneg e.r (Int.le_of_lt hor_pos)
    have hproduct : 0 ≤ e.quot * e.r := mul_nonneg hquot hr_nonneg
    have hquot_le : e.quot ≤ e.quot * e.r := le_mul_of_one_le_right hquot hpos
    -- the products with the coefficients are below the magnitudes of the next round
    have hqs : Signed64 (e.quot * e.s) := by
      have hmagnitude : e.quot * e.s = -sign * (e.quot * s) := by
        rw [h.s_eq]
        ring
      have hle : e.quot * s ≤ b :=
        le_trans (le_add_of_nonneg_left h.old_s_nonneg) hnext.s_le
      rw [hmagnitude]
      exact signed64_of_magnitude hnegated (mul_nonneg hquot h.s_nonneg) hle hb
    have hqt : Signed64 (e.quot * e.t) := by
      have hmagnitude : e.quot * e.t = sign * (e.quot * t) := by
        rw [h.t_eq]
        ring
      have hle : e.quot * t ≤ a :=
        le_trans (le_add_of_nonneg_left h.old_t_nonneg) hnext.t_le
      rw [hmagnitude]
      exact signed64_of_magnitude h.sign_cases (mul_nonneg hquot h.t_nonneg) hle ha
    have hnews : Signed64 (e.old_s - e.quot * e.s) := by
      have hmagnitude : e.old_s - e.quot * e.s = sign * (old_s + e.quot * s) := by
        rw [h.old_s_eq, h.s_eq]
        ring
      rw [hmagnitude]
      exact signed64_of_magnitude h.sign_cases hnext.s_nonneg hnext.s_le hb
    have hnewt : Signed64 (e.old_t - e.quot * e.t) := by
      have hmagnitude : e.old_t - e.quot * e.t = -sign * (old_t + e.quot * t) := by
        rw [h.old_t_eq, h.t_eq]
        ring
      rw [hmagnitude]
      exact signed64_of_magnitude hnegated hnext.t_nonneg hnext.t_le ha
    simp only [EuclidState.computed, List.forall_mem_cons, List.not_mem_nil, false_imp_iff,
      implies_true, and_true]
    refine ⟨⟨by omega, by omega⟩, ⟨by omega, by omega⟩, ⟨by omega, by omega⟩, hqt, hnewt, hqs,
      hnews⟩

/-! ## The loop -/

theorem toNat_eq_natAbs_toInt {x : BitVec 64} (h : 0 < x.toInt) : x.toNat = x.toInt.natAbs := by
  have hcases := BitVec.toInt_eq_toNat_cond x
  have hlt := x.isLt
  split at hcases <;> omega

section Words

variable {a b : BitVec 64}

theorem euclidBounded_start (ha : 0 < a.toInt) (hb : 0 < b.toInt) :
    EuclidBounded a.toInt b.toInt (euclidWordsStart a b).toState :=
  ⟨⟨1, 0, 1, 1, 0, euclidMagnitudes_start ha hb⟩, BitVec.toInt_lt, BitVec.toInt_lt⟩

/-- The words stand for the variables of the loop over the integers. -/
theorem toState_iterate (ha : 0 < a.toInt) (hb : 0 < b.toInt) (rounds : Nat) :
    (Lib.iterate extendedEuclidStepWords rounds (euclidWordsStart a b)).toState
      = Lib.iterate extendedEuclidStep rounds (euclidWordsStart a b).toState := by
  refine Lib.map_iterate EuclidWords.toState (EuclidBounded a.toInt b.toInt) ?_ ?_ rounds _
    (euclidBounded_start ha hb)
  · exact fun e e' hstep he => he.step hstep
  · exact fun w hw => toState_extendedEuclidStepWords (hw.inRange BitVec.toInt_lt BitVec.toInt_lt)

/-- No value of a round leaves the signed range. -/
theorem inRange_iterate (ha : 0 < a.toInt) (hb : 0 < b.toInt) (rounds : Nat) :
    (Lib.iterate extendedEuclidStepWords rounds (euclidWordsStart a b)).toState.InRange := by
  rw [toState_iterate ha hb]
  have hbounded := Lib.iterate_induction (EuclidBounded a.toInt b.toInt)
    (fun e e' hstep he => he.step hstep) rounds _ (euclidBounded_start ha hb)
  exact hbounded.inRange BitVec.toInt_lt BitVec.toInt_lt

theorem extended_euclid_words_toInt (ha : 0 < a.toInt) (hb : 0 < b.toInt) :
    ((extended_euclid_words a b).1.toInt, (extended_euclid_words a b).2.toInt)
      = extended_euclid a.toInt b.toInt := by
  have hlast := toState_iterate ha hb b.toNat
  rw [extended_euclid, ← toNat_eq_natAbs_toInt hb]
  exact congrArg (fun e : EuclidState => (e.old_s, e.old_t)) hlast

theorem extended_euclid_words_coefficient (ha : 0 < a.toInt) (hb : 0 < b.toInt) :
    (extended_euclid_words a b).2.toInt = (extended_euclid a.toInt b.toInt).2 :=
  congrArg Prod.snd (extended_euclid_words_toInt ha hb)

/-- The loop on words ends, no value of a round leaves the signed range, and the result is a Bézout
identity for the gcd that `euclid_gcd` computes. -/
theorem extended_euclid_words_exact (ha : 0 < a.toInt) (hb : 0 < b.toInt) :
    (∀ rounds, (Lib.iterate extendedEuclidStepWords rounds
        (euclidWordsStart a b)).toState.InRange) ∧
      extendedEuclidStepWords (Lib.iterate extendedEuclidStepWords b.toNat
        (euclidWordsStart a b)) = none ∧
      a.toInt * (extended_euclid_words a b).1.toInt
        + b.toInt * (extended_euclid_words a b).2.toInt = (euclid_gcd a b).toNat ∧
      (euclid_gcd a b).toNat = Nat.gcd a.toNat b.toNat := by
  refine ⟨inRange_iterate ha hb, ?_, ?_, euclid_gcd_toNat a b⟩
  · -- the loop over the integers has ended, so the one on words has too
    have hrounds : b.toNat = (euclidWordsStart a b).toState.r.natAbs := toNat_eq_natAbs_toInt hb
    have hfinal := extendedEuclidStep_final (euclidWordsStart a b).toState
    rw [← hrounds, ← toState_iterate ha hb,
      ← toState_extendedEuclidStepWords (inRange_iterate ha hb b.toNat)] at hfinal
    exact Option.map_eq_none_iff.1 hfinal
  · have hbezout := extended_euclid_spec (Int.le_of_lt ha) (Int.le_of_lt hb)
    rw [← extended_euclid_words_toInt ha hb] at hbezout
    rw [hbezout, euclid_gcd_toNat, Int.gcd, ← toNat_eq_natAbs_toInt ha,
      ← toNat_eq_natAbs_toInt hb]

theorem extended_euclid_words_exact_large :
    (∀ rounds, (Lib.iterate extendedEuclidStepWords rounds
        (euclidWordsStart 9223372036854775807 6)).toState.InRange) ∧
      extendedEuclidStepWords (Lib.iterate extendedEuclidStepWords (6 : BitVec 64).toNat
        (euclidWordsStart 9223372036854775807 6)) = none ∧
      (9223372036854775807 : BitVec 64).toInt
          * (extended_euclid_words 9223372036854775807 6).1.toInt
        + (6 : BitVec 64).toInt * (extended_euclid_words 9223372036854775807 6).2.toInt
          = (euclid_gcd 9223372036854775807 6).toNat ∧
      (euclid_gcd 9223372036854775807 6).toNat
        = Nat.gcd (9223372036854775807 : BitVec 64).toNat (6 : BitVec 64).toNat :=
  extended_euclid_words_exact (by decide) (by decide)

end Words

end CamAlias
