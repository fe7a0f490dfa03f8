import CamAlias.Dependence.IsAlias
import Mathlib.Data.Multiset.Bind
import Mathlib.Data.Multiset.Range

/-!
# BruteForce — all clashing pairs of two access patterns

`getFirstDynamicInstanceFromAddress` of `static_inst_rec.cpp` finds the instance of an address, and
`doBruteForceAliasAnalysis` of `dependence_analysis.cpp` lists the pairs of instances that share a
byte.  When one of the patterns is constant the pairs are not tested one by one: the first candidate
and the number of candidates come from divisions.

- `dynamicInstanceFromAddress_iff`: the lookup divides unsigned numbers, so it inverts
  `getAccessLower` for positive strides and for the first two instances only;
- `doBruteForceAliasAnalysis_eq_iff`: when the list is the list of all clashing pairs.
-/

namespace CamAlias

/-! ## From an address to its instance -/

namespace MemSetEntry

/-- `MemSetEntry::getFirstDynamicInstanceFromAddress`.  Of `(addr - base)/stride` the first operand
is a `uintptr_t`, so the stride is converted and the division is unsigned. -/
def getFirstDynamicInstanceFromAddress (e : MemSetEntry) (addr : BitVec 64) : BitVec 64 :=
  if e.stride = 0 then e.start
  else e.start + (addr - e.base) / e.stride

/-- `MemSetEntry::getLastDynamicInstanceFromAddress`. -/
def getLastDynamicInstanceFromAddress (e : MemSetEntry) (addr : BitVec 64) : BitVec 64 :=
  if e.stride = 0 then e.end
  else e.start + (addr - e.base) / e.stride

/-- The first bytes of all accesses are in the address space. -/
def InAddressSpace (e : MemSetEntry) : Prop :=
  ∀ i < e.instances, 0 ≤ e.lower i ∧ e.lower i < 2 ^ 64

theorem NoWrap.inAddressSpace {e : MemSetEntry} (h : e.NoWrap) : e.InAddressSpace := by
  intro i hi
  have hlo := h.lower_nonneg i hi
  have hup := h.upper_lt i hi
  have hlen := h.length_pos
  exact ⟨hlo, by omega⟩

variable {e : MemSetEntry} {i : Nat}

theorem InAddressSpace.getAccessLower_toNat (h : e.InAddressSpace) (hi : i < e.instances) :
    ((e.getAccessLower i).toNat : Int) = e.lower i := by
  rw [getAccessLower, add_ofNat_mul_toNat]
  exact Int.emod_eq_of_lt (h i hi).1 (h i hi).2

/-- The distance that the lookup divides. -/
theorem InAddressSpace.sub_base_toNat (h : e.InAddressSpace) (hi : i < e.instances) :
    ((e.getAccessLower i - e.base).toNat : Int) = i * e.stride.toInt % 2 ^ 64 := by
  have haddr := h.getAccessLower_toNat hi
  have hbase := e.base.isLt
  rw [lower] at haddr
  rw [BitVec.toNat_sub]
  omega

/-- A positive stride is the same number with and without a sign. -/
theorem stride_toNat_of_pos (hpos : 0 < e.stride.toInt) :
    (e.stride.toNat : Int) = e.stride.toInt := by
  rw [BitVec.toInt_eq_toNat_cond] at hpos ⊢
  split at hpos
  · rw [if_pos ‹_›]
  · omega

/-- A negative stride converted to a `uintptr_t`. -/
theorem stride_toNat_of_neg (hneg : e.stride.toInt < 0) :
    (e.stride.toNat : Int) = e.stride.toInt + 2 ^ 64 := by
  rw [BitVec.toInt_eq_toNat_cond] at hneg ⊢
  split at hneg
  · omega
  · rw [if_neg ‹_›]
    norm_num

/-- The quotient for an ascending pattern. -/
theorem InAddressSpace.quotient_of_pos (h : e.InAddressSpace) (hi : i < e.instances)
    (hpos : 0 < e.stride.toInt) : ((e.getAccessLower i - e.base) / e.stride).toNat = i := by
  have hsub := h.sub_base_toNat hi
  have hstride := stride_toNat_of_pos hpos
  have hspace := h i hi
  have hbase := e.base.isLt
  rw [lower] at hspace
  have hnonneg : 0 ≤ (i : Int) * e.stride.toInt := Int.mul_nonneg (Int.natCast_nonneg i) hpos.le
  rw [Int.emod_eq_of_lt hnonneg (by omega), ← hstride] at hsub
  have hdistance : (e.getAccessLower i - e.base).toNat = i * e.stride.toNat := by exact_mod_cast hsub
  rw [BitVec.toNat_udiv, hdistance]
  exact Nat.mul_div_cancel i (by omega)

/-- The quotient for a descending pattern: dividend and divisor are taken modulo `2 ^ 64`. -/
theorem InAddressSpace.quotient_of_neg (h : e.InAddressSpace) (hi : i < e.instances)
    (hneg : e.stride.toInt < 0) :
    ((e.getAccessLower i - e.base) / e.stride).toNat = if i = 1 then 1 else 0 := by
  have hsub := h.sub_base_toNat hi
  have hstride := stride_toNat_of_neg hneg
  have hspace := h i hi
  have hbase := e.base.isLt
  have hlt := e.stride.isLt
  rw [lower] at hspace
  rw [BitVec.toNat_udiv]
  rcases Nat.lt_or_ge i 2 with hsmall | htwo
  · rcases Nat.le_one_iff_eq_zero_or_eq_one.1 (Nat.le_of_lt_succ hsmall) with rfl | rfl
    · rw [Nat.cast_zero, Int.zero_mul, Int.zero_emod] at hsub
      rw [Int.natCast_eq_zero.1 hsub, Nat.zero_div, if_neg Nat.zero_ne_one]
    · rw [Nat.cast_one, Int.one_mul] at hsub hspace
      have hone : (e.getAccessLower 1 - e.base).toNat = e.stride.toNat := by omega
      rw [hone, if_pos rfl]
      exact Nat.div_self (by omega)
  · -- two strides or more below the base the dividend is smaller than the divisor
    rcases Nat.exists_eq_add_of_le' htwo with ⟨j, rfl⟩
    have hproduct : ((j + 2 : Nat) : Int) * e.stride.toInt
        = j * e.stride.toInt + 2 * e.stride.toInt := by
      push_cast
      ring
    have hnonpos : (j : Int) * e.stride.toInt ≤ 0 :=
      Int.mul_nonpos_of_nonneg_of_nonpos (Int.natCast_nonneg j) hneg.le
    rw [hproduct] at hsub hspace
    rw [if_neg (by omega)]
    exact Nat.div_eq_of_lt (by omega)

theorem toInt_stride_ne_zero (hstride : e.stride ≠ 0) : e.stride.toInt ≠ 0 := by
  intro h0
  exact hstride (BitVec.eq_of_toInt_eq (by simpa using h0))

/-- The lookup inverts `getAccessLower` at ascending patterns, and at the first two instances of
descending ones. -/
theorem dynamicInstanceFromAddress_iff (hstride : e.stride ≠ 0) (h : e.InAddressSpace)
    (hi : i < e.instances) :
    (e.getFirstDynamicInstanceFromAddress (e.getAccessLower i)
        = e.getLastDynamicInstanceFromAddress (e.getAccessLower i) ∧
      e.getLastDynamicInstanceFromAddress (e.getAccessLower i) = e.start + BitVec.ofNat 64 i) ↔
      0 < e.stride.toInt ∨ i ≤ 1 := by
  have hne := toInt_stride_ne_zero hstride
  have hsmall : i < 2 ^ 64 := Nat.lt_of_lt_of_le hi e.instances_le
  rw [getFirstDynamicInstanceFromAddress, getLastDynamicInstanceFromAddress, if_neg hstride,
    if_neg hstride, eq_self, true_and, BitVec.add_right_inj, BitVec.toNat_eq, BitVec.toNat_ofNat,
    Nat.mod_eq_of_lt hsmall]
  rcases Int.lt_or_gt_of_ne hne with hneg | hpos
  · rw [h.quotient_of_neg hi hneg]
    split <;> omega
  · rw [h.quotient_of_pos hi hpos]
    omega

/-- Accesses at 96, 92 and 88: the last one, instance 7, is looked up as instance 5. -/
theorem dynamicInstanceFromAddress_descending :
    let e : MemSetEntry := { base := 96, stride := -4, length := 4, start := 5, «end» := 7 }
    e.stride ≠ 0 ∧ e.NoWrap ∧ 2 < e.instances ∧ e.start + 2 = 7 ∧
      e.getFirstDynamicInstanceFromAddress (e.getAccessLower 2) = 5 ∧
      e.getLastDynamicInstanceFromAddress (e.getAccessLower 2) = 5 := by
  refine ⟨?_, ⟨?_, ?_, ?_, ?_⟩, ?_, ?_, ?_, ?_⟩
  all_goals decide

/-- The last access of an ascending pattern. -/
theorem dynamicInstanceFromAddress_iff_ascending :
    let e : MemSetEntry := { base := 16, stride := 4, length := 4, start := 5, «end» := 7 }
    (e.getFirstDynamicInstanceFromAddress (e.getAccessLower 2)
        = e.getLastDynamicInstanceFromAddress (e.getAccessLower 2) ∧
      e.getLastDynamicInstanceFromAddress (e.getAccessLower 2) = e.start + 2) ↔
      0 < e.stride.toInt ∨ 2 ≤ 1 := by
  intro e
  have hwrap : e.NoWrap := ⟨by decide, by decide, by decide, by decide⟩
  exact dynamicInstanceFromAddress_iff (by decide) hwrap.inAddressSpace (by decide)

end MemSetEntry

/-! ## The list of pairs -/

/-- `tuple<uintptr_t, uint64_t, uintptr_t, uint64_t>`. -/
structure ClashingPair where
  addressA : BitVec 64
  instanceA : BitVec 64
  addressB : BitVec 64
  instanceB : BitVec 64
  deriving DecidableEq, Repr

/-- The accumulators `address` and `instance` of the outer loop, in each of its rounds. -/
def candidates (stride step : BitVec 64) :
    Nat → BitVec 64 → BitVec 64 → List (BitVec 64 × BitVec 64)
  | 0, _, _ => []
  | n + 1, address, inst =>
      (address, inst) :: candidates stride step n (address + stride) (inst + step)

/-- The inner loop: every access of the constant pattern with one access of the other one. -/
def constantRow (constant : MemSetEntry) (order : Nat) (x : BitVec 64 × BitVec 64) :
    List ClashingPair :=
  (List.range constant.getNumInstances.toNat).map fun j =>
    if order = 0 then
      { addressA := constant.base, instanceA := BitVec.ofNat 64 j, addressB := x.1,
        instanceB := x.2 }
    else
      { addressA := x.1, instanceA := x.2, addressB := constant.base,
        instanceB := BitVec.ofNat 64 j }

/-- `doBruteForceAliasAnalysis_Constant_Variable`, its `variable` being `varying` here; `none` where
`abs` is called on the smallest `intptr_t`. -/
def doBruteForceAliasAnalysis_Constant_Variable (constant varying : MemSetEntry) (order : Nat) :
    Option (List ClashingPair) :=
  if varying.stride = BitVec.intMin 64 then none
  else
    let lowerExtent := constant.base
    let upperExtent := constant.getUpperExtent
    let normalised := varying.getNormalised
    let offset :=
      if lowerExtent > normalised.getLowerExtent then
        -- down to the last address of the pattern that is not above the constant one
        -1 * ((lowerExtent - normalised.getLowerExtent) % normalised.stride)
      else normalised.getLowerExtent - lowerExtent
    let lowestPossiblyClashingAddress := lowerExtent + offset
    let searchWidth :=
      minimum upperExtent normalised.getUpperExtent - lowestPossiblyClashingAddress
    let numberOfPossibleClashes := searchWidth / normalised.stride + 1
    -- one address is passed over, even if that one still ends below the constant access
    let (lowestPossiblyClashingAddress, numberOfPossibleClashes) :=
      if lowestPossiblyClashingAddress + normalised.length - 1 < lowerExtent then
        (lowestPossiblyClashingAddress + normalised.stride, numberOfPossibleClashes - 1)
      else (lowestPossiblyClashingAddress, numberOfPossibleClashes)
    let dynInstOfFirstClash :=
      varying.getFirstDynamicInstanceFromAddress lowestPossiblyClashingAddress - varying.start
    some ((candidates normalised.stride (if varying.nonnegStride then 1 else -1)
      numberOfPossibleClashes.toNat lowestPossiblyClashingAddress dynInstOfFirstClash).flatMap
        (constantRow constant order))

/-- The pair of access `i` of one pattern and access `j` of the other one. -/
def ClashingPair.of (a b : MemSetEntry) (i j : Nat) : ClashingPair where
  addressA := a.getAccessLower i
  instanceA := BitVec.ofNat 64 i
  addressB := b.getAccessLower j
  instanceB := BitVec.ofNat 64 j

/-- `doBruteForceAliasAnalysis`. -/
def doBruteForceAliasAnalysis (a b : MemSetEntry) : Option (List ClashingPair) :=
  if a.stride = 0 ∧ b.stride ≠ 0 then doBruteForceAliasAnalysis_Constant_Variable a b 0
  else if a.stride ≠ 0 ∧ b.stride = 0 then doBruteForceAliasAnalysis_Constant_Variable b a 1
  else if a.stride = 0 ∧ b.stride = 0 then
    some ((List.range a.getNumInstances.toNat).flatMap fun i =>
      (List.range b.getNumInstances.toNat).map fun j => ClashingPair.of a b i j)
  else
    some ((List.range b.getNumInstances.toNat).flatMap fun j =>
      (List.range a.getNumInstances.toNat).flatMap fun i =>
        if a.getAccessLower i ≤ b.getAccessUpper j ∧ b.getAccessLower j ≤ a.getAccessUpper i then
          [ClashingPair.of a b i j]
        else [])

/-! ## What the list should be -/

/-- Access `i` of one pattern and access `j` of the other one have a byte in common. -/
def Clash (a b : MemSetEntry) (i j : Nat) : Prop :=
  a.lower i < b.lower j + b.length.toNat ∧ b.lower j < a.lower i + a.length.toNat

instance (a b : MemSetEntry) (i j : Nat) : Decidable (Clash a b i j) :=
  inferInstanceAs (Decidable (_ ∧ _))

/-- All pairs of instances that have a byte in common. -/
def clashingPairs (a b : MemSetEntry) : Multiset ClashingPair :=
  (Multiset.range a.instances).bind fun i =>
    (Multiset.range b.instances).bind fun j =>
      if Clash a b i j then {ClashingPair.of a b i j} else 0

/-- What `doBruteForceAliasAnalysis_Constant_Variable` needs of a pattern that is not constant.

`reach`: no access comes up to the constant address when the next one is at or below it.
`beyond`: where strides are shorter than accesses, the address one stride behind the last access is
above the constant access.
`descending`: with a negative stride only the first two instances clash. -/
structure ShortcutExact (constant varying : MemSetEntry) : Prop where
  stride_ne : varying.stride ≠ BitVec.intMin 64
  reach : ∀ i < varying.instances,
    varying.lower i + varying.stride.toInt.natAbs ≤ constant.base.toNat →
      varying.lower i + varying.length.toNat ≤ constant.base.toNat
  beyond : varying.stride.toInt.natAbs < varying.length.toNat →
    ∃ i < varying.instances,
      (constant.base.toNat + constant.length.toNat : Int)
        ≤ varying.lower i + varying.stride.toInt.natAbs
  descending : varying.stride.toInt < 0 →
    ∀ i < varying.instances, Clash varying constant i 0 → i ≤ 1

/-! ## The pattern with a positive stride -/

theorem candidates_eq (stride step : BitVec 64) : ∀ (n : Nat) (address inst : BitVec 64),
    candidates stride step n address inst = (List.range n).map fun k =>
      (address + BitVec.ofNat 64 k * stride, inst + BitVec.ofNat 64 k * step)
  | 0, _, _ => rfl
  | n + 1, address, inst => by
      have hshift : ∀ x y : BitVec 64, ∀ k : Nat,
          x + y + BitVec.ofNat 64 k * y = x + BitVec.ofNat 64 (k + 1) * y := by
        intro x y k
        rw [BitVec.ofNat_add, BitVec.add_mul, BitVec.add_assoc, BitVec.add_comm y]
        simp
      rw [candidates, candidates_eq stride step n, List.range_succ_eq_map, List.map_cons,
        List.map_map]
      simp [Function.comp_def, hshift]

namespace MemSetEntry

/-- The instance whose access is the `t`-th from below. -/
def fromBelow (e : MemSetEntry) (t : Nat) : Nat :=
  if e.nonnegStride then t else e.instances - 1 - t

/-- The width of the stride. -/
def step (e : MemSetEntry) : Nat :=
  e.stride.toInt.natAbs

variable {e : MemSetEntry}

theorem fromBelow_lt {t : Nat} (ht : t < e.instances) :
    e.fromBelow t < e.instances := by
  rw [fromBelow]
  split <;> omega

theorem fromBelow_fromBelow {t : Nat} (ht : t < e.instances) :
    e.fromBelow (e.fromBelow t) = t := by
  rw [fromBelow, fromBelow]
  split <;> omega

theorem nonnegStride_iff : e.nonnegStride = true ↔ 0 ≤ e.stride.toInt := by
  rw [nonnegStride, decide_eq_true_eq]

/-- What `getNormalised` gives. -/
structure Normalised (e normalised : MemSetEntry) : Prop where
  nonneg : normalised.nonnegStride = true
  step_pos : 0 < e.step
  stride : normalised.stride.toNat = e.step
  length : normalised.length = e.length
  numInstances : normalised.instances = e.instances
  lower : ∀ t, normalised.lower t = normalised.base.toNat + t * e.step
  fromBelow : ∀ t < e.instances, normalised.lower t = e.lower (e.fromBelow t)
  noWrap : normalised.NoWrap

theorem NoWrap.normalised (h : e.NoWrap) (hne : e.stride ≠ 0)
    (hmin : e.stride ≠ BitVec.intMin 64) : e.Normalised e.getNormalised := by
  have hstride := toInt_stride_ne_zero hne
  have hsucc : e.instances = (e.end - e.start).toNat + 1 := rfl
  by_cases hsign : e.nonnegStride = true
  · have hpos : 0 < e.stride.toInt := by
      have := nonnegStride_iff.1 hsign
      omega
    have hself : e.getNormalised = e := if_pos hsign
    have hstep : (e.step : Int) = e.stride.toInt := by
      rw [step]
      omega
    rw [hself]
    refine ⟨hsign, by omega, ?_, rfl, rfl, ?_, ?_, h⟩
    · have := stride_toNat_of_pos hpos
      omega
    · intro t
      rw [MemSetEntry.lower, hstep]
    · intro t _
      rw [MemSetEntry.fromBelow, if_pos hsign]
  · have hneg : e.stride.toInt < 0 := by
      rw [nonnegStride_iff] at hsign
      omega
    have hself : e.getNormalised = { e with base := e.getLast, stride := -e.stride } :=
      if_neg hsign
    have hnegated : (-e.stride).toInt = -e.stride.toInt := BitVec.toInt_neg_of_ne_intMin hmin
    have hstep : (e.step : Int) = -e.stride.toInt := by
      rw [step]
      omega
    -- the lowest access is the last one
    have hlast : ((e.getLast).toNat : Int) = e.lower (e.end - e.start).toNat := by
      have heq : e.getLast = e.getAccessLower (e.end - e.start).toNat := by
        rw [getLast, getAccessLower, BitVec.ofNat_toNat, BitVec.setWidth_eq]
      rw [heq]
      exact h.getAccessLower_toNat (by omega)
    have hlower : ∀ t, (e.getNormalised).lower t = (e.getNormalised).base.toNat + t * e.step := by
      intro t
      rw [hself, MemSetEntry.lower, hnegated, hstep]
    have hbelow : ∀ t < e.instances,
        (e.getNormalised).lower t = e.lower (e.fromBelow t) := by
      intro t ht
      have hsub : ((e.end - e.start).toNat : Int) - t
          = (((e.end - e.start).toNat - t : Nat) : Int) := by omega
      have hindex : e.fromBelow t = (e.end - e.start).toNat - t := by
        rw [MemSetEntry.fromBelow, if_neg hsign, hsucc]
        omega
      rw [hlower, hindex, hself]
      show ((e.getLast).toNat : Int) + t * e.step = _
      rw [hlast, hstep, MemSetEntry.lower, MemSetEntry.lower, ← hsub]
      ring
    refine ⟨?_, by omega, ?_, ?_, ?_, hlower, hbelow, ?_⟩
    · rw [nonnegStride_iff, hself]
      show 0 ≤ (-e.stride).toInt
      omega
    · have := stride_toNat_of_pos (e := e.getNormalised) (by
        rw [hself]
        show 0 < (-e.stride).toInt
        omega)
      rw [hself] at this ⊢
      have hint : (-e.stride).toInt = e.step := by omega
      have hnat : ((-e.stride).toNat : Int) = e.step := this.trans hint
      exact_mod_cast hnat
    · rw [hself]
    · rw [hself]
      rfl
    · have hnum : (e.getNormalised).instances = e.instances := by rw [hself, instances, instances]
      have hlen : (e.getNormalised).length = e.length := by rw [hself]
      refine ⟨hlen ▸ h.length_pos, ?_, ?_, ?_⟩
      · rw [hnum]
        exact h.instances_lt
      · intro t ht
        rw [hnum] at ht
        rw [hbelow t ht]
        exact h.lower_nonneg _ (fromBelow_lt ht)
      · intro t ht
        rw [hnum] at ht
        rw [hbelow t ht, hlen]
        exact h.upper_lt _ (fromBelow_lt ht)

end MemSetEntry

/-! ## The shortcut in numbers -/

/-- The candidates are the accesses of numbers `q`, …, `q + m - 1` from below of a pattern
continued for ever.  `base`, `step`, `length` and `n` describe the pattern, `c` is the constant
address, `up` and `top` are the upper extents. -/
structure CandidateRange (c up base step length n top q m : Nat) : Prop where
  from_iff : ∀ t < n, q ≤ t ↔ c < base + t * step + step ∧ c < base + t * step + length
  from_le : c < base + n * step → q ≤ n
  count_iff : ∀ k, k < m ↔ base + (q + k) * step ≤ up ∧ base + (q + k) * step ≤ top

/-- The first candidate before the test whether it comes up to the constant address. -/
def firstCandidate (c base step : Nat) : Nat :=
  if base < c then (c - base) / step else 0

section Numbers

variable {c up base step length n top : Nat}

theorem firstCandidate_le (c base step : Nat) :
    base + firstCandidate c base step * step ≤ max c base := by
  rw [firstCandidate]
  split
  · have := Nat.div_mul_le_self (c - base) step
    omega
  · omega

theorem lt_firstCandidate (hstep : 0 < step) :
    c < base + firstCandidate c base step * step + step := by
  rw [firstCandidate]
  split
  · have := Nat.lt_div_mul_add (a := c - base) hstep
    omega
  · omega

theorem firstCandidate_le_iff (hstep : 0 < step) {t : Nat} :
    firstCandidate c base step ≤ t ↔ c < base + t * step + step := by
  have hlt : c < base + firstCandidate c base step * step + step := lt_firstCandidate hstep
  constructor
  · intro h
    have := Nat.mul_le_mul_right step h
    omega
  · intro h
    by_contra hnot
    have hmul := Nat.mul_le_mul_right step (show t + 1 ≤ firstCandidate c base step by omega)
    rw [Nat.succ_mul] at hmul
    have hle := firstCandidate_le c base step
    have hbase : base < c := by
      by_contra hge
      rw [firstCandidate, if_neg hge] at hnot
      omega
    omega

/-- With and without the test, whose sum may wrap around behind the last access. -/
theorem candidateRange (hstep : 0 < step) (hlength : 0 < length)
    (htop : top = base + (n - 1) * step + length - 1) (hspace : top < 2 ^ 64) (hn : 0 < n)
    (hup : max c base ≤ up) (hlow : max c base ≤ top) :
    let q := firstCandidate c base step
    let width := min up top - (base + q * step)
    (¬ (base + q * step + length - 1) % 2 ^ 64 < c →
      CandidateRange c up base step length n top q (width / step + 1)) ∧
    ((base + q * step + length - 1) % 2 ^ 64 < c →
      CandidateRange c up base step length n top (q + 1) (width / step)) := by
  intro q width
  have hle : base + q * step ≤ max c base := firstCandidate_le c base step
  have hlt : c < base + q * step + step := lt_firstCandidate hstep
  have hiff : ∀ t, q ≤ t ↔ c < base + t * step + step := fun t => firstCandidate_le_iff hstep
  have hmul : ∀ t u, t ≤ u → base + t * step ≤ base + u * step := fun t u h =>
    Nat.add_le_add_left (Nat.mul_le_mul_right step h) base
  -- no access of the pattern itself wraps around
  have hmod : ∀ t < n, (base + t * step + length - 1) % 2 ^ 64 = base + t * step + length - 1 := by
    intro t ht
    have := hmul t (n - 1) (by omega)
    exact Nat.mod_eq_of_lt (by omega)
  have hlast : base + n * step = base + (n - 1) * step + step := by
    conv_lhs => rw [← Nat.succ_pred_eq_of_pos hn, Nat.succ_mul]
    exact (Nat.add_assoc _ _ _).symm
  have hn1 : q ≤ n - 1 ↔ c < base + n * step := by rw [hiff, hlast]
  have hcount : ∀ k, k * step ≤ width ↔
      base + (q + k) * step ≤ up ∧ base + (q + k) * step ≤ top := by
    intro k
    rw [Nat.add_mul]
    show k * step ≤ min up top - (base + q * step) ↔ _
    omega
  constructor
  · intro htest
    refine ⟨?_, ?_, ?_⟩
    · intro t ht
      rw [← hiff]
      refine ⟨fun h => ⟨h, ?_⟩, fun h => h.1⟩
      rw [hmod q (by omega)] at htest
      have := hmul q t h
      omega
    · intro h
      have := hn1.2 h
      omega
    · intro k
      rw [← hcount, ← Nat.le_div_iff_mul_le hstep, Nat.lt_succ_iff]
  · intro htest
    refine ⟨?_, ?_, ?_⟩
    · intro t ht
      rw [← hiff]
      constructor
      · intro h
        have hnext := hmul (q + 1) t h
        rw [Nat.succ_mul] at hnext
        exact ⟨by omega, by omega⟩
      · rintro ⟨h, hreach⟩
        by_contra hnot
        have heq : t = q := by omega
        rw [heq] at ht hreach
        rw [hmod q ht] at htest
        omega
    · intro h
      have := hn1.2 h
      omega
    · intro k
      rw [Nat.add_assoc, ← hcount, ← Nat.le_div_iff_mul_le hstep, Nat.add_comm 1 k,
        Nat.succ_le_iff]

/-- The number of candidates does not wrap around. -/
theorem numberOfCandidates_lt (base top : Nat) {constantLength : Nat} (hstep : 0 < step)
    (hconstant : constantLength < 2 ^ 64) (hup : up < 2 ^ 64) (hlen : up + 1 = c + constantLength) :
    (min up top - (base + firstCandidate c base step * step)) / step + 1 < 2 ^ 64 := by
  have hlt : c < base + firstCandidate c base step * step + step := lt_firstCandidate hstep
  rcases Nat.eq_or_lt_of_le hstep with hone | htwo
  · rw [← hone, Nat.div_one]
    rw [← hone] at hlt
    omega
  · have hhalf : (min up top - (base + firstCandidate c base step * step)) / step
        ≤ (min up top - (base + firstCandidate c base step * step)) / 2 :=
      Nat.div_le_div_left htwo Nat.two_pos
    omega

end Numbers

/-! ## The shortcut -/

namespace MemSetEntry

variable {e : MemSetEntry}

/-- The highest byte of an ascending pattern. -/
theorem NoWrap.getUpperExtent_toNat (h : e.NoWrap) (hsign : e.nonnegStride = true) :
    (e.getUpperExtent.toNat : Int) = e.lower (e.instances - 1) + e.length.toNat - 1 := by
  have hupper : e.getUpperExtent = e.getAccessUpper (e.instances - 1) := by
    rw [getUpperExtent, if_pos hsign, getAccessUpper, BitVec.mul_comm, instances,
      Nat.add_sub_cancel, BitVec.ofNat_toNat, BitVec.setWidth_eq]
  rw [hupper]
  exact h.getAccessUpper_toNat (by have := e.instances_pos; omega)

theorem Normalised.getLowerExtent_eq (h : e.Normalised e.getNormalised) :
    e.getLowerExtent = e.getNormalised.base ∧
      e.getNormalised.getLowerExtent = e.getNormalised.base := by
  refine ⟨?_, if_pos h.nonneg⟩
  by_cases hsign : e.nonnegStride = true
  · rw [getLowerExtent, if_pos hsign, getNormalised, if_pos hsign]
  · rw [getLowerExtent, if_neg hsign, getNormalised, if_neg hsign, BitVec.mul_comm]
    rfl

theorem Normalised.getUpperExtent_eq (h : e.Normalised e.getNormalised) :
    e.getUpperExtent = e.getNormalised.getUpperExtent := by
  by_cases hsign : e.nonnegStride = true
  · rw [getNormalised, if_pos hsign]
  · have hself : e.getNormalised = { e with base := e.getLast, stride := -e.stride } :=
      if_neg hsign
    -- the highest access is the first one
    have hfirst : e.getLast + -e.stride * (e.end - e.start) = e.base := by
      rw [getLast, BitVec.neg_mul, BitVec.mul_comm e.stride, ← BitVec.sub_eq_add_neg,
        BitVec.add_sub_cancel]
    rw [getUpperExtent, if_neg hsign, getUpperExtent, if_pos h.nonneg, hself]
    show e.base + e.length - 1
      = e.getLast + -e.stride * (e.end - e.start) + e.length - 1
    rw [hfirst]

/-- A constant pattern. -/
theorem NoWrap.constant_toNat (h : e.NoWrap) (hstride : e.stride = 0) :
    e.getLowerExtent = e.base ∧
      e.getUpperExtent.toNat + 1 = e.base.toNat + e.length.toNat := by
  have hsign : e.nonnegStride = true := by
    rw [nonnegStride_iff, hstride]
    decide
  have hlower : ∀ i, e.lower i = e.base.toNat := by
    intro i
    rw [lower, hstride]
    simp
  have hupper := h.getUpperExtent_toNat hsign
  have hlen := h.length_pos
  rw [hlower] at hupper
  exact ⟨if_pos hsign, by omega⟩

end MemSetEntry

/-- The first candidate address. -/
theorem lowest_toNat (c base step : BitVec 64) :
    (c + (if c > base then -1 * ((c - base) % step) else base - c)).toNat
      = base.toNat + firstCandidate c.toNat base.toNat step.toNat * step.toNat := by
  have hc := c.isLt
  have hb := base.isLt
  have hneg : ∀ x : BitVec 64, -1 * x = -x := fun x => (BitVec.neg_eq_neg_one_mul x).symm
  rw [firstCandidate]
  by_cases hlt : base.toNat < c.toNat
  · have hgt : c > base := BitVec.lt_def.2 hlt
    have hsub : (c - base).toNat = c.toNat - base.toNat := by
      rw [BitVec.toNat_sub]
      omega
    have hdiv := Nat.div_add_mod (c.toNat - base.toNat) step.toNat
    have hle := Nat.mod_le (c.toNat - base.toNat) step.toNat
    rw [Nat.mul_comm] at hdiv
    rw [if_pos hgt, if_pos hlt, hneg, BitVec.toNat_add, BitVec.toNat_neg, BitVec.toNat_umod, hsub]
    omega
  · have hge : ¬ c > base := fun h => hlt (BitVec.lt_def.1 h)
    rw [if_neg hge, if_neg hlt, BitVec.toNat_add, BitVec.toNat_sub]
    omega

/-- The address of the `t`-th access from below, without reduction to 64 bits. -/
def lowAddress (varying : MemSetEntry) (t : Nat) : Nat :=
  varying.getNormalised.base.toNat + t * varying.step

theorem MemSetEntry.Normalised.upperExtent_toNat {e : MemSetEntry} (h : e.NoWrap)
    (hN : e.Normalised e.getNormalised) :
    e.getUpperExtent.toNat = lowAddress e (e.instances - 1) + e.length.toNat - 1 := by
  have htop := hN.noWrap.getUpperExtent_toNat hN.nonneg
  rw [hN.numInstances, hN.length, hN.lower, ← hN.getUpperExtent_eq] at htop
  have hpos := h.length_pos
  have hcast : (lowAddress e (e.instances - 1) : Int)
      = e.getNormalised.base.toNat + ((e.instances - 1 : Nat) : Int) * e.step := by
    rw [lowAddress]
    push_cast
    rfl
  omega

/-- Address and number of a candidate. -/
def candidateKey (varying : MemSetEntry) (q k : Nat) : BitVec 64 × BitVec 64 :=
  let address := BitVec.ofNat 64 (varying.getNormalised.base.toNat + (q + k) * varying.step)
  let first := BitVec.ofNat 64 (varying.getNormalised.base.toNat + q * varying.step)
  (address, (first - varying.base) / varying.stride
    + BitVec.ofNat 64 k * (if varying.nonnegStride then 1 else -1))

section Shortcut

variable {constant varying : MemSetEntry} {q m : Nat}

/-- The candidates in closed form. -/
theorem candidates_eq_candidateKey (hvs : varying.stride ≠ 0)
    (hN : varying.Normalised varying.getNormalised) {address : BitVec 64} {q : Nat} (m : Nat)
    (haddress : address.toNat
      = (varying.getNormalised.base.toNat + q * varying.step) % 2 ^ 64) :
    candidates varying.getNormalised.stride (if varying.nonnegStride then 1 else -1) m address
        (varying.getFirstDynamicInstanceFromAddress address - varying.start)
      = (List.range m).map (candidateKey varying q) := by
  have hfirst : address = BitVec.ofNat 64
      (varying.getNormalised.base.toNat + q * varying.step) := by
    apply BitVec.eq_of_toNat_eq
    rw [haddress, BitVec.toNat_ofNat]
  have hstride : varying.getNormalised.stride = BitVec.ofNat 64 varying.step := by
    rw [← hN.stride, BitVec.ofNat_toNat, BitVec.setWidth_eq]
  rw [candidates_eq]
  apply List.map_congr_left
  intro k _
  have hnext : address + BitVec.ofNat 64 k * varying.getNormalised.stride
      = BitVec.ofNat 64 (varying.getNormalised.base.toNat + (q + k) * varying.step) := by
    rw [hfirst, hstride, ← BitVec.ofNat_mul, ← BitVec.ofNat_add, Nat.add_mul, Nat.add_assoc]
  rw [hnext, MemSetEntry.getFirstDynamicInstanceFromAddress, if_neg hvs,
    BitVec.add_comm varying.start, BitVec.add_sub_cancel, hfirst]
  rfl

theorem shortcut_eq (order : Nat) (hc : constant.NoWrap) (hcs : constant.stride = 0)
    (hv : varying.NoWrap) (hvs : varying.stride ≠ 0)
    (hmin : varying.stride ≠ BitVec.intMin 64)
    (hlo : constant.getLowerExtent ≤ varying.getUpperExtent)
    (hhi : varying.getLowerExtent ≤ constant.getUpperExtent) :
    ∃ q m, CandidateRange constant.base.toNat constant.getUpperExtent.toNat
        varying.getNormalised.base.toNat varying.step varying.length.toNat
        varying.instances varying.getUpperExtent.toNat q m ∧
      doBruteForceAliasAnalysis_Constant_Variable constant varying order
        = some (((List.range m).map (candidateKey varying q)).flatMap
            (constantRow constant order)) := by
  have hN := hv.normalised hvs hmin
  have hlow := lowest_toNat constant.base varying.getNormalised.base varying.getNormalised.stride
  rw [hN.stride] at hlow
  rcases hc.constant_toNat hcs with ⟨hclow, hcup⟩
  have htopNat := hN.upperExtent_toNat hv
  have hspace := varying.getUpperExtent.isLt
  have hn : 0 < varying.instances := varying.instances_pos
  rw [hclow, BitVec.le_def] at hlo
  rw [hN.getLowerExtent_eq.1, BitVec.le_def] at hhi
  have hclen := hc.length_pos
  have hbase : varying.getNormalised.base.toNat ≤ varying.getUpperExtent.toNat := by
    have hpos := hv.length_pos
    have hle : varying.getNormalised.base.toNat
        ≤ lowAddress varying (varying.instances - 1) := Nat.le_add_right _ _
    omega
  have hup : max constant.base.toNat varying.getNormalised.base.toNat
      ≤ constant.getUpperExtent.toNat := by omega
  have hle := firstCandidate_le constant.base.toNat varying.getNormalised.base.toNat varying.step
  have hrange := candidateRange hN.step_pos hv.length_pos htopNat hspace hn hup (by omega)
  have hnumber := numberOfCandidates_lt varying.getNormalised.base.toNat
    varying.getUpperExtent.toNat hN.step_pos constant.length.isLt
    constant.getUpperExtent.isLt hcup
  simp only [doBruteForceAliasAnalysis_Constant_Variable, if_neg hmin, hN.getLowerExtent_eq.2]
  generalize hlowest : constant.base + (if constant.base > varying.getNormalised.base then _ else _)
    = lowest at hlow ⊢
  generalize firstCandidate constant.base.toNat varying.getNormalised.base.toNat varying.step = q
    at hlow hrange hnumber hle
  -- the number of candidates is counted in words, but no product or sum in it wraps around
  have hwidth : (minimum constant.getUpperExtent varying.getNormalised.getUpperExtent - lowest).toNat
      = min constant.getUpperExtent.toNat varying.getUpperExtent.toNat
        - (varying.getNormalised.base.toNat + q * varying.step) := by
    rw [BitVec.toNat_sub, minimum_toNat, ← hN.getUpperExtent_eq, hlow]
    omega
  have hcount : ((minimum constant.getUpperExtent varying.getNormalised.getUpperExtent - lowest)
        / varying.getNormalised.stride + 1).toNat
      = (min constant.getUpperExtent.toNat varying.getUpperExtent.toNat
        - (varying.getNormalised.base.toNat + q * varying.step)) / varying.step + 1 := by
    rw [BitVec.toNat_add, BitVec.toNat_udiv, hwidth, hN.stride]
    exact Nat.mod_eq_of_lt hnumber
  have hone : (1 : BitVec 64).toNat = 1 := rfl
  have htest : lowest + varying.getNormalised.length - 1 < constant.base ↔
      (varying.getNormalised.base.toNat + q * varying.step + varying.length.toNat - 1) % 2 ^ 64
        < constant.base.toNat := by
    have hlt := lowest.isLt
    have hpos := hv.length_pos
    rw [BitVec.lt_def, BitVec.toNat_sub, BitVec.toNat_add, hN.length, hone, hlow]
    rw [hlow] at hlt
    have hmod : (2 ^ 64 - 1 + (varying.getNormalised.base.toNat + q * varying.step
        + varying.length.toNat) % 2 ^ 64) % 2 ^ 64
        = (varying.getNormalised.base.toNat + q * varying.step + varying.length.toNat - 1)
          % 2 ^ 64 := by omega
    rw [hmod]
  -- the first candidate is dropped where it ends below the constant access
  by_cases hskip : lowest + varying.getNormalised.length - 1 < constant.base
  · refine ⟨q + 1, _, hrange.2 (htest.1 hskip), ?_⟩
    have haddress : (lowest + varying.getNormalised.stride).toNat
        = (varying.getNormalised.base.toNat + (q + 1) * varying.step) % 2 ^ 64 := by
      rw [BitVec.toNat_add, hlow, hN.stride, Nat.succ_mul, Nat.add_assoc]
    have hrest : ((minimum constant.getUpperExtent varying.getNormalised.getUpperExtent - lowest)
          / varying.getNormalised.stride + 1 - 1).toNat
        = (min constant.getUpperExtent.toNat varying.getUpperExtent.toNat
          - (varying.getNormalised.base.toNat + q * varying.step)) / varying.step := by
      have hpred : ∀ x : Nat, x + 1 < 2 ^ 64 → (2 ^ 64 - 1 + (x + 1)) % 2 ^ 64 = x := by omega
      rw [BitVec.toNat_sub, hcount, hone]
      exact hpred _ hnumber
    rw [← candidates_eq_candidateKey hvs hN _ haddress, ← hrest, if_pos hskip]
  · refine ⟨q, _, hrange.1 (mt htest.2 hskip), ?_⟩
    have haddress : lowest.toNat
        = (varying.getNormalised.base.toNat + q * varying.step) % 2 ^ 64 := by
      rw [← hlow]
      exact (Nat.mod_eq_of_lt lowest.isLt).symm
    rw [← candidates_eq_candidateKey hvs hN _ haddress, ← hcount, if_neg hskip]

/-- Address and number of an instance. -/
def instanceKey (varying : MemSetEntry) (i : Nat) : BitVec 64 × BitVec 64 :=
  (varying.getAccessLower i, BitVec.ofNat 64 i)

/-- The instances that clash with a constant pattern. -/
def overlappingKeys (constant varying : MemSetEntry) : Multiset (BitVec 64 × BitVec 64) :=
  ((Multiset.range varying.instances).filter fun i => Clash varying constant i 0).map
    (instanceKey varying)

theorem lowAddress_fromBelow (hN : varying.Normalised varying.getNormalised) {i : Nat}
    (hi : i < varying.instances) :
    varying.lower i = lowAddress varying (varying.fromBelow i) := by
  have h := hN.fromBelow _ (MemSetEntry.fromBelow_lt hi)
  rw [MemSetEntry.fromBelow_fromBelow hi, hN.lower] at h
  rw [← h, lowAddress]
  push_cast
  rfl

theorem lowAddress_inj (hN : varying.Normalised varying.getNormalised) {t u : Nat}
    (h : lowAddress varying t = lowAddress varying u) : t = u :=
  Nat.eq_of_mul_eq_mul_right hN.step_pos (Nat.add_left_cancel h)

theorem lowAddress_mono (varying : MemSetEntry) {t u : Nat} (h : t ≤ u) :
    lowAddress varying t ≤ lowAddress varying u :=
  Nat.add_le_add_left (Nat.mul_le_mul_right _ h) _

theorem lowAddress_succ (t : Nat) :
    lowAddress varying (t + 1) = lowAddress varying t + varying.step := by
  rw [lowAddress, Nat.succ_mul, lowAddress, Nat.add_assoc]

/-- The address of a clashing instance and the constant access. -/
theorem clash_iff (hc : constant.NoWrap) (hcs : constant.stride = 0)
    (hN : varying.Normalised varying.getNormalised) {i : Nat} (hi : i < varying.instances)
    (j : Nat) :
    Clash varying constant i j ↔
      lowAddress varying (varying.fromBelow i) ≤ constant.getUpperExtent.toNat ∧
        constant.base.toNat
          < lowAddress varying (varying.fromBelow i) + varying.length.toNat := by
  have hup := (hc.constant_toNat hcs).2
  have hlower : constant.lower j = constant.base.toNat := by
    rw [MemSetEntry.lower, hcs]
    simp
  rw [Clash, hlower, lowAddress_fromBelow hN hi]
  omega

/-- A candidate is the instance at its address if the first one is. -/
theorem candidateKey_eq_instanceKey (hv : varying.NoWrap) (hvs : varying.stride ≠ 0)
    (hN : varying.Normalised varying.getNormalised) {q k : Nat}
    (hk : q + k < varying.instances)
    (hfirst : 0 < varying.stride.toInt ∨ varying.fromBelow q ≤ 1) :
    candidateKey varying q k = instanceKey varying (varying.fromBelow (q + k)) := by
  have haddress : ∀ t < varying.instances,
      BitVec.ofNat 64 (lowAddress varying t)
        = varying.getAccessLower (varying.fromBelow t) := by
    intro t ht
    have hlower := hv.getAccessLower_toNat (MemSetEntry.fromBelow_lt ht)
    rw [lowAddress_fromBelow hN (MemSetEntry.fromBelow_lt ht),
      MemSetEntry.fromBelow_fromBelow ht] at hlower
    have hnat : (varying.getAccessLower (varying.fromBelow t)).toNat = lowAddress varying t := by
      exact_mod_cast hlower
    rw [← hnat, BitVec.ofNat_toNat, BitVec.setWidth_eq]
  have hq : q < varying.instances := by omega
  -- the unsigned quotient is the instance number, for a negative stride only up to 1
  have hquotient : ((varying.getAccessLower (varying.fromBelow q) - varying.base)
      / varying.stride).toNat = varying.fromBelow q := by
    have hspace := hv.inAddressSpace
    have hbelow := MemSetEntry.fromBelow_lt hq
    rcases Int.lt_or_gt_of_ne (MemSetEntry.toInt_stride_ne_zero hvs) with hneg | hpos
    · rw [hspace.quotient_of_neg hbelow hneg]
      have hle := hfirst.resolve_left (by omega)
      split <;> omega
    · exact hspace.quotient_of_pos hbelow hpos
  refine Prod.ext (haddress _ hk) ?_
  show (BitVec.ofNat 64 (lowAddress varying q) - varying.base) / varying.stride + _
    = BitVec.ofNat 64 (varying.fromBelow (q + k))
  have hone : BitVec.ofNat 64 k * 1 = BitVec.ofNat 64 k := BitVec.mul_one _
  have hword : (BitVec.ofNat 64 (varying.fromBelow q)).toNat = varying.fromBelow q := by
    have hbelow := MemSetEntry.fromBelow_lt hq
    have hbound := hv.instances_lt
    rw [BitVec.toNat_ofNat, Nat.mod_eq_of_lt (by omega)]
  rw [haddress q hq, BitVec.eq_of_toNat_eq (hquotient.trans hword.symm), MemSetEntry.fromBelow,
    MemSetEntry.fromBelow]
  -- from below, the instances of a negative stride are counted down
  by_cases hsign : varying.nonnegStride = true
  · rw [if_pos hsign, if_pos hsign, if_pos hsign, hone, ← BitVec.ofNat_add]
  · rw [if_neg hsign, if_neg hsign, if_neg hsign]
    have hsum : varying.instances - 1 - q
        = varying.instances - 1 - (q + k) + k := by omega
    rw [hsum, BitVec.ofNat_add, BitVec.mul_neg, hone, ← BitVec.sub_eq_add_neg,
      BitVec.add_sub_cancel]

/-- The candidates are the accesses that clash. -/
theorem candidates_iff_clash (hlength : 0 < varying.length.toNat)
    (hrange : CandidateRange constant.base.toNat constant.getUpperExtent.toNat
      varying.getNormalised.base.toNat varying.step varying.length.toNat varying.instances
      varying.getUpperExtent.toNat q m)
    (htop : varying.getUpperExtent.toNat
      = lowAddress varying (varying.instances - 1) + varying.length.toNat - 1)
    (hup : constant.getUpperExtent.toNat + 1 = constant.base.toNat + constant.length.toNat)
    (hreach : ∀ t < varying.instances,
      lowAddress varying t + varying.step ≤ constant.base.toNat →
        lowAddress varying t + varying.length.toNat ≤ constant.base.toNat)
    (hbeyond : varying.step < varying.length.toNat →
      constant.base.toNat + constant.length.toNat
        ≤ lowAddress varying (varying.instances - 1) + varying.step) (t : Nat) :
    (∃ k < m, t = q + k) ↔ t < varying.instances ∧
      lowAddress varying t ≤ constant.getUpperExtent.toNat ∧
      constant.base.toNat < lowAddress varying t + varying.length.toNat := by
  have hfrom : ∀ t < varying.instances, q ≤ t ↔
      constant.base.toNat < lowAddress varying t + varying.step ∧
        constant.base.toNat < lowAddress varying t + varying.length.toNat := hrange.from_iff
  have hcount : ∀ k, k < m ↔ lowAddress varying (q + k) ≤ constant.getUpperExtent.toNat ∧
      lowAddress varying (q + k) ≤ varying.getUpperExtent.toNat := hrange.count_iff
  have hn : varying.instances - 1 + 1 = varying.instances := rfl
  constructor
  · rintro ⟨k, hk, rfl⟩
    rcases (hcount k).1 hk with ⟨hleUp, hleTop⟩
    -- a candidate beyond the last access would start behind the end of the constant one
    have hlt : q + k < varying.instances := by
      by_contra hge
      have hnext := lowAddress_mono varying
        (show varying.instances - 1 + 1 ≤ q + k by omega)
      rw [lowAddress_succ] at hnext
      by_cases hshort : varying.step < varying.length.toNat
      · have := hbeyond hshort
        omega
      · omega
    exact ⟨hlt, hleUp, ((hfrom _ hlt).1 (by omega)).2⟩
  · rintro ⟨hlt, hleUp, hclash⟩
    -- an access that clashes is not below the first candidate
    have hstep : constant.base.toNat < lowAddress varying t + varying.step := by
      by_contra hnot
      have := hreach t hlt (by omega)
      omega
    have hq := (hfrom t hlt).2 ⟨hstep, hclash⟩
    have hle := lowAddress_mono varying
      (show t ≤ varying.instances - 1 by omega)
    have hsum : q + (t - q) = t := by omega
    refine ⟨t - q, (hcount _).2 ?_, hsum.symm⟩
    rw [hsum]
    exact ⟨hleUp, by omega⟩

/-- The indices of the clashing instances, in the order of the candidates. -/
theorem filter_clash_eq (hc : constant.NoWrap) (hcs : constant.stride = 0)
    (hN : varying.Normalised varying.getNormalised)
    (h : ∀ t, (∃ k < m, t = q + k) ↔ t < varying.instances ∧
      lowAddress varying t ≤ constant.getUpperExtent.toNat ∧
      constant.base.toNat < lowAddress varying t + varying.length.toNat) :
    (Multiset.range varying.instances).filter (fun i => Clash varying constant i 0)
      = (Multiset.range m).map fun k => varying.fromBelow (q + k) := by
  have hlt : ∀ k < m, q + k < varying.instances := fun k hk => ((h _).1 ⟨k, hk, rfl⟩).1
  have hnodup : ((Multiset.range m).map fun k => varying.fromBelow (q + k)).Nodup := by
    refine Multiset.Nodup.map_on ?_ (Multiset.nodup_range m)
    intro k hk l hl heq
    have hback := congrArg varying.fromBelow heq
    rw [MemSetEntry.fromBelow_fromBelow (hlt k (Multiset.mem_range.1 hk)),
      MemSetEntry.fromBelow_fromBelow (hlt l (Multiset.mem_range.1 hl))] at hback
    omega
  refine (Multiset.Nodup.ext ((Multiset.nodup_range _).filter _) hnodup).2 ?_
  intro i
  rw [Multiset.mem_filter, Multiset.mem_range, Multiset.mem_map]
  constructor
  · rintro ⟨hi, hclash⟩
    rcases (h (varying.fromBelow i)).2
      ⟨MemSetEntry.fromBelow_lt hi, (clash_iff hc hcs hN hi 0).1 hclash⟩ with ⟨k, hk, hsum⟩
    exact ⟨k, Multiset.mem_range.2 hk, by rw [← hsum, MemSetEntry.fromBelow_fromBelow hi]⟩
  · rintro ⟨k, hk, rfl⟩
    rcases (h (q + k)).1 ⟨k, Multiset.mem_range.1 hk, rfl⟩ with ⟨hi, hclash⟩
    refine ⟨MemSetEntry.fromBelow_lt hi, (clash_iff hc hcs hN (MemSetEntry.fromBelow_lt hi) 0).2 ?_⟩
    rwa [MemSetEntry.fromBelow_fromBelow hi]

/-- The conditions of `ShortcutExact` on the addresses from below. -/
theorem ShortcutExact.reach_lowAddress (h : ShortcutExact constant varying)
    (hN : varying.Normalised varying.getNormalised) :
    ∀ t < varying.instances, lowAddress varying t + varying.step ≤ constant.base.toNat →
      lowAddress varying t + varying.length.toNat ≤ constant.base.toNat := by
  intro t ht hle
  have hbelow := MemSetEntry.fromBelow_lt ht
  have hreach := h.reach _ hbelow
  rw [lowAddress_fromBelow hN hbelow, MemSetEntry.fromBelow_fromBelow ht] at hreach
  have hstep : varying.step = varying.stride.toInt.natAbs := rfl
  have := hreach (by omega)
  omega

theorem ShortcutExact.beyond_lowAddress (h : ShortcutExact constant varying)
    (hN : varying.Normalised varying.getNormalised)
    (hshort : varying.step < varying.length.toNat) :
    constant.base.toNat + constant.length.toNat
      ≤ lowAddress varying (varying.instances - 1) + varying.step := by
  rcases h.beyond hshort with ⟨i, hi, hle⟩
  rw [lowAddress_fromBelow hN hi] at hle
  have hbelow := MemSetEntry.fromBelow_lt hi
  have hmono := lowAddress_mono varying
    (show varying.fromBelow i ≤ varying.instances - 1 by omega)
  have hstep : varying.step = varying.stride.toInt.natAbs := rfl
  omega

/-- Under its condition the shortcut lists the clashing instances. -/
theorem candidateKeys_eq (hc : constant.NoWrap) (hcs : constant.stride = 0) (hv : varying.NoWrap)
    (hvs : varying.stride ≠ 0) (hN : varying.Normalised varying.getNormalised)
    (h : ShortcutExact constant varying)
    (hclash : ∀ t, (∃ k < m, t = q + k) ↔ t < varying.instances ∧
      lowAddress varying t ≤ constant.getUpperExtent.toNat ∧
      constant.base.toNat < lowAddress varying t + varying.length.toNat) :
    (Multiset.range m).map (candidateKey varying q) = overlappingKeys constant varying := by
  rw [overlappingKeys, filter_clash_eq hc hcs hN hclash, Multiset.map_map]
  refine Multiset.map_congr rfl ?_
  intro k hk
  have hkm := Multiset.mem_range.1 hk
  have hlt := ((hclash (q + k)).1 ⟨k, hkm, rfl⟩).1
  rcases (hclash q).1 ⟨0, by omega, rfl⟩ with ⟨hq, hfirst⟩
  refine candidateKey_eq_instanceKey hv hvs hN hlt ?_
  rcases Int.lt_or_gt_of_ne (MemSetEntry.toInt_stride_ne_zero hvs) with hneg | hpos
  · have hbelow := MemSetEntry.fromBelow_lt hq
    refine Or.inr (h.descending hneg _ hbelow ((clash_iff hc hcs hN hbelow 0).2 ?_))
    rwa [MemSetEntry.fromBelow_fromBelow hq]
  · exact Or.inl hpos

/-- Only then. -/
theorem shortcutExact_of_mem (hc : constant.NoWrap) (hcs : constant.stride = 0)
    (hv : varying.NoWrap) (hmin : varying.stride ≠ BitVec.intMin 64)
    (hN : varying.Normalised varying.getNormalised)
    (hrange : CandidateRange constant.base.toNat constant.getUpperExtent.toNat
      varying.getNormalised.base.toNat varying.step varying.length.toNat varying.instances
      varying.getUpperExtent.toNat q m)
    (htop : varying.getUpperExtent.toNat
      = lowAddress varying (varying.instances - 1) + varying.length.toNat - 1)
    (hlo : constant.base.toNat ≤ varying.getUpperExtent.toNat)
    (h : ∀ x, x ∈ (Multiset.range m).map (candidateKey varying q) ↔
      x ∈ overlappingKeys constant varying) : ShortcutExact constant varying := by
  have hcount : ∀ k, k < m ↔ lowAddress varying (q + k) ≤ constant.getUpperExtent.toNat ∧
      lowAddress varying (q + k) ≤ varying.getUpperExtent.toNat := hrange.count_iff
  have hup := (hc.constant_toNat hcs).2
  have hclen := hc.length_pos
  have hstep : varying.step = varying.stride.toInt.natAbs := rfl
  -- equal keys have equal addresses
  have hsame : ∀ i < varying.instances, ∀ k < m,
      candidateKey varying q k = instanceKey varying i → varying.fromBelow i = q + k := by
    intro i hi k hk heq
    have haddress := congrArg (fun x => x.1.toNat) heq
    have hleft : (candidateKey varying q k).1.toNat = lowAddress varying (q + k) := by
      have hspace := varying.getUpperExtent.isLt
      have hle := ((hcount k).1 hk).2
      have hlt : lowAddress varying (q + k) < 2 ^ 64 := by omega
      exact Nat.mod_eq_of_lt hlt
    have hright := hv.getAccessLower_toNat hi
    rw [lowAddress_fromBelow hN hi] at hright
    refine lowAddress_inj hN ?_
    have hnat : (varying.getAccessLower i).toNat = lowAddress varying (varying.fromBelow i) := by
      exact_mod_cast hright
    rw [← hnat, ← hleft]
    exact haddress.symm
  have hlisted : ∀ i < varying.instances, Clash varying constant i 0 →
      ∃ k < m, candidateKey varying q k = instanceKey varying i := by
    intro i hi hclash
    have hmem : instanceKey varying i ∈ overlappingKeys constant varying :=
      Multiset.mem_map_of_mem _ (Multiset.mem_filter.2 ⟨Multiset.mem_range.2 hi, hclash⟩)
    rcases Multiset.mem_map.1 ((h _).2 hmem) with ⟨k, hk, heq⟩
    exact ⟨k, Multiset.mem_range.1 hk, heq⟩
  have hfound : ∀ k < m, ∃ i < varying.instances, Clash varying constant i 0 ∧
      candidateKey varying q k = instanceKey varying i := by
    intro k hk
    have hmem : candidateKey varying q k ∈ (Multiset.range m).map (candidateKey varying q) :=
      Multiset.mem_map_of_mem _ (Multiset.mem_range.2 hk)
    rcases Multiset.mem_map.1 ((h _).1 hmem) with ⟨i, hi, heq⟩
    rw [Multiset.mem_filter, Multiset.mem_range] at hi
    exact ⟨i, hi.1, hi.2, heq.symm⟩
  have hreach : ∀ i < varying.instances,
      varying.lower i + varying.step ≤ constant.base.toNat →
        varying.lower i + varying.length.toNat ≤ constant.base.toNat := by
    intro i hi hle
    by_contra hnot
    rw [lowAddress_fromBelow hN hi] at hle hnot
    have hclash : Clash varying constant i 0 :=
      (clash_iff hc hcs hN hi 0).2 ⟨by omega, by omega⟩
    rcases hlisted i hi hclash with ⟨k, hk, heq⟩
    have hq := hsame i hi k hk heq
    have hfrom := (hrange.from_iff _ (MemSetEntry.fromBelow_lt hi)).1 (by omega)
    have := hfrom.1
    rw [← lowAddress] at this
    omega
  refine ⟨hmin, hreach, ?_, ?_⟩
  · intro hshort
    have hlast : varying.instances - 1 < varying.instances := Nat.lt_succ_self _
    have hsucc : lowAddress varying varying.instances
        = lowAddress varying (varying.instances - 1) + varying.step := lowAddress_succ _
    have hlower := lowAddress_fromBelow hN (MemSetEntry.fromBelow_lt hlast)
    rw [MemSetEntry.fromBelow_fromBelow hlast] at hlower
    refine ⟨varying.fromBelow (varying.instances - 1), MemSetEntry.fromBelow_lt hlast, ?_⟩
    rw [hlower]
    by_contra hnot
    -- the address behind the last access is a candidate
    have hbehind : constant.base.toNat < lowAddress varying varying.instances := by
      by_contra hle
      have := hreach _ (MemSetEntry.fromBelow_lt hlast) (by omega)
      have hlen := hv.length_pos
      omega
    have hq := hrange.from_le hbehind
    have hsum : q + (varying.instances - q) = varying.instances := by omega
    have hk : varying.instances - q < m := by
      rw [hcount, hsum]
      omega
    rcases hfound _ hk with ⟨i, hi, _, heq⟩
    have hindex := hsame i hi _ hk heq
    have := MemSetEntry.fromBelow_lt hi
    omega
  · intro hneg i hi hclash
    have hsign : ¬ varying.nonnegStride = true := by
      rw [MemSetEntry.nonnegStride_iff]
      omega
    rcases hlisted i hi hclash with ⟨k, hk, heq⟩
    have hindex := hsame i hi k hk heq
    rcases hfound 0 (by omega) with ⟨first, hfirst, _, heqFirst⟩
    have hindexFirst := hsame first hfirst 0 (by omega) heqFirst
    -- the first candidate has the highest number, and the lookup gives at most 1
    have hle : i ≤ first := by
      rw [MemSetEntry.fromBelow, if_neg hsign] at hindex hindexFirst
      omega
    have haddress : BitVec.ofNat 64 (varying.getNormalised.base.toNat + q * varying.step)
        = varying.getAccessLower first := congrArg Prod.fst heqFirst
    have hnumber :
        (BitVec.ofNat 64 (varying.getNormalised.base.toNat + q * varying.step) - varying.base)
            / varying.stride
        + BitVec.ofNat 64 0 * (if varying.nonnegStride then 1 else -1)
        = BitVec.ofNat 64 first := congrArg Prod.snd heqFirst
    rw [haddress, BitVec.zero_mul, BitVec.add_zero] at hnumber
    have hsmall : first < 2 ^ 64 := Nat.lt_trans hfirst hv.instances_lt
    have hnat := congrArg BitVec.toNat hnumber
    rw [hv.inAddressSpace.quotient_of_neg hfirst hneg, BitVec.toNat_ofNat,
      Nat.mod_eq_of_lt hsmall] at hnat
    split at hnat <;> omega

/-- The list of the shortcut, as a multiset. -/
def listing (constant : MemSetEntry) (order : Nat) (keys : Multiset (BitVec 64 × BitVec 64)) :
    Multiset ClashingPair :=
  keys.bind fun x => (constantRow constant order x : Multiset ClashingPair)

theorem listing_inj {constant : MemSetEntry} (hc : constant.NoWrap) {order : Nat}
    {keys keys' : Multiset (BitVec 64 × BitVec 64)}
    (h : listing constant order keys = listing constant order keys') (x : BitVec 64 × BitVec 64) :
    x ∈ keys ↔ x ∈ keys' := by
  -- a row begins with the first instance of the constant pattern
  have hmem : ∀ keys : Multiset (BitVec 64 × BitVec 64), x ∈ keys ↔
      (if order = 0 then ⟨constant.base, BitVec.ofNat 64 0, x.1, x.2⟩
        else ⟨x.1, x.2, constant.base, BitVec.ofNat 64 0⟩ : ClashingPair)
        ∈ listing constant order keys := by
    intro keys
    rw [listing, Multiset.mem_bind]
    constructor
    · intro hx
      refine ⟨x, hx, Multiset.mem_coe.2 (List.mem_map.2 ⟨0, ?_, rfl⟩)⟩
      rw [List.mem_range, MemSetEntry.toNat_getNumInstances hc.instances_lt]
      exact constant.instances_pos
    · rintro ⟨y, hy, hrow⟩
      rcases List.mem_map.1 (Multiset.mem_coe.1 hrow) with ⟨j, _, heq⟩
      have hxy : y = x := by
        split at heq
        · rw [ClashingPair.mk.injEq] at heq
          exact Prod.ext heq.2.2.1 heq.2.2.2
        · rw [ClashingPair.mk.injEq] at heq
          exact Prod.ext heq.1 heq.2.1
      rwa [← hxy]
  rw [hmem, hmem, h]

/-- All clashing pairs of a pattern with a constant one. -/
theorem clashingPairs_eq_listing (hc : constant.NoWrap) (hcs : constant.stride = 0)
    (hN : varying.Normalised varying.getNormalised) :
    clashingPairs varying constant = listing constant 1 (overlappingKeys constant varying) ∧
      clashingPairs constant varying = listing constant 0 (overlappingKeys constant varying) := by
  have haddress : ∀ j, constant.getAccessLower j = constant.base := by
    intro j
    rw [MemSetEntry.getAccessLower, hcs]
    simp
  have hsame : ∀ i < varying.instances, ∀ j,
      Clash varying constant i j ↔ Clash varying constant i 0 := by
    intro i hi j
    rw [clash_iff hc hcs hN hi, clash_iff hc hcs hN hi]
  -- the instances of the constant pattern that clash with one access: all of them or none
  have hrow : ∀ (order i : Nat) (p : Prop) (pair : Nat → ClashingPair)
      (clash : Nat → Prop) [DecidablePred clash] [Decidable p], (∀ j, clash j ↔ p) →
      (∀ j, (if order = 0 then
          { addressA := constant.base, instanceA := BitVec.ofNat 64 j,
            addressB := (instanceKey varying i).1, instanceB := (instanceKey varying i).2 }
        else
          { addressA := (instanceKey varying i).1, instanceA := (instanceKey varying i).2,
            addressB := constant.base, instanceB := BitVec.ofNat 64 j } : ClashingPair) = pair j) →
      ((Multiset.range constant.instances).bind fun j =>
          if clash j then ({pair j} : Multiset ClashingPair) else 0)
        = if p then (constantRow constant order (instanceKey varying i) : Multiset ClashingPair)
          else 0 := by
    intro order i p pair clash _ _ hclash hpair
    by_cases hp : p
    · rw [if_pos hp, constantRow, MemSetEntry.toNat_getNumInstances hc.instances_lt]
      simp only [hclash, hp, if_true, hpair, Multiset.bind_singleton]
      rfl
    · simp only [hclash, hp, if_false, Multiset.bind_zero]
  constructor
  · rw [clashingPairs, listing, overlappingKeys, Multiset.bind_map, Multiset.bind_filter]
    refine Multiset.bind_congr fun i hi => hrow 1 i _ _ _ (hsame i (Multiset.mem_range.1 hi)) ?_
    intro j
    rw [if_neg Nat.one_ne_zero, ClashingPair.of, haddress]
    rfl
  · rw [clashingPairs, Multiset.bind_bind, listing, overlappingKeys, Multiset.bind_map,
      Multiset.bind_filter]
    refine Multiset.bind_congr fun i hi => hrow 0 i _ _ _
      (fun j => And.comm.trans (hsame i (Multiset.mem_range.1 hi) j)) ?_
    intro j
    rw [if_pos rfl, ClashingPair.of, haddress]
    rfl

/-- The shortcut lists the clashing pairs under `ShortcutExact` and only then. -/
theorem shortcut_iff {order : Nat} {expected : Multiset ClashingPair}
    (hexpected : varying.Normalised varying.getNormalised →
      expected = listing constant order (overlappingKeys constant varying))
    (hc : constant.NoWrap) (hcs : constant.stride = 0) (hv : varying.NoWrap) (hvs : varying.stride ≠ 0)
    (hlo : constant.getLowerExtent ≤ varying.getUpperExtent)
    (hhi : varying.getLowerExtent ≤ constant.getUpperExtent) :
    (∃ pairs, doBruteForceAliasAnalysis_Constant_Variable constant varying order = some pairs ∧
      (pairs : Multiset ClashingPair) = expected) ↔ ShortcutExact constant varying := by
  by_cases hmin : varying.stride = BitVec.intMin 64
  · constructor
    · rintro ⟨pairs, heq, -⟩
      rw [doBruteForceAliasAnalysis_Constant_Variable, if_pos hmin] at heq
      cases heq
    · intro h
      exact absurd hmin h.stride_ne
  · have hN := hv.normalised hvs hmin
    have htop := hN.upperExtent_toNat hv
    rw [hexpected hN]
    rcases shortcut_eq order hc hcs hv hvs hmin hlo hhi with ⟨q, m, hrange, hlist⟩
    rw [(hc.constant_toNat hcs).1, BitVec.le_def] at hlo
    have hmultiset : ((((List.range m).map (candidateKey varying q)).flatMap
          (constantRow constant order) : List ClashingPair) : Multiset ClashingPair)
        = listing constant order ((Multiset.range m).map (candidateKey varying q)) := by
      rw [listing, ← Multiset.coe_bind]
      rfl
    constructor
    · rintro ⟨pairs, heq, hpairs⟩
      obtain rfl := Option.some.inj (hlist.symm.trans heq)
      rw [hmultiset] at hpairs
      exact shortcutExact_of_mem hc hcs hv hmin hN hrange htop hlo (listing_inj hc hpairs)
    · intro h
      refine ⟨_, hlist, ?_⟩
      have hclash := candidates_iff_clash hv.length_pos hrange htop (hc.constant_toNat hcs).2
        (h.reach_lowAddress hN) (h.beyond_lowAddress hN)
      rw [hmultiset, candidateKeys_eq hc hcs hv hvs hN h hclash]

end Shortcut

/-! ## The whole list -/

/-- The condition on both patterns; it concerns only a constant and a strided one. -/
def BruteForceExact (a b : MemSetEntry) : Prop :=
  (a.stride = 0 → b.stride ≠ 0 → ShortcutExact a b) ∧
    (b.stride = 0 → a.stride ≠ 0 → ShortcutExact b a)

section Whole

variable {a b : MemSetEntry}

/-- Two constant patterns clash at all instances. -/
theorem constantPairs_eq (ha : a.NoWrap) (hb : b.NoWrap) (has : a.stride = 0) (hbs : b.stride = 0)
    (hlo : a.getLowerExtent ≤ b.getUpperExtent) (hhi : b.getLowerExtent ≤ a.getUpperExtent) :
    (((List.range a.getNumInstances.toNat).flatMap fun i =>
        (List.range b.getNumInstances.toNat).map fun j => ClashingPair.of a b i j :
        List ClashingPair) : Multiset ClashingPair) = clashingPairs a b := by
  have hlower : ∀ e : MemSetEntry, e.stride = 0 → ∀ i, e.lower i = e.base.toNat := by
    intro e hstride i
    rw [MemSetEntry.lower, hstride]
    simp
  rcases ha.constant_toNat has with ⟨halow, haup⟩
  rcases hb.constant_toNat hbs with ⟨hblow, hbup⟩
  rw [halow, BitVec.le_def] at hlo
  rw [hblow, BitVec.le_def] at hhi
  have hclash : ∀ i j, Clash a b i j := by
    intro i j
    rw [Clash, hlower a has, hlower b hbs]
    omega
  rw [MemSetEntry.toNat_getNumInstances ha.instances_lt,
    MemSetEntry.toNat_getNumInstances hb.instances_lt, ← Multiset.coe_bind, clashingPairs]
  refine Multiset.bind_congr fun i _ => ?_
  simp only [hclash, if_true, Multiset.bind_singleton]
  rfl

/-- Testing every pair finds the pairs that clash. -/
theorem testedPairs_eq (ha : a.NoWrap) (hb : b.NoWrap) :
    (((List.range b.getNumInstances.toNat).flatMap fun j =>
        (List.range a.getNumInstances.toNat).flatMap fun i =>
          if a.getAccessLower i ≤ b.getAccessUpper j ∧ b.getAccessLower j ≤ a.getAccessUpper i then
            [ClashingPair.of a b i j]
          else [] : List ClashingPair) : Multiset ClashingPair) = clashingPairs a b := by
  rw [MemSetEntry.toNat_getNumInstances ha.instances_lt,
    MemSetEntry.toNat_getNumInstances hb.instances_lt, clashingPairs, Multiset.bind_bind,
    ← Multiset.coe_bind]
  refine Multiset.bind_congr fun j hj => ?_
  rw [← Multiset.coe_bind]
  refine Multiset.bind_congr fun i hi => ?_
  have htest := accessesOverlap_iff ha hb (Multiset.mem_range.1 hi) (Multiset.mem_range.1 hj)
  by_cases hclash : Clash a b i j
  · rw [if_pos hclash, if_pos (htest.2 hclash)]
    rfl
  · rw [if_neg hclash, if_neg (mt htest.1 hclash)]
    rfl

/-- For patterns with overlapping extents the list is the list of all clashing pairs exactly under
`BruteForceExact`. -/
theorem doBruteForceAliasAnalysis_eq_iff (ha : a.NoWrap) (hb : b.NoWrap)
    (hlo : a.getLowerExtent ≤ b.getUpperExtent) (hhi : b.getLowerExtent ≤ a.getUpperExtent) :
    (∃ pairs, doBruteForceAliasAnalysis a b = some pairs ∧
      (pairs : Multiset ClashingPair) = clashingPairs a b) ↔ BruteForceExact a b := by
  by_cases has : a.stride = 0 <;> by_cases hbs : b.stride = 0
  · have hlist : doBruteForceAliasAnalysis a b = some ((List.range a.getNumInstances.toNat).flatMap
        fun i => (List.range b.getNumInstances.toNat).map fun j => ClashingPair.of a b i j) := by
      simp [doBruteForceAliasAnalysis, has, hbs]
    have hexact : BruteForceExact a b := ⟨fun _ h => absurd hbs h, fun _ h => absurd has h⟩
    exact iff_of_true ⟨_, hlist, constantPairs_eq ha hb has hbs hlo hhi⟩ hexact
  · have hlist : doBruteForceAliasAnalysis a b
        = doBruteForceAliasAnalysis_Constant_Variable a b 0 := if_pos ⟨has, hbs⟩
    have hexact : BruteForceExact a b ↔ ShortcutExact a b :=
      ⟨fun h => h.1 has hbs, fun h => ⟨fun _ _ => h, fun h0 => absurd h0 hbs⟩⟩
    rw [hlist, hexact]
    exact shortcut_iff (fun hN => (clashingPairs_eq_listing ha has hN).2) ha has hb hbs hlo hhi
  · have hlist : doBruteForceAliasAnalysis a b
        = doBruteForceAliasAnalysis_Constant_Variable b a 1 := by
      rw [doBruteForceAliasAnalysis, if_neg fun h => has h.1, if_pos ⟨has, hbs⟩]
    have hexact : BruteForceExact a b ↔ ShortcutExact b a :=
      ⟨fun h => h.2 hbs has, fun h => ⟨fun h0 => absurd h0 has, fun _ _ => h⟩⟩
    rw [hlist, hexact]
    exact shortcut_iff (fun hN => (clashingPairs_eq_listing hb hbs hN).1) hb hbs ha has hhi hlo
  · have hlist : doBruteForceAliasAnalysis a b = some ((List.range b.getNumInstances.toNat).flatMap
        fun j => (List.range a.getNumInstances.toNat).flatMap fun i =>
          if a.getAccessLower i ≤ b.getAccessUpper j ∧ b.getAccessLower j ≤ a.getAccessUpper i then
            [ClashingPair.of a b i j]
          else []) := by
      rw [doBruteForceAliasAnalysis, if_neg fun h => has h.1, if_neg fun h => hbs h.2,
        if_neg fun h => has h.1]
    have hexact : BruteForceExact a b := ⟨fun h => absurd h has, fun h => absurd h hbs⟩
    exact iff_of_true ⟨_, hlist, testedPairs_eq ha hb⟩ hexact

end Whole

/-- Accesses of eight bytes at 16, 20 and 24 against the byte at 22: the shortcut starts with the
one at 20. -/
theorem doBruteForceAliasAnalysis_misses_pair :
    let a : MemSetEntry := { base := 22, stride := 0, length := 1, start := 0, «end» := 0 }
    let b : MemSetEntry := { base := 16, stride := 4, length := 8, start := 0, «end» := 2 }
    a.NoWrap ∧ b.NoWrap ∧ a.getLowerExtent ≤ b.getUpperExtent ∧
      b.getLowerExtent ≤ a.getUpperExtent ∧
      doBruteForceAliasAnalysis a b = some [⟨22, 0, 20, 1⟩] ∧
      clashingPairs a b = {⟨22, 0, 16, 0⟩, ⟨22, 0, 20, 1⟩} := by
  refine ⟨⟨?_, ?_, ?_, ?_⟩, ⟨?_, ?_, ?_, ?_⟩, ?_⟩
  all_goals decide

-- Reads at 32, 28, 24 and 20: instance 2 touches the bytes 24 to 27, the lookup gives instance 0.
example :
    let a : MemSetEntry := { base := 24, stride := 0, length := 4, start := 0, «end» := 0 }
    let b : MemSetEntry := { base := 32, stride := -4, length := 4, start := 0, «end» := 3 }
    doBruteForceAliasAnalysis a b = some [⟨24, 0, 24, 0⟩] ∧
      clashingPairs a b = {⟨24, 0, 24, 2⟩} := by
  decide

/-- Accesses of four bytes at 16, 20 and 24 against the bytes from 18 to 21. -/
theorem doBruteForceAliasAnalysis_eq_iff_ascending :
    let a : MemSetEntry := { base := 18, stride := 0, length := 4, start := 0, «end» := 0 }
    let b : MemSetEntry := { base := 16, stride := 4, length := 4, start := 0, «end» := 2 }
    BruteForceExact a b ∧
      ((∃ pairs, doBruteForceAliasAnalysis a b = some pairs ∧
        (pairs : Multiset ClashingPair) = clashingPairs a b) ↔ BruteForceExact a b) := by
  intro a b
  have ha : a.NoWrap := ⟨by decide, by decide, by decide, by decide⟩
  have hb : b.NoWrap := ⟨by decide, by decide, by decide, by decide⟩
  refine ⟨⟨fun _ _ => ⟨by decide, by decide, ?_, ?_⟩, fun h => absurd h (by decide)⟩,
    doBruteForceAliasAnalysis_eq_iff ha hb (by decide) (by decide)⟩
  · intro hshort
    exact absurd hshort (by decide)
  · intro hneg
    exact absurd hneg (by decide)

end CamAlias
