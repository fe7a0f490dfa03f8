import CamAlias.Dependence.DynamicGcd
import CamAlias.Memory.MemSetEntry
import Mathlib.Tactic.NormNum

/-!
# IsAlias — do two access patterns share a byte?

`isAliasBruteForce` tries all pairs of accesses.  `isAlias` hands patterns of one access length
with aligned bases to `dynamic_gcd`, which compares only the first bytes of accesses.

- `isAliasBruteForce_iff`: the exhaustive test means a shared byte;
- `isAlias_eq_isAliasBruteForce_iff`: when the fast test agrees with it.
-/

namespace CamAlias

def isAliasBruteForce (write read : MemSetEntry) : Bool :=
  (List.range read.getNumInstances.toNat).any fun j =>
    (List.range write.getNumInstances.toNat).any fun i =>
      write.getAccessLower i ≤ read.getAccessUpper j &&
        read.getAccessLower j ≤ write.getAccessUpper i

/-- The entry that `isAlias` hands to `dynamic_gcd`: a constant address is one access. -/
def forDynamicGcd (e : MemSetEntry) (writeLength : BitVec 64) : MemSetEntry :=
  if e.stride = 0 then
    { base := e.base, stride := writeLength, length := e.length, start := 0, «end» := 0 }
  else e.getNormalised

/-- `none` is a division by zero. -/
def isAlias (write read : MemSetEntry) : Option Bool :=
  if write.stride = 0 ∧ read.stride = 0 then some true
  else if write.length ≠ read.length ∨ ¬ write.isAligned ∨ ¬ read.isAligned then
    some (isAliasBruteForce write read)
  else
    let normalWrite := forDynamicGcd write write.length
    let normalRead := forDynamicGcd read write.length
    (dynamic_gcd normalWrite.base normalRead.base normalWrite.getLast normalRead.getLast
      normalWrite.stride normalRead.stride).map fun a => 0 < a.count.toNat

/-! ## Accesses as integer intervals -/

namespace MemSetEntry

/-- The address of the first byte of access `i`, without reduction to 64 bits. -/
def lower (e : MemSetEntry) (i : Nat) : Int :=
  e.base.toNat + i * e.stride.toInt

/-- A pattern of accesses of at least one byte, all inside the address space, and not as many of
them as there are instance numbers. -/
structure NoWrap (e : MemSetEntry) : Prop where
  length_pos : 0 < e.length.toNat
  instances_lt : e.instances < 2 ^ 64
  lower_nonneg : ∀ i < e.instances, 0 ≤ e.lower i
  upper_lt : ∀ i < e.instances, e.lower i + e.length.toNat ≤ 2 ^ 64

theorem add_ofNat_mul_toNat (b s : BitVec 64) (i : Nat) :
    ((b + BitVec.ofNat 64 i * s).toNat : Int) = (b.toNat + i * s.toInt) % 2 ^ 64 := by
  have hs : (i : Int) * s.toInt % 2 ^ 64 = i * s.toNat % 2 ^ 64 := by
    have hcast : (2 : Int) ^ 64 = ((2 ^ 64 : Nat) : Int) := by norm_num
    rw [BitVec.toInt_eq_toNat_bmod, hcast, Int.mul_emod, Int.bmod_emod, ← Int.mul_emod]
  rw [BitVec.toNat_add, BitVec.toNat_mul, BitVec.toNat_ofNat, Int.add_emod, hs]
  push_cast
  simp [Int.add_emod, Int.mul_emod]

theorem NoWrap.getAccessLower_toNat {e : MemSetEntry} (h : e.NoWrap) {i : Nat}
    (hi : i < e.instances) : ((e.getAccessLower i).toNat : Int) = e.lower i := by
  have hlo := h.lower_nonneg i hi
  have hup := h.upper_lt i hi
  have hlen := h.length_pos
  rw [getAccessLower, add_ofNat_mul_toNat]
  exact Int.emod_eq_of_lt hlo (by simp only [lower] at hup ⊢; omega)

theorem NoWrap.getAccessUpper_toNat {e : MemSetEntry} (h : e.NoWrap) {i : Nat}
    (hi : i < e.instances) :
    ((e.getAccessUpper i).toNat : Int) = e.lower i + e.length.toNat - 1 := by
  have hlow := h.getAccessLower_toNat hi
  have hlo := h.lower_nonneg i hi
  have hup := h.upper_lt i hi
  have hlen := h.length_pos
  have hone : (1 : BitVec 64).toNat = 1 := rfl
  have hupper : e.getAccessUpper i = e.getAccessLower i + e.length - 1 := rfl
  rw [hupper, BitVec.toNat_sub, BitVec.toNat_add, hone]
  omega

end MemSetEntry

/-- Some access of one pattern and some access of the other have a byte in common. -/
def SharesByte (write read : MemSetEntry) : Prop :=
  ∃ i < write.instances, ∃ j < read.instances,
    write.lower i < read.lower j + read.length.toNat ∧
      read.lower j < write.lower i + write.length.toNat

/-- The test of one pair of accesses. -/
theorem accessesOverlap_iff {write read : MemSetEntry} (hw : write.NoWrap) (hr : read.NoWrap)
    {i j : Nat} (hi : i < write.instances) (hj : j < read.instances) :
    (write.getAccessLower i ≤ read.getAccessUpper j ∧
        read.getAccessLower j ≤ write.getAccessUpper i) ↔
      (write.lower i < read.lower j + read.length.toNat ∧
        read.lower j < write.lower i + write.length.toNat) := by
  have h1 := hw.getAccessLower_toNat hi
  have h2 := hw.getAccessUpper_toNat hi
  have h3 := hr.getAccessLower_toNat hj
  have h4 := hr.getAccessUpper_toNat hj
  rw [BitVec.le_def, BitVec.le_def]
  omega

theorem isAliasBruteForce_iff {write read : MemSetEntry} (hw : write.NoWrap) (hr : read.NoWrap) :
    isAliasBruteForce write read = true ↔ SharesByte write read := by
  simp only [isAliasBruteForce, SharesByte, List.any_eq_true, List.mem_range, Bool.and_eq_true,
    decide_eq_true_eq, MemSetEntry.toNat_getNumInstances hw.instances_lt,
    MemSetEntry.toNat_getNumInstances hr.instances_lt]
  constructor
  · rintro ⟨j, hj, i, hi, h⟩
    exact ⟨i, hi, j, hj, (accessesOverlap_iff hw hr hi hj).1 h⟩
  · rintro ⟨i, hi, j, hj, h⟩
    exact ⟨j, hj, i, hi, (accessesOverlap_iff hw hr hi hj).2 h⟩

/-! ## When the fast test is exact -/

/-- The patterns are compared by `dynamic_gcd`. -/
def UsesGcd (write read : MemSetEntry) : Prop :=
  ¬ (write.stride = 0 ∧ read.stride = 0) ∧ write.length = read.length ∧
    write.isAligned = true ∧ read.isAligned = true

instance (write read : MemSetEntry) : Decidable (UsesGcd write read) :=
  inferInstanceAs (Decidable (_ ∧ _))

/-- What `dynamic_gcd` works on, once the lower pattern comes first. -/
structure GcdArguments where
  low1 : BitVec 64
  low2 : BitVec 64
  high : BitVec 64
  stride1 : BitVec 64
  stride2 : BitVec 64

def GcdArguments.of (lower upper : MemSetEntry) : GcdArguments where
  low1 := lower.base
  low2 := upper.base
  high := minimum lower.getLast upper.getLast
  stride1 := lower.stride
  stride2 := upper.stride

def gcdArguments (write read : MemSetEntry) : GcdArguments :=
  let normalWrite := forDynamicGcd write write.length
  let normalRead := forDynamicGcd read write.length
  if normalRead.base < normalWrite.base then .of normalRead normalWrite
  else .of normalWrite normalRead

namespace GcdArguments

def solve (a : GcdArguments) : Option AliasT :=
  dynamicGcdOrdered a.low1 a.low2 a.high a.stride1 a.stride2

/-- `delta % gcd != 0`: the solver leaves before it multiplies the strides. -/
def LeavesEarly (a : GcdArguments) : Prop :=
  ¬ Nat.gcd a.stride1.toNat a.stride2.toNat ∣ (delta a.low1 a.low2 a.stride1).toNat

def Fit (a : GcdArguments) : Prop :=
  ProductsFit a.low2 a.high a.stride1 a.stride2

/-- An address in the window is on both patterns, displaced by the wrap-around. -/
def Common (a : GcdArguments) : Prop :=
  CommonAddress a.low1 a.low2 a.high a.stride1 a.stride2
    (wrapDisplacement a.stride1 a.stride2 (delta a.low1 a.low2 a.stride1))

end GcdArguments

/-- The fast test is exact: the patterns do not reach `dynamic_gcd`; or it leaves early, or the
product of the strides fits in 64 bits, and the patterns share a byte exactly when an address in the
window is on both of them, displaced by the wrap-arounds of the second product. -/
def FastTestExact (write read : MemSetEntry) : Prop :=
  ¬ UsesGcd write read ∨
    (((gcdArguments write read).LeavesEarly ∨ (gcdArguments write read).Fit) ∧
      (SharesByte write read ↔ (gcdArguments write read).Common))

theorem forDynamicGcd_stride_pos {e : MemSetEntry} {writeLength : BitVec 64}
    (h : 0 < writeLength.toNat) : 0 < (forDynamicGcd e writeLength).stride.toNat := by
  have hpos : ∀ x : BitVec 64, x ≠ 0 → 0 < x.toNat := by
    intro x hx
    by_contra h0
    exact hx (BitVec.eq_of_toNat_eq (by simpa using h0))
  simp only [forDynamicGcd]
  by_cases hstride : e.stride = 0
  · rw [if_pos hstride]
    exact h
  · rw [if_neg hstride, MemSetEntry.getNormalised]
    by_cases hsign : e.nonnegStride = true
    · rw [if_pos hsign]
      exact hpos _ hstride
    · rw [if_neg hsign]
      refine hpos _ ?_
      intro h0
      exact hstride (BitVec.neg_eq_zero_iff.1 h0)

/-- On the fast path the answer is the solver's. -/
theorem isAlias_of_usesGcd {write read : MemSetEntry} (h : UsesGcd write read) :
    isAlias write read
      = (gcdArguments write read).solve.map fun r => decide (0 < r.count.toNat) := by
  rcases h with ⟨hstride, hlength, hwrite, hread⟩
  rw [isAlias, if_neg hstride, if_neg (by simp [hlength, hwrite, hread])]
  simp only [dynamic_gcd, gcdArguments]
  split
  · rfl
  · rfl

/-- What the solver is called with: the lower base first, and positive strides. -/
theorem gcdArguments_ordered {write : MemSetEntry} (read : MemSetEntry)
    (hlength : 0 < write.length.toNat) :
    (gcdArguments write read).low1 ≤ (gcdArguments write read).low2 ∧
      0 < (gcdArguments write read).stride1.toNat ∧
      0 < (gcdArguments write read).stride2.toNat := by
  have hw := forDynamicGcd_stride_pos (e := write) hlength
  have hr := forDynamicGcd_stride_pos (e := read) hlength
  simp only [gcdArguments]
  split
  · rename_i hlt
    exact ⟨BitVec.le_of_lt hlt, hr, hw⟩
  · rename_i hnlt
    exact ⟨BitVec.not_lt.1 hnlt, hw, hr⟩

/-- Where there is nothing to solve, no address is on both patterns, displaced or not. -/
theorem GcdArguments.LeavesEarly.not_common {write read : MemSetEntry}
    (hlength : 0 < write.length.toNat) (h : (gcdArguments write read).LeavesEarly) :
    ¬ (gcdArguments write read).Common := by
  have horder := gcdArguments_ordered read hlength
  rintro ⟨x, -, hx1, hx2⟩
  exact h (gcd_dvd_delta horder.1 horder.2.1 hx1 hx2)

/-- Where it leaves early and while the product of the strides fits, the solver's answer is that the
patterns have a common address after the displacement. -/
theorem isAlias_eq_common {write read : MemSetEntry} (h : UsesGcd write read)
    (hlength : 0 < write.length.toNat)
    (hcase : (gcdArguments write read).LeavesEarly ∨ (gcdArguments write read).Fit) :
    ∃ b, isAlias write read = some b ∧ (b = true ↔ (gcdArguments write read).Common) := by
  have horder := gcdArguments_ordered read hlength
  rcases dynamicGcdOrdered_spec horder.1 horder.2.1 horder.2.2 hcase with ⟨r, hsolve, hcommon⟩
  refine ⟨decide (0 < r.count.toNat), ?_, ?_⟩
  · rw [isAlias_of_usesGcd h, GcdArguments.solve, hsolve]
    rfl
  · rw [decide_eq_true_eq, hcommon]
    rfl

/-- Two constant addresses with overlapping extents share a byte. -/
theorem sharesByte_of_constant {write read : MemSetEntry} (hw : write.NoWrap) (hr : read.NoWrap)
    (hws : write.stride = 0) (hrs : read.stride = 0)
    (hlo : write.getLowerExtent ≤ read.getUpperExtent)
    (hhi : read.getLowerExtent ≤ write.getUpperExtent) : SharesByte write read := by
  have hextent : ∀ e : MemSetEntry, e.stride = 0 →
      e.getLowerExtent = e.getAccessLower 0 ∧ e.getUpperExtent = e.getAccessUpper 0 := by
    intro e he
    simp [MemSetEntry.getLowerExtent, MemSetEntry.getUpperExtent, MemSetEntry.getAccessLower,
      MemSetEntry.getAccessUpper, he]
  have hfirst : ∀ e : MemSetEntry, 0 < e.instances := MemSetEntry.instances_pos
  rw [(hextent write hws).1, (hextent read hrs).2, BitVec.le_def] at hlo
  rw [(hextent read hrs).1, (hextent write hws).2, BitVec.le_def] at hhi
  have h1 := hw.getAccessLower_toNat (hfirst write)
  have h2 := hw.getAccessUpper_toNat (hfirst write)
  have h3 := hr.getAccessLower_toNat (hfirst read)
  have h4 := hr.getAccessUpper_toNat (hfirst read)
  exact ⟨0, hfirst write, 0, hfirst read, by omega, by omega⟩

/-- Without `dynamic_gcd` the tests agree. -/
theorem isAlias_of_not_usesGcd {write read : MemSetEntry} (hw : write.NoWrap) (hr : read.NoWrap)
    (hlo : write.getLowerExtent ≤ read.getUpperExtent)
    (hhi : read.getLowerExtent ≤ write.getUpperExtent) (h : ¬ UsesGcd write read) :
    isAlias write read = some (isAliasBruteForce write read) := by
  by_cases hconstant : write.stride = 0 ∧ read.stride = 0
  · have hshare := sharesByte_of_constant hw hr hconstant.1 hconstant.2 hlo hhi
    rw [isAlias, if_pos hconstant, (isAliasBruteForce_iff hw hr).2 hshare]
  · have hother : write.length ≠ read.length ∨ ¬ write.isAligned ∨ ¬ read.isAligned := by
      by_contra hall
      rw [not_or, not_or, not_not, not_not, not_not] at hall
      exact h ⟨hconstant, hall⟩
    rw [isAlias, if_neg hconstant, if_pos hother]

/-- The fast test against the exhaustive one, for patterns with overlapping extents.  They agree
when `FastTestExact` holds, and only then unless `dynamic_gcd` works with a product of the strides
that has wrapped around; the exhaustive test is the existence of a shared byte. -/
theorem isAlias_eq_isAliasBruteForce_iff (write read : MemSetEntry) (hw : write.NoWrap)
    (hr : read.NoWrap) (hlo : write.getLowerExtent ≤ read.getUpperExtent)
    (hhi : read.getLowerExtent ≤ write.getUpperExtent) :
    (FastTestExact write read → isAlias write read = some (isAliasBruteForce write read)) ∧
      (¬ UsesGcd write read ∨ (gcdArguments write read).LeavesEarly ∨ (gcdArguments write read).Fit →
        isAlias write read = some (isAliasBruteForce write read) → FastTestExact write read) ∧
      (isAliasBruteForce write read = true ↔ SharesByte write read) := by
  have hbrute := isAliasBruteForce_iff hw hr
  refine ⟨?_, ?_, hbrute⟩
  · intro hexact
    by_cases huses : UsesGcd write read
    · rcases hexact.resolve_left (not_not.2 huses) with ⟨hcase, hcommon⟩
      rcases isAlias_eq_common huses hw.length_pos hcase with ⟨b, hb, hbcommon⟩
      have heq : b = isAliasBruteForce write read := by
        rw [Bool.eq_iff_iff, hbcommon, hbrute, hcommon]
      rw [hb, heq]
    · exact isAlias_of_not_usesGcd hw hr hlo hhi huses
  · intro hdomain hagree
    by_cases huses : UsesGcd write read
    · have hcase := hdomain.resolve_left (not_not.2 huses)
      rcases isAlias_eq_common huses hw.length_pos hcase with ⟨b, hb, hbcommon⟩
      rw [hb] at hagree
      have heq : b = isAliasBruteForce write read := Option.some.inj hagree
      refine Or.inr ⟨hcase, ?_⟩
      rw [← hbrute, ← hbcommon, heq]
    · exact Or.inl huses

/-- Writes at 0, 12, 24 and reads at 4, 24, four bytes each: both touch 24, but the Bézout
coefficient of 20 for 12 and 20 is -1, and the fast test misses it. -/
theorem isAlias_misses_common_address :
    let write : MemSetEntry := { base := 0, stride := 12, length := 4, start := 0, «end» := 2 }
    let read : MemSetEntry := { base := 4, stride := 20, length := 4, start := 0, «end» := 1 }
    write.NoWrap ∧ read.NoWrap ∧ write.getLowerExtent ≤ read.getUpperExtent ∧
      read.getLowerExtent ≤ write.getUpperExtent ∧
      isAliasBruteForce write read = true ∧ isAlias write read = some false := by
  refine ⟨⟨?_, ?_, ?_, ?_⟩, ⟨?_, ?_, ?_, ?_⟩, ?_⟩
  all_goals decide

/-- Two writes and two reads `2 ^ 32` apart: the product of the strides wraps around, but the solver
leaves before it uses it. -/
theorem isAlias_eq_isAliasBruteForce_iff_far :
    let write : MemSetEntry := { base := 0, stride := 0x100000000, length := 4, start := 0, «end» := 1 }
    let read : MemSetEntry := { base := 4, stride := 0x100000000, length := 4, start := 0, «end» := 1 }
    FastTestExact write read ∧
    (FastTestExact write read → isAlias write read = some (isAliasBruteForce write read)) ∧
      (¬ UsesGcd write read ∨ (gcdArguments write read).LeavesEarly ∨ (gcdArguments write read).Fit →
        isAlias write read = some (isAliasBruteForce write read) → FastTestExact write read) ∧
      (isAliasBruteForce write read = true ↔ SharesByte write read) := by
  intro write read
  have hw : write.NoWrap := ⟨by decide, by decide, by decide, by decide⟩
  have hr : read.NoWrap := ⟨by decide, by decide, by decide, by decide⟩
  have hboth := isAlias_eq_isAliasBruteForce_iff write read hw hr (by decide) (by decide)
  have hearly : (gcdArguments write read).LeavesEarly := by
    rw [GcdArguments.LeavesEarly]
    decide
  have hshare : ¬ SharesByte write read := fun h => absurd (hboth.2.2.2 h) (by decide)
  exact ⟨Or.inr ⟨Or.inl hearly, iff_of_false hshare (hearly.not_common (by decide))⟩, hboth⟩

end CamAlias
