import CamAlias.Dependence.Conflicts
import CamAlias.Dependence.IsAlias

/-!
# UserSpace — references below `2 ^ 63`

Where all references of a pattern are below `2 ^ 63`, a stride is the distance between two of them, so
the extents of the pattern enclose each of its references.

* `isAliasBruteForce_iff_sharesByte`: the exhaustive test in terms of references;
* `extentsOverlap_of_sharesByte`: references that share a byte are in patterns that the interval tree
  has as overlapping.
-/

namespace CamAlias

namespace Reference

/-- At least one byte, and all bytes below `2 ^ 63`. -/
structure InUserSpace (r : Reference) : Prop where
  length_pos : 0 < r.length.toNat
  end_le : r.address.toNat + r.length.toNat ≤ 2 ^ 63

instance (r : Reference) : Decidable r.InUserSpace :=
  decidable_of_iff (0 < r.length.toNat ∧ r.address.toNat + r.length.toNat ≤ 2 ^ 63)
    ⟨fun ⟨hpos, hle⟩ => ⟨hpos, hle⟩, fun h => ⟨h.length_pos, h.end_le⟩⟩

/-- Two references have a byte in common. -/
def SharesByte (w r : Reference) : Prop :=
  w.address.toNat < r.address.toNat + r.length.toNat ∧
    r.address.toNat < w.address.toNat + w.length.toNat

instance (w r : Reference) : Decidable (w.SharesByte r) :=
  inferInstanceAs (Decidable (_ ∧ _))

theorem SharesByte.symm {w r : Reference} (h : w.SharesByte r) : r.SharesByte w := And.symm h

end Reference

namespace MemSetEntry

/-- Every reference of the pattern is below `2 ^ 63`. -/
def InUserSpace (e : MemSetEntry) : Prop :=
  ∀ r ∈ e.accesses, r.InUserSpace

variable {e : MemSetEntry} {i : Nat}

theorem mem_accesses {r : Reference} :
    r ∈ e.accesses ↔ ∃ i < e.instances, ⟨e.getAccessLower i, e.length⟩ = r := by
  rw [accesses, List.mem_map]
  simp only [List.mem_range]

theorem InUserSpace.access (h : e.InUserSpace) (hi : i < e.instances) :
    0 < e.length.toNat ∧ (e.getAccessLower i).toNat + e.length.toNat ≤ 2 ^ 63 := by
  have hr := h ⟨e.getAccessLower i, e.length⟩ (mem_accesses.2 ⟨i, hi, rfl⟩)
  exact ⟨hr.length_pos, hr.end_le⟩

theorem InUserSpace.getAccessUpper_toNat (h : e.InUserSpace) (hi : i < e.instances) :
    (e.getAccessUpper i).toNat + 1 = (e.getAccessLower i).toNat + e.length.toNat := by
  rcases h.access hi with ⟨hlen, hend⟩
  have hone : (1 : BitVec 64).toNat = 1 := rfl
  have hupper : e.getAccessUpper i = e.getAccessLower i + e.length - 1 := rfl
  rw [hupper, BitVec.toNat_sub, BitVec.toNat_add, hone]
  omega

/-- The stride is the distance between two references. -/
theorem InUserSpace.lower_eq (h : e.InUserSpace) (hi : i < e.instances) :
    ((e.getAccessLower i).toNat : Int) = e.lower i := by
  induction i with
  | zero => simp [getAccessLower, lower]
  | succ i ih =>
      have hlow := ih (Nat.lt_of_succ_lt hi)
      rcases h.access (Nat.lt_of_succ_lt hi) with ⟨hlen, hend⟩
      rcases h.access hi with ⟨-, hend'⟩
      have hle := e.stride.le_two_mul_toInt
      have hlt := e.stride.two_mul_toInt_lt
      have haddr := add_ofNat_mul_toNat e.base e.stride (i + 1)
      have hnext : e.lower (i + 1) = e.lower i + e.stride.toInt := by
        rw [lower, lower]
        push_cast
        ring
      have hmod : ((e.getAccessLower (i + 1)).toNat : Int)
          = (((e.getAccessLower i).toNat : Int) + e.stride.toInt) % 2 ^ 64 := by
        rw [hlow, ← hnext]
        exact haddr
      rw [hnext, ← hlow]
      omega

/-- The extents enclose every reference. -/
theorem InUserSpace.extents (h : e.InUserSpace) {r : Reference} (hr : r ∈ e.accesses) :
    e.getLowerExtent.toNat ≤ r.address.toNat ∧
      r.address.toNat + r.length.toNat ≤ e.getUpperExtent.toNat + 1 := by
  rcases mem_accesses.1 hr with ⟨i, hi, rfl⟩
  show e.getLowerExtent.toNat ≤ (e.getAccessLower i).toNat ∧
    (e.getAccessLower i).toNat + e.length.toNat ≤ e.getUpperExtent.toNat + 1
  have hfirst : 0 < e.instances := e.instances_pos
  have hlast : (e.end - e.start).toNat < e.instances := Nat.lt_succ_self _
  have hi' : i ≤ (e.end - e.start).toNat := Nat.lt_succ_iff.1 hi
  have hlow := h.lower_eq hi
  have hlow0 := h.lower_eq hfirst
  have hlowLast := h.lower_eq hlast
  have hbase : e.getAccessLower 0 = e.base := by simp [getAccessLower]
  simp only [lower] at hlow hlow0 hlowLast
  -- the lower extent is the first access, or the last one if the stride is negative
  by_cases hsign : e.nonnegStride = true
  · have hpos : 0 ≤ e.stride.toInt := of_decide_eq_true hsign
    have hlower : e.getLowerExtent = e.getAccessLower 0 := by rw [getLowerExtent, if_pos hsign, hbase]
    have hupper : e.getUpperExtent = e.getAccessUpper (e.end - e.start).toNat := by
      rw [getUpperExtent, if_pos hsign, getAccessUpper, BitVec.mul_comm, BitVec.ofNat_toNat,
        BitVec.setWidth_eq]
    have hmono := Int.mul_le_mul_of_nonneg_right (Int.ofNat_le.2 hi') hpos
    have hzero := Int.mul_nonneg (Int.natCast_nonneg i) hpos
    rw [hlower, hupper, h.getAccessUpper_toNat hlast]
    exact ⟨by omega, by omega⟩
  · have hneg : e.stride.toInt ≤ 0 := by
      have := mt decide_eq_true hsign
      omega
    have hlower : e.getLowerExtent = e.getAccessLower (e.end - e.start).toNat := by
      rw [getLowerExtent, if_neg hsign, getAccessLower, BitVec.mul_comm, BitVec.ofNat_toNat,
        BitVec.setWidth_eq]
    have hupper : e.getUpperExtent = e.getAccessUpper 0 := by
      rw [getUpperExtent, if_neg hsign]
      simp [getAccessUpper]
    have hmono := Int.mul_le_mul_of_nonpos_right (Int.ofNat_le.2 hi') hneg
    have hzero := Int.mul_nonpos_of_nonneg_of_nonpos (Int.natCast_nonneg i) hneg
    rw [hlower, hupper, h.getAccessUpper_toNat hfirst]
    exact ⟨by omega, by omega⟩

end MemSetEntry

/-! ## Patterns and their references -/

section Patterns

variable {write read : MemSetEntry}

/-- Some reference of one pattern shares a byte with some reference of the other. -/
def ReferencesShareByte (write read : MemSetEntry) : Prop :=
  ∃ w ∈ write.accesses, ∃ r ∈ read.accesses, w.SharesByte r

/-- The exhaustive test. -/
theorem isAliasBruteForce_iff_sharesByte (hw : write.InUserSpace) (hr : read.InUserSpace)
    (hwlt : write.instances < 2 ^ 64) (hrlt : read.instances < 2 ^ 64) :
    isAliasBruteForce write read = true ↔ ReferencesShareByte write read := by
  -- one pair of references
  have hpair : ∀ i < write.instances, ∀ j < read.instances,
      (write.getAccessLower i ≤ read.getAccessUpper j ∧
          read.getAccessLower j ≤ write.getAccessUpper i) ↔
        Reference.SharesByte ⟨write.getAccessLower i, write.length⟩
          ⟨read.getAccessLower j, read.length⟩ := by
    intro i hi j hj
    have hupper := hw.getAccessUpper_toNat hi
    have hupper' := hr.getAccessUpper_toNat hj
    simp only [BitVec.le_def, Reference.SharesByte]
    exact and_congr (by omega) (by omega)
  simp only [isAliasBruteForce, ReferencesShareByte, List.any_eq_true, List.mem_range,
    Bool.and_eq_true, decide_eq_true_eq, MemSetEntry.mem_accesses,
    MemSetEntry.toNat_getNumInstances hwlt, MemSetEntry.toNat_getNumInstances hrlt]
  constructor
  · rintro ⟨j, hj, i, hi, hoverlap⟩
    exact ⟨_, ⟨i, hi, rfl⟩, _, ⟨j, hj, rfl⟩, (hpair i hi j hj).1 hoverlap⟩
  · rintro ⟨_, ⟨i, hi, rfl⟩, _, ⟨j, hj, rfl⟩, hshares⟩
    exact ⟨j, hj, i, hi, (hpair i hi j hj).2 hshares⟩

/-- The references of a pattern are its accesses as integer intervals. -/
theorem sharesByte_iff_references (hw : write.InUserSpace) (hr : read.InUserSpace) :
    SharesByte write read ↔ ReferencesShareByte write read := by
  have hpair : ∀ i < write.instances, ∀ j < read.instances,
      (write.lower i < read.lower j + read.length.toNat ∧
          read.lower j < write.lower i + write.length.toNat) ↔
        Reference.SharesByte ⟨write.getAccessLower i, write.length⟩
          ⟨read.getAccessLower j, read.length⟩ := by
    intro i hi j hj
    have hlower := hw.lower_eq hi
    have hlower' := hr.lower_eq hj
    simp only [Reference.SharesByte]
    exact and_congr (by omega) (by omega)
  simp only [SharesByte, ReferencesShareByte, MemSetEntry.mem_accesses]
  constructor
  · rintro ⟨i, hi, j, hj, hshares⟩
    exact ⟨_, ⟨i, hi, rfl⟩, _, ⟨j, hj, rfl⟩, (hpair i hi j hj).1 hshares⟩
  · rintro ⟨_, ⟨i, hi, rfl⟩, _, ⟨j, hj, rfl⟩, hshares⟩
    exact ⟨i, hi, j, hj, (hpair i hi j hj).2 hshares⟩

/-- The extents of constant patterns are a single reference. -/
theorem sharesByte_of_constant_extents (hw : write.InUserSpace) (hr : read.InUserSpace)
    (hwrite : write.stride = 0) (hread : read.stride = 0) (hoverlap : ExtentsOverlap write read) :
    ReferencesShareByte write read := by
  have hextents : ∀ e : MemSetEntry, e.stride = 0 →
      e.getLowerExtent = e.getAccessLower 0 ∧ e.getUpperExtent = e.getAccessUpper 0 := by
    intro e he
    simp [MemSetEntry.getLowerExtent, MemSetEntry.getUpperExtent, MemSetEntry.getAccessLower,
      MemSetEntry.getAccessUpper, he]
  have hupper := hw.getAccessUpper_toNat write.instances_pos
  have hupper' := hr.getAccessUpper_toNat read.instances_pos
  rcases hoverlap with ⟨hle, hle'⟩
  rw [(hextents _ hwrite).2, (hextents _ hread).1] at hle
  rw [(hextents _ hwrite).1, (hextents _ hread).2] at hle'
  refine ⟨_, MemSetEntry.mem_accesses.2 ⟨0, write.instances_pos, rfl⟩, _,
    MemSetEntry.mem_accesses.2 ⟨0, read.instances_pos, rfl⟩, ?_⟩
  simp only [Reference.SharesByte]
  exact ⟨by omega, by omega⟩

/-- What shares a byte is found in the interval tree. -/
theorem extentsOverlap_of_sharesByte (hw : write.InUserSpace) (hr : read.InUserSpace)
    (h : ReferencesShareByte write read) : ExtentsOverlap write read := by
  rcases h with ⟨w, hwmem, r, hrmem, hshares⟩
  rcases hw.extents hwmem with ⟨hwl, hwu⟩
  rcases hr.extents hrmem with ⟨hrl, hru⟩
  rcases hshares with ⟨hlt, hlt'⟩
  exact ⟨by omega, by omega⟩

end Patterns
end CamAlias
