import CamAlias.Dependence.UserSpace
import CamAlias.Memory.Dump
import Mathlib.Data.List.Infix

/-!
# Formed — the patterns that the analysis makes of a stream

The tracer writes the references of a stream as strided patterns, and the analysis cuts these at the
borders of chunks, iterations and calls.  So every pattern stands for references that follow each
other, and its stride is 0 or the distance between two neighbours of the stream.  Patterns of no other
form are ever compared.

* `decidesSharing_isAlias`: the test of the analysis decides whether they share a byte where it is
  exact;
* `decidesSharing_of_forall`: there are only finitely many of them to look at.
-/

namespace CamAlias

/-- A pattern that the analysis makes of a stream. -/
structure MemSetEntry.Formed (stream : List Reference) (e : MemSetEntry) : Prop where
  accesses : e.accesses <:+: stream
  stride : StrideIn stream e.length e.stride

/-- The test decides whether a pattern of written references shares a byte with another pattern, if
their extents overlap. -/
def DecidesSharing (needs : UInt64 × Stream → Prop) (streams : UInt64 × Stream → List Reference)
    (isAlias : MemSetEntry → MemSetEntry → Option Bool) : Prop :=
  ∀ (id : UInt64) (key : UInt64 × Stream), needs (id, .write) → needs key →
    ∀ write read : MemSetEntry, write.Formed (streams (id, .write)) → read.Formed (streams key) →
      ExtentsOverlap write read →
        ∃ b, isAlias write read = some b ∧ (b = true ↔ ReferencesShareByte write read)

section Tests

variable {needs : UInt64 × Stream → Prop} {streams : UInt64 × Stream → List Reference}
  {stream : List Reference} {e : MemSetEntry}

theorem MemSetEntry.Formed.inUserSpace (h : e.Formed stream)
    (huser : ∀ r ∈ stream, r.InUserSpace) : e.InUserSpace :=
  fun r hr => huser r (h.accesses.subset hr)

theorem MemSetEntry.Formed.instances_lt (h : e.Formed stream) (hfew : stream.length < 2 ^ 64) :
    e.instances < 2 ^ 64 := by
  have hle := h.accesses.length_le
  rw [MemSetEntry.length_accesses] at hle
  exact Nat.lt_of_le_of_lt hle hfew

theorem decidesSharing_isAliasBruteForce (huser : ∀ key, needs key → ∀ r ∈ streams key, r.InUserSpace)
    (hfew : ∀ key, needs key → (streams key).length < 2 ^ 64) :
    DecidesSharing needs streams fun write read => some (isAliasBruteForce write read) := by
  intro id key hid hkey write read hw hr _
  exact ⟨_, rfl, isAliasBruteForce_iff_sharesByte (hw.inUserSpace (huser _ hid))
    (hr.inUserSpace (huser _ hkey)) (hw.instances_lt (hfew _ hid)) (hr.instances_lt (hfew _ hkey))⟩

/-- So does the test of the analysis, where it is exact. -/
theorem decidesSharing_isAlias (huser : ∀ key, needs key → ∀ r ∈ streams key, r.InUserSpace)
    (hfew : ∀ key, needs key → (streams key).length < 2 ^ 64)
    (hexact : ∀ (id : UInt64) (key : UInt64 × Stream), needs (id, .write) → needs key →
      ∀ write read : MemSetEntry, write.Formed (streams (id, .write)) → read.Formed (streams key) →
        ExtentsOverlap write read → FastTestExact write read) :
    DecidesSharing needs streams isAlias := by
  intro id key hid hkey write read hw hr hoverlap
  have hwuser := hw.inUserSpace (huser _ hid)
  have hruser := hr.inUserSpace (huser _ hkey)
  by_cases huses : UsesGcd write read
  · rcases (hexact id key hid hkey write read hw hr hoverlap).resolve_left (not_not.2 huses) with
      ⟨hcase, hcommon⟩
    have hlength := (hwuser.access write.instances_pos).1
    rcases isAlias_eq_common huses hlength hcase with ⟨b, hb, hiff⟩
    exact ⟨b, hb, hiff.trans (hcommon.symm.trans (sharesByte_iff_references hwuser hruser))⟩
  · by_cases hconstant : write.stride = 0 ∧ read.stride = 0
    · refine ⟨true, if_pos hconstant, iff_of_true rfl ?_⟩
      exact sharesByte_of_constant_extents hwuser hruser hconstant.1 hconstant.2 hoverlap
    · have hother : write.length ≠ read.length ∨ ¬ write.isAligned ∨ ¬ read.isAligned := by
        by_contra hall
        rw [not_or, not_or, not_not, not_not, not_not] at hall
        exact huses ⟨hconstant, hall⟩
      refine ⟨isAliasBruteForce write read, ?_, isAliasBruteForce_iff_sharesByte hwuser hruser
        (hw.instances_lt (hfew _ hid)) (hr.instances_lt (hfew _ hkey))⟩
      rw [isAlias, if_neg hconstant, if_pos hother]

theorem DecidesSharing.mono {needs' : UInt64 × Stream → Prop}
    {isAlias : MemSetEntry → MemSetEntry → Option Bool} (h : DecidesSharing needs streams isAlias)
    (hsub : ∀ key, needs' key → needs key) : DecidesSharing needs' streams isAlias :=
  fun id key hid hkey => h id key (hsub _ hid) (hsub key hkey)

end Tests

/-! ## The patterns of a short stream -/

/-- The distances between neighbours. -/
def distances (stream : List Reference) : List (BitVec 64) :=
  List.zipWith (fun r r' => r'.address - r.address) stream stream.tail

theorem mem_distances {stream : List Reference} {r r' : Reference} (h : [r, r'] <:+: stream) :
    r'.address - r.address ∈ distances stream := by
  rcases h with ⟨before, behind, rfl⟩
  induction before with
  | nil => exact List.mem_cons_self
  | cons x before ih =>
      cases before with
      | nil => exact List.mem_cons_of_mem _ ih
      | cons y before => exact List.mem_cons_of_mem _ ih

namespace MemSetEntry

/-- The pattern with its instances numbered from 0, and without tags. -/
def untagged (e : MemSetEntry) : MemSetEntry :=
  { base := e.base, stride := e.stride, length := e.length, start := 0, «end» := e.end - e.start }

theorem instances_untagged (e : MemSetEntry) : e.untagged.instances = e.instances := by
  simp [instances, untagged]

theorem accesses_untagged (e : MemSetEntry) : e.untagged.accesses = e.accesses := by
  rw [accesses_eq_references, accesses_eq_references, instances_untagged]
  rfl

theorem getLast_untagged (e : MemSetEntry) : e.untagged.getLast = e.getLast := by
  simp [getLast, untagged]

/-- The patterns that can be made of a stream, untagged. -/
def patterns (stream : List Reference) : List MemSetEntry :=
  (stream.flatMap fun r => (0 :: distances stream).flatMap fun stride =>
    (List.range stream.length).map fun n =>
      { base := r.address, stride, length := r.length, start := 0, «end» := BitVec.ofNat 64 n }).filter
    fun e => e.accesses <:+: stream

theorem Formed.mem_patterns {stream : List Reference} {e : MemSetEntry} (h : e.Formed stream) :
    e.untagged ∈ patterns stream := by
  have hfirst : (⟨e.base, e.length⟩ : Reference) ∈ stream := by
    refine h.accesses.subset (mem_accesses.2 ⟨0, e.instances_pos, ?_⟩)
    simp [getAccessLower]
  have hstride : e.stride ∈ 0 :: distances stream := by
    rcases h.stride with hzero | ⟨r, r', hpair, -, -, hstride⟩
    · rw [hzero]
      exact List.mem_cons_self
    · rw [← hstride]
      exact List.mem_cons_of_mem _ (mem_distances hpair)
  have hcount : (e.end - e.start).toNat < stream.length := by
    have hle := h.accesses.length_le
    rwa [length_accesses] at hle
  have hend : e.untagged
      = ⟨e.base, e.stride, e.length, 0, BitVec.ofNat 64 (e.end - e.start).toNat, 0, 0⟩ := by
    rw [BitVec.ofNat_toNat, BitVec.setWidth_eq]
    rfl
  refine List.mem_filter.2 ⟨?_, decide_eq_true ?_⟩
  · rw [hend]
    exact List.mem_flatMap.2 ⟨_, hfirst, List.mem_flatMap.2 ⟨_, hstride,
      List.mem_map.2 ⟨_, List.mem_range.2 hcount, rfl⟩⟩⟩
  · rw [accesses_untagged]
    exact h.accesses

end MemSetEntry

section Patterns

variable {write read : MemSetEntry}

instance (write read : MemSetEntry) : Decidable (ReferencesShareByte write read) :=
  inferInstanceAs (Decidable (∃ w ∈ write.accesses, ∃ r ∈ read.accesses, w.SharesByte r))

theorem referencesShareByte_untagged :
    ReferencesShareByte write.untagged read.untagged ↔ ReferencesShareByte write read := by
  rw [ReferencesShareByte, MemSetEntry.accesses_untagged, MemSetEntry.accesses_untagged]
  rfl

theorem extentsOverlap_untagged (h : ExtentsOverlap write read) :
    ExtentsOverlap write.untagged read.untagged := by
  have hextents : ∀ e : MemSetEntry, e.untagged.getLowerExtent = e.getLowerExtent ∧
      e.untagged.getUpperExtent = e.getUpperExtent := by
    intro e
    have hsign : e.untagged.nonnegStride = e.nonnegStride := rfl
    have hspan : e.untagged.end - e.untagged.start = e.end - e.start := by
      simp [MemSetEntry.untagged]
    simp only [MemSetEntry.getLowerExtent, MemSetEntry.getUpperExtent, hsign, hspan]
    exact ⟨rfl, rfl⟩
  rw [ExtentsOverlap, (hextents write).1, (hextents write).2, (hextents read).1, (hextents read).2]
  exact h

/-- The test of the analysis does not look at the tags or at the first instance number. -/
theorem isAlias_untagged : isAlias write.untagged read.untagged = isAlias write read := by
  have hbrute : isAliasBruteForce write.untagged read.untagged = isAliasBruteForce write read := by
    simp only [isAliasBruteForce, MemSetEntry.getNumInstances_eq, MemSetEntry.instances_untagged]
    rfl
  have hnormal : ∀ e : MemSetEntry, ∀ length,
      (forDynamicGcd e.untagged length).base = (forDynamicGcd e length).base ∧
        (forDynamicGcd e.untagged length).getLast = (forDynamicGcd e length).getLast ∧
        (forDynamicGcd e.untagged length).stride = (forDynamicGcd e length).stride := by
    intro e length
    simp only [forDynamicGcd, MemSetEntry.getNormalised, MemSetEntry.getLast_untagged]
    by_cases hstride : e.stride = 0
    · rw [if_pos hstride, if_pos (show e.untagged.stride = 0 from hstride)]
      exact ⟨rfl, rfl, rfl⟩
    · rw [if_neg hstride, if_neg (show ¬ e.untagged.stride = 0 from hstride)]
      by_cases hsign : e.nonnegStride = true
      · rw [if_pos hsign, if_pos (show e.untagged.nonnegStride = true from hsign)]
        exact ⟨rfl, e.getLast_untagged, rfl⟩
      · rw [if_neg hsign, if_neg (show ¬ e.untagged.nonnegStride = true from hsign)]
        refine ⟨rfl, ?_, rfl⟩
        simp [MemSetEntry.getLast, MemSetEntry.untagged]
  have hwrite := hnormal write write.length
  have hread := hnormal read write.length
  have hlength : write.untagged.length = write.length := rfl
  simp only [isAlias, hbrute, hlength, hwrite.1, hwrite.2.1, hwrite.2.2, hread.1, hread.2.1,
    hread.2.2]
  rfl

/-- The patterns of all streams can be gone through. -/
theorem decidesSharing_of_forall {needs : UInt64 × Stream → Prop}
    {streams : UInt64 × Stream → List Reference} (keys : List (UInt64 × Stream))
    (hkeys : ∀ key, needs key → key ∈ keys)
    (h : ∀ wkey ∈ keys, wkey.2 = .write → ∀ rkey ∈ keys,
      ∀ write ∈ MemSetEntry.patterns (streams wkey), ∀ read ∈ MemSetEntry.patterns (streams rkey),
        ExtentsOverlap write read → isAlias write read = some (decide (ReferencesShareByte write read))) :
    DecidesSharing needs streams isAlias := by
  intro id key hid hkey write read hw hr hoverlap
  have hshape := h (id, .write) (hkeys _ hid) rfl key (hkeys _ hkey) _ hw.mem_patterns _
    hr.mem_patterns (extentsOverlap_untagged hoverlap)
  rw [isAlias_untagged] at hshape
  exact ⟨_, hshape, decide_eq_true_iff.trans referencesShareByte_untagged⟩

end Patterns
end CamAlias
