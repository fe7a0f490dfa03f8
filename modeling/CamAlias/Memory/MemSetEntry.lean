import CamAlias.Lib.Progression
import Mathlib.Algebra.GroupWithZero.Nat
import Mathlib.Data.List.Basic
import Mathlib.Tactic.Common

/-!
# MemSetEntry — strided access patterns in the analyser

Addresses, lengths and instance numbers are 64-bit words, strides are 64-bit words read as signed
numbers.
-/

namespace CamAlias

/-- One dynamic memory reference: an address and the number of bytes accessed. -/
structure Reference where
  address : BitVec 64
  length : BitVec 64
  deriving DecidableEq, Repr

/-- The references of a strided pattern, in order. -/
def references (base stride length : BitVec 64) (n : Nat) : List Reference :=
  (Lib.progression base stride n).map fun a => { address := a, length := length }

/-- The references of a pattern cut after `m` of them. -/
theorem references_add (base stride length : BitVec 64) (m n : Nat) :
    references base stride length (m + n)
      = references base stride length m
        ++ references (base + BitVec.ofNat 64 m * stride) stride length n := by
  simp [references, Lib.progression_add]

@[simp] theorem length_references (base stride length : BitVec 64) (n : Nat) :
    (references base stride length n).length = n := by
  simp [references]

/-- A stride that an entry of this length can have over some references: 0, or the distance between
two neighbours. -/
def StrideIn (refs : List Reference) (length stride : BitVec 64) : Prop :=
  stride = 0 ∨ ∃ r r' : Reference, [r, r'] <:+: refs ∧ r.length = length ∧ r'.length = length ∧
    r'.address - r.address = stride

theorem StrideIn.mono {refs refs' : List Reference} {length stride : BitVec 64}
    (h : StrideIn refs length stride) (hwithin : refs <:+: refs') : StrideIn refs' length stride := by
  rcases h with hzero | ⟨r, r', hpair, hr, hr', hstride⟩
  · exact Or.inl hzero
  · exact Or.inr ⟨r, r', hpair.trans hwithin, hr, hr', hstride⟩

/-- Two references of a pattern are enough to show its stride. -/
theorem strideIn_references (base stride length : BitVec 64) (n : Nat) :
    StrideIn (references base stride length (n + 2)) length stride := by
  have hfirst : references base stride length (2 + n)
      = [⟨base, length⟩, ⟨base + stride, length⟩]
        ++ references (base + BitVec.ofNat 64 2 * stride) stride length n := by
    rw [references_add]
    simp [references, Lib.progression_two]
  have hdistance : base + stride - base = stride := by
    rw [BitVec.add_comm, BitVec.add_sub_cancel]
  rw [Nat.add_comm n 2, hfirst]
  exact Or.inr ⟨_, _, (List.prefix_append _ _).isInfix, rfl, rfl, hdistance⟩

structure MemSetEntry where
  base : BitVec 64
  stride : BitVec 64
  length : BitVec 64
  start : BitVec 64
  «end» : BitVec 64
  iterationNumber : Nat := 0
  effectiveInstrID : UInt64 := 0
  deriving DecidableEq, Repr

namespace MemSetEntry

def maxStride : Nat := 8

/-- `end - start + 1`, which is 0 for the entry of all instance numbers. -/
def getNumInstances (e : MemSetEntry) : BitVec 64 :=
  e.end - e.start + 1

def getLast (e : MemSetEntry) : BitVec 64 :=
  e.base + (e.end - e.start) * e.stride

/-- `stride >= 0`. -/
def nonnegStride (e : MemSetEntry) : Bool :=
  0 ≤ e.stride.toInt

def getUpperExtent (e : MemSetEntry) : BitVec 64 :=
  if e.nonnegStride then
    e.base + e.stride * (e.end - e.start) + e.length - 1
  else
    e.base + e.length - 1

def getLowerExtent (e : MemSetEntry) : BitVec 64 :=
  if e.nonnegStride then
    e.base
  else
    e.base + e.stride * (e.end - e.start)

def getAccessLower (e : MemSetEntry) (n : Nat) : BitVec 64 :=
  e.base + BitVec.ofNat 64 n * e.stride

def getAccessUpper (e : MemSetEntry) (n : Nat) : BitVec 64 :=
  e.base + BitVec.ofNat 64 n * e.stride + e.length - 1

/-- An access of `length` bytes at an address that is a multiple of `length`. -/
def isAligned (e : MemSetEntry) : Bool :=
  e.base % e.length = 0

/-- The same addresses with a positive stride: a negative one is reversed. -/
def getNormalised (e : MemSetEntry) : MemSetEntry :=
  if e.nonnegStride then e
  else { e with base := e.getLast, stride := -e.stride }

def isTrivialPattern (e : MemSetEntry) : Bool :=
  e.getNumInstances = 2 && maxStride < e.stride.toInt.natAbs

/-- The entry cut to its first instance, and the entry of the remaining ones. -/
def splitTrivial (e : MemSetEntry) : MemSetEntry × MemSetEntry :=
  ({ e with «end» := e.start },
    { base := e.base + e.stride, stride := e.stride, length := e.length, start := e.start + 1,
      «end» := e.end })

/-- The entry cut before its last `n` instances, and the entry of those. -/
def splitOffEnd (e : MemSetEntry) (n : BitVec 64) : MemSetEntry × MemSetEntry :=
  let remaining := e.getNumInstances - n
  ({ e with «end» := e.end - n },
    { base := e.base + remaining * e.stride, stride := e.stride, length := e.length,
      start := e.start + remaining, «end» := e.end })

/-! ## The references of an entry -/

/-- How many references the entry stands for: `getNumInstances` as a number, and `2 ^ 64` where that
is 0. -/
def instances (e : MemSetEntry) : Nat :=
  (e.end - e.start).toNat + 1

theorem instances_pos (e : MemSetEntry) : 0 < e.instances :=
  Nat.succ_pos _

theorem instances_le (e : MemSetEntry) : e.instances ≤ 2 ^ 64 :=
  (e.end - e.start).isLt

theorem getNumInstances_eq (e : MemSetEntry) :
    e.getNumInstances = BitVec.ofNat 64 e.instances := by
  rw [getNumInstances, instances, BitVec.ofNat_add, BitVec.ofNat_toNat, BitVec.setWidth_eq]
  rfl

theorem toNat_getNumInstances {e : MemSetEntry} (h : e.instances < 2 ^ 64) :
    e.getNumInstances.toNat = e.instances := by
  rw [getNumInstances_eq, BitVec.toNat_ofNat, Nat.mod_eq_of_lt h]

/-- The number of references of an entry whose instance numbers do not wrap around. -/
theorem instances_of_le {e : MemSetEntry} (h : e.start.toNat ≤ e.end.toNat) :
    e.instances = e.end.toNat - e.start.toNat + 1 := by
  rw [instances, BitVec.toNat_sub_of_le (BitVec.le_def.2 h)]

/-- The references the entry stands for, by `getAccessLower` and the length. -/
def accesses (e : MemSetEntry) : List Reference :=
  (List.range e.instances).map fun n =>
    { address := e.getAccessLower n, length := e.length }

theorem accesses_eq_references (e : MemSetEntry) :
    e.accesses = references e.base e.stride e.length e.instances := by
  simp [accesses, references, Lib.progression, getAccessLower]

@[simp] theorem length_accesses (e : MemSetEntry) : e.accesses.length = e.instances := by
  simp [accesses]

/-- The references behind the first `k`. -/
theorem drop_accesses (e : MemSetEntry) {k : Nat} (h : k ≤ e.instances) :
    e.accesses.drop k = references (e.base + BitVec.ofNat 64 k * e.stride) e.stride e.length
      (e.instances - k) := by
  have hsplit := references_add e.base e.stride e.length k (e.instances - k)
  rw [Nat.add_sub_cancel' h, ← accesses_eq_references] at hsplit
  rw [hsplit, List.drop_left' (length_references _ _ _ _)]

end MemSetEntry

/-- All entries have strides that go with their lengths. -/
def Strided (strides : BitVec 64 → BitVec 64 → Prop) (es : List MemSetEntry) : Prop :=
  ∀ e ∈ es, strides e.length e.stride

/-- The instance intervals of the entries follow each other without gap or overlap: the first
starts at `n`, and the last ends just before `m`. -/
def Consecutive (n : Nat) (es : List MemSetEntry) (m : Nat) : Prop :=
  match es with
  | [] => n = m
  | e :: es => e.start.toNat = n ∧ e.start.toNat ≤ e.end.toNat ∧ Consecutive (e.end.toNat + 1) es m

theorem Consecutive.append {n m k : Nat} {es fs : List MemSetEntry} (hes : Consecutive n es m)
    (hfs : Consecutive m fs k) : Consecutive n (es ++ fs) k := by
  induction es generalizing n with
  | nil =>
      have hnm : n = m := by simpa [Consecutive] using hes
      simpa [hnm] using hfs
  | cons e es ih =>
      rcases hes with ⟨hstart, hle, hrest⟩
      exact ⟨hstart, hle, ih hrest⟩

theorem Consecutive.append_iff {n m : Nat} {es fs : List MemSetEntry} :
    Consecutive n (es ++ fs) m ↔ ∃ k, Consecutive n es k ∧ Consecutive k fs m := by
  constructor
  · induction es generalizing n with
    | nil =>
        intro h
        exact ⟨n, rfl, h⟩
    | cons e es ih =>
        rintro ⟨hstart, hle, hrest⟩
        rcases ih hrest with ⟨k, hes, hfs⟩
        exact ⟨k, ⟨hstart, hle, hes⟩, hfs⟩
  · rintro ⟨k, hes, hfs⟩
    exact hes.append hfs

theorem Consecutive.le {n m : Nat} {es : List MemSetEntry} (h : Consecutive n es m) : n ≤ m := by
  induction es generalizing n with
  | nil => exact Nat.le_of_eq h
  | cons e es ih =>
      have hrest := ih h.2.2
      have hstart := h.1
      have hle := h.2.1
      omega

theorem Consecutive.length_accesses {n m : Nat} {es : List MemSetEntry} (h : Consecutive n es m) :
    (es.flatMap MemSetEntry.accesses).length = m - n := by
  induction es generalizing n with
  | nil =>
      have heq : n = m := h
      simp [heq]
  | cons e es ih =>
      rcases h with ⟨rfl, hle, hrest⟩
      have hm := hrest.le
      rw [List.flatMap_cons, List.length_append, ih hrest, MemSetEntry.length_accesses,
        MemSetEntry.instances_of_le hle]
      omega

theorem Consecutive.end_lt {n m : Nat} {es : List MemSetEntry} (h : Consecutive n es m)
    {e : MemSetEntry} (he : e ∈ es) : e.end.toNat < m := by
  induction es generalizing n with
  | nil => cases he
  | cons e' es ih =>
      rcases h with ⟨-, -, hrest⟩
      rcases List.mem_cons.1 he with rfl | he
      · exact hrest.le
      · exact ih hrest he

theorem Consecutive.le_end {n m : Nat} {es : List MemSetEntry} (h : Consecutive n es m)
    {e : MemSetEntry} (he : e ∈ es) : n ≤ e.end.toNat := by
  induction es generalizing n with
  | nil => cases he
  | cons e' es ih =>
      rcases h with ⟨rfl, hle, hrest⟩
      rcases List.mem_cons.1 he with rfl | he
      · exact hle
      · have := ih hrest he
        omega

/-- The last entry ends just before the next instance. -/
theorem Consecutive.getLast {n m : Nat} {es : List MemSetEntry} (h : Consecutive n es m)
    (hne : es ≠ []) : ∃ back, es.getLast? = some back ∧ back.end.toNat + 1 = m := by
  induction es generalizing n with
  | nil => exact absurd rfl hne
  | cons e es ih =>
      rcases h with ⟨-, -, hrest⟩
      cases es with
      | nil => exact ⟨e, rfl, hrest⟩
      | cons e' es =>
          rcases ih hrest (by simp) with ⟨back, hback, hm⟩
          exact ⟨back, by rw [List.getLast?_cons_cons, hback], hm⟩

end CamAlias
