import CamAlias.Memory.MemSetEntry

/-!
# Tracer — the memory tracer

`CAM_mem` records each reference of an instruction in its read set or its write set; a set is a
list of strided patterns that is extended in place while the next address is the predicted one.
A dump appends the sets to one file for each instruction and stream and forgets them.

Addresses, strides, lengths and instance numbers are 64-bit words, so a set tells `2 ^ 64` references
apart.

- `Records`: what a set stands for, kept by every reference that is recorded;
- `expand_recordAll`: a set stands for exactly the references recorded in it, numbered from 0.
-/

namespace CamAlias

structure TracerMemSetEntry where
  base : BitVec 64
  stride : BitVec 64
  length : BitVec 64
  start : BitVec 64
  «end» : BitVec 64
  deriving DecidableEq, Repr

namespace TracerMemSetEntry

/-- `end - start + 1`, which is 0 for the entry of all instance numbers. -/
def getNumInstances (e : TracerMemSetEntry) : BitVec 64 :=
  e.end - e.start + 1

/-- The next address of the pattern. -/
def prediction (e : TracerMemSetEntry) : BitVec 64 :=
  e.base + e.stride * e.getNumInstances

def setStride (e : TracerMemSetEntry) (x : BitVec 64) : TracerMemSetEntry :=
  { e with stride := x }

def incEnd (e : TracerMemSetEntry) : TracerMemSetEntry :=
  { e with «end» := e.end + 1 }

/-- How many references the entry stands for. -/
def instances (e : TracerMemSetEntry) : Nat :=
  (e.end - e.start).toNat + 1

theorem instances_pos (e : TracerMemSetEntry) : 0 < e.instances :=
  Nat.succ_pos _

theorem getNumInstances_eq (e : TracerMemSetEntry) :
    e.getNumInstances = BitVec.ofNat 64 e.instances := by
  rw [getNumInstances, instances, BitVec.ofNat_add, BitVec.ofNat_toNat, BitVec.setWidth_eq]
  rfl

/-- The references the entry stands for. -/
def expand (e : TracerMemSetEntry) : List Reference :=
  references e.base e.stride e.length e.instances

@[simp] theorem length_expand (e : TracerMemSetEntry) : e.expand.length = e.instances := by
  simp [expand]

theorem expand_of_start_eq_end {e : TracerMemSetEntry} (h : e.start = e.end) :
    e.expand = [⟨e.base, e.length⟩] := by
  simp [expand, references, instances, h]

/-- One more instance, unless the instance numbers are used up. -/
theorem instances_incEnd {e : TracerMemSetEntry} (hle : e.start.toNat ≤ e.end.toNat)
    (hlt : e.end.toNat + 1 < 2 ^ 64) : e.incEnd.instances = e.instances + 1 := by
  simp only [instances, incEnd]
  bv_omega

/-- The second reference fixes the stride. -/
theorem expand_setStride_incEnd {e : TracerMemSetEntry} (h : e.start = e.end) (a : BitVec 64) :
    (e.setStride (a - e.base)).incEnd.expand = e.expand ++ [⟨a, e.length⟩] := by
  have hcount : (e.setStride (a - e.base)).incEnd.instances = 2 := by
    simp only [instances, setStride, incEnd, h]
    bv_omega
  have hstride : e.base + (a - e.base) = a := by
    rw [BitVec.add_comm, BitVec.sub_add_cancel]
  rw [expand_of_start_eq_end h, expand, hcount]
  simp [references, setStride, incEnd, Lib.progression_two, hstride]

/-- A later reference extends the pattern when it is the predicted one. -/
theorem expand_incEnd {e : TracerMemSetEntry} (hle : e.start.toNat ≤ e.end.toNat)
    (hlt : e.end.toNat + 1 < 2 ^ 64) : e.incEnd.expand = e.expand ++ [⟨e.prediction, e.length⟩] := by
  have hnext : e.base + BitVec.ofNat 64 e.instances * e.stride = e.prediction := by
    rw [prediction, getNumInstances_eq, BitVec.mul_comm]
  simp only [expand, references, instances_incEnd hle hlt]
  simp [incEnd, Lib.progression_succ, hnext]

end TracerMemSetEntry

/-- A set of patterns, the youngest (`back ()`) first. -/
abbrev TracerMemSet := List TracerMemSetEntry

namespace TracerMemSet

def newMemSetEntry (s : TracerMemSet) (b st l start «end» : BitVec 64) : TracerMemSet :=
  { base := b, stride := st, length := l, start, «end» } :: s

def recordMemoryReference (s : TracerMemSet) (addr len : BitVec 64) : TracerMemSet :=
  match s with
  | [] => newMemSetEntry s addr 0 len 0 0
  | prev :: rest =>
      if prev.length ≠ len then
        newMemSetEntry s addr 0 len (prev.end + 1) (prev.end + 1)
      -- the second reference gives the stride
      else if prev.start = prev.end then
        (prev.setStride (addr - prev.base)).incEnd :: rest
      -- and every further one has to be where it predicts
      else if prev.prediction = addr then
        prev.incEnd :: rest
      else
        newMemSetEntry s addr 0 len (prev.end + 1) (prev.end + 1)

/-- The references the set stands for, oldest first. -/
def expand (s : TracerMemSet) : List Reference :=
  s.reverse.flatMap TracerMemSetEntry.expand

theorem expand_cons (e : TracerMemSetEntry) (s : TracerMemSet) :
    expand (e :: s) = expand s ++ e.expand := by
  simp [expand]

/-- The instance intervals of the set, from the oldest on, cover `0, …, n - 1` one after the
other. -/
def ConsecutiveTo (s : TracerMemSet) (n : Nat) : Prop :=
  match s with
  | [] => n = 0
  | e :: rest => n = e.end.toNat + 1 ∧ e.start.toNat ≤ e.end.toNat ∧ ConsecutiveTo rest e.start.toNat

/-- The set stands for the references `refs`, numbered from 0.  The stride of an entry is fixed by its
second reference. -/
structure Records (s : TracerMemSet) (refs : List Reference) : Prop where
  expand_eq : s.expand = refs
  consecutive : s.ConsecutiveTo refs.length
  open_stride : ∀ e ∈ s, e.start = e.end → e.stride = 0

theorem records_nil : Records [] [] where
  expand_eq := rfl
  consecutive := rfl
  open_stride := by simp

/-- A new entry behind the last one. -/
theorem Records.newMemSetEntry {s : TracerMemSet} {refs : List Reference} (h : Records s refs)
    (addr len n : BitVec 64) (hn : n.toNat = refs.length) :
    Records (newMemSetEntry s addr 0 len n n) (refs ++ [⟨addr, len⟩]) where
  expand_eq := by
    rw [TracerMemSet.newMemSetEntry, expand_cons, h.expand_eq,
      TracerMemSetEntry.expand_of_start_eq_end rfl]
  consecutive := by
    refine ⟨?_, Nat.le_refl _, ?_⟩
    · simp [hn]
    · simpa only [hn] using h.consecutive
  open_stride := List.forall_mem_cons.2 ⟨fun _ => rfl, h.open_stride⟩

/-- The last entry with one more instance. -/
theorem Records.extend {prev e : TracerMemSetEntry} {rest : TracerMemSet} {refs : List Reference}
    {r : Reference} (h : Records (prev :: rest) refs) (hlt : refs.length < 2 ^ 64)
    (hstart : e.start = prev.start) (hend : e.end = prev.end + 1)
    (hexpand : e.expand = prev.expand ++ [r]) : Records (e :: rest) (refs ++ [r]) := by
  rcases h with ⟨hrefs, ⟨hlength, hle, hrest⟩, hopen⟩
  have hnext : e.end.toNat = prev.end.toNat + 1 := by
    rw [hend]
    bv_omega
  refine ⟨?_, ⟨?_, ?_, ?_⟩, List.forall_mem_cons.2 ⟨fun hone => ?_, (List.forall_mem_cons.1 hopen).2⟩⟩
  · rw [expand_cons, hexpand, ← List.append_assoc, ← expand_cons, hrefs]
  · rw [List.length_append, hlength, hnext]
    rfl
  · rw [hstart, hnext]
    omega
  · rwa [hstart]
  · have hnat := congrArg BitVec.toNat hone
    rw [hstart, hnext] at hnat
    omega

/-- Recording one reference appends it to what the set stands for, as long as there are instance
numbers. -/
theorem Records.recordMemoryReference {s : TracerMemSet} {refs : List Reference}
    (h : Records s refs) (addr len : BitVec 64) (hlt : refs.length < 2 ^ 64) :
    Records (recordMemoryReference s addr len) (refs ++ [⟨addr, len⟩]) := by
  cases s with
  | nil =>
      have hempty : refs.length = 0 := h.consecutive
      exact h.newMemSetEntry addr len 0 hempty.symm
  | cons prev rest =>
      rcases h.consecutive with ⟨hlength, hle, -⟩
      have hnew : Records (TracerMemSet.newMemSetEntry (prev :: rest) addr 0 len (prev.end + 1)
          (prev.end + 1)) (refs ++ [⟨addr, len⟩]) := by
        refine h.newMemSetEntry addr len (prev.end + 1) ?_
        bv_omega
      simp only [TracerMemSet.recordMemoryReference]
      by_cases hlen : prev.length = len
      · rw [if_neg (not_not.2 hlen)]
        by_cases hone : prev.start = prev.end
        · -- `prev` has one reference, its stride is still open
          rw [if_pos hone]
          refine h.extend hlt rfl rfl ?_
          rw [TracerMemSetEntry.expand_setStride_incEnd hone, hlen]
        · rw [if_neg hone]
          by_cases hpred : prev.prediction = addr
          · rw [if_pos hpred]
            refine h.extend hlt rfl rfl ?_
            rw [TracerMemSetEntry.expand_incEnd hle (hlength ▸ hlt), hlen, hpred]
          · rw [if_neg hpred]
            exact hnew
      · rw [if_pos hlen]
        exact hnew

/-- The strides of a set are those of its references. -/
theorem Records.strideIn {s : TracerMemSet} {refs : List Reference} (h : Records s refs)
    {e : TracerMemSetEntry} (he : e ∈ s) : StrideIn refs e.length e.stride := by
  by_cases hone : e.start = e.end
  · exact Or.inl (h.open_stride e he hone)
  · have htwo : 2 ≤ e.instances := by
      simp only [TracerMemSetEntry.instances]
      bv_omega
    have hwithin : e.expand <:+: refs := by
      rw [← h.expand_eq, expand]
      exact List.infix_of_mem_flatten (List.mem_map_of_mem (List.mem_reverse.2 he))
    rcases Nat.exists_eq_add_of_le' htwo with ⟨n, hn⟩
    refine StrideIn.mono ?_ hwithin
    rw [TracerMemSetEntry.expand, hn]
    exact strideIn_references _ _ _ n

/-- All references of a stream, recorded one after the other. -/
def recordAll (s : TracerMemSet) (refs : List Reference) : TracerMemSet :=
  refs.foldl (fun s r => s.recordMemoryReference r.address r.length) s

theorem Records.recordAll {s : TracerMemSet} {before : List Reference} (h : Records s before)
    (refs : List Reference) (hle : (before ++ refs).length ≤ 2 ^ 64) :
    Records (s.recordAll refs) (before ++ refs) := by
  induction refs generalizing s before with
  | nil => simpa [TracerMemSet.recordAll] using h
  | cons r refs ih =>
      rw [List.append_cons] at hle ⊢
      refine ih (h.recordMemoryReference r.address r.length ?_) hle
      rw [List.length_append] at hle
      simp only [List.length_append, List.length_cons, List.length_nil] at hle
      omega

/-- The patterns of a set stand for exactly the references recorded in it, numbered from 0, if there
are no more of them than instance numbers. -/
theorem expand_recordAll (refs : List Reference) (hle : refs.length ≤ 2 ^ 64) :
    expand (recordAll [] refs) = refs ∧ ConsecutiveTo (recordAll [] refs) refs.length := by
  have hrecords := records_nil.recordAll refs hle
  exact ⟨hrecords.expand_eq, hrecords.consecutive⟩

/-- Addresses that go up and around the end of the address space, and two lengths. -/
theorem expand_recordAll_wrapped :
    let refs : List Reference := [⟨0xfffffffffffffff8, 8⟩, ⟨0, 8⟩, ⟨8, 8⟩, ⟨40, 4⟩, ⟨16, 8⟩]
    expand (recordAll [] refs) = refs ∧ ConsecutiveTo (recordAll [] refs) refs.length := by
  intro refs
  exact expand_recordAll refs (by decide)

/-- The same reference again and again: one entry, whose last instance number wraps around behind
`2 ^ 64` of them. -/
theorem recordAll_replicate (r : Reference) {n : Nat} (hn : n ≤ 2 ^ 64) :
    recordAll [] (List.replicate (n + 1) r)
      = [⟨r.address, 0, r.length, 0, BitVec.ofNat 64 n⟩] := by
  induction n with
  | zero => rfl
  | succ n ih =>
      have hlast : recordAll [] (List.replicate (n + 1 + 1) r)
          = (recordAll [] (List.replicate (n + 1) r)).recordMemoryReference r.address r.length := by
        rw [List.replicate_succ', recordAll, List.foldl_append]
        rfl
      rw [hlast, ih (by omega)]
      have hnext : BitVec.ofNat 64 n + 1#64 = BitVec.ofNat 64 (n + 1) := (BitVec.ofNat_add n 1).symm
      simp only [recordMemoryReference, ne_eq, not_true_eq_false, if_false]
      by_cases hfirst : (0 : BitVec 64) = BitVec.ofNat 64 n
      · rw [if_pos hfirst]
        simp [TracerMemSetEntry.setStride, TracerMemSetEntry.incEnd, hnext]
      · rw [if_neg hfirst]
        simp [TracerMemSetEntry.prediction, TracerMemSetEntry.incEnd, hnext]

/-- One reference more than there are instance numbers: the entry stands for the first one only. -/
theorem not_expand_recordAll :
    ∃ refs : List Reference, refs.length = 2 ^ 64 + 1 ∧ recordAll [] refs = [⟨100, 0, 8, 0, 0⟩] ∧
      ¬ (expand (recordAll [] refs) = refs ∧ ConsecutiveTo (recordAll [] refs) refs.length) := by
  have hset := recordAll_replicate ⟨100, 8⟩ (Nat.le_refl (2 ^ 64))
  have hlength : (List.replicate (2 ^ 64 + 1) (⟨100, 8⟩ : Reference)).length = 2 ^ 64 + 1 :=
    List.length_replicate
  refine ⟨List.replicate (2 ^ 64 + 1) ⟨100, 8⟩, hlength, hset, ?_⟩
  rintro ⟨hexpand, -⟩
  have hlen := congrArg List.length hexpand
  rw [hset, hlength] at hlen
  simp [expand, TracerMemSetEntry.instances] at hlen

end TracerMemSet
end CamAlias
