import CamAlias.Analyser.InstanceLut
import CamAlias.Analyser.CallTrace
import CamAlias.Memory.MemSetEntry

/-!
# Slice — the accesses of an invocation cut at its iterations

`MemSet::getInvocationSliceWithIterTags` of `static_inst_rec.cpp` walks along the entries of a
memory trace and along the iterations of an invocation (or the call instances of the call trace
cache), and cuts the entries where an iteration ends.  Both of its branches cut by the same loop
(`fillBlock`), one block of instances after the other.

* `fillBlock_eq`: a block takes the next instances and tags them;
* `getInvocationSliceWithIterTags_eq`: nothing is lost, and every entry lies in one block.
-/

namespace CamAlias

open Lib

/-- Subtraction of `uint64_t`. -/
def sub64 (a b : Nat) : Nat :=
  (a + (2 ^ 64 - b)) % 2 ^ 64

theorem sub64_of_le {a b : Nat} (hle : b ≤ a) (hlt : a < 2 ^ 64) : sub64 a b = a - b := by
  simp only [sub64]
  omega

/-- `MemSetEntry::getSlice`, with its `assert`. -/
def MemSetEntry.getSlice (e : MemSetEntry) (s t : BitVec 64) : Except Fault MemSetEntry :=
  if e.start ≤ s ∧ t ≤ e.end ∧ s ≤ t then
    .ok { base := e.base + (s - e.start) * e.stride, stride := e.stride,
          length := e.length, start := s, «end» := t }
  else .error .assertFailed

/-- `MemSet`: the entries, the slice iterator as an index, and the instances of the entry under it
that have not been handed out. -/
structure MemSet where
  entries : List MemSetEntry
  sliceIterator : Nat
  outstandingInstances : Nat

/-- `getNumInstancesFromCII`. -/
def CallTraceInstructionCacheEntry.getNumInstances (c : CallTraceInstructionCacheEntry) : Nat :=
  (sub64 c.end c.start + 1) % 2 ^ 64

/-- The instances of one iteration, or of one call instance: their number and their tags. -/
structure Block where
  iterationNumber : Nat
  effectiveInstrID : UInt64
  instances : Nat

namespace MemSet

/-- `MemSet::initialiseSliceIterator`. -/
def initialiseSliceIterator (set : MemSet) : MemSet :=
  { set with
    sliceIterator := 0
    outstandingInstances := match set.entries with
      | [] => 0
      | e :: _ => e.getNumInstances.toNat }

/-- The variables of the loops: what has been cut, `sliceIterator` and
`memsetRemainingInstances`. -/
structure SliceState where
  slice : List MemSetEntry
  sliceIterator : Nat
  memsetRemainingInstances : Nat

variable (entries : List MemSetEntry)

/-- `if (memsetRemainingInstances == 0) sliceIterator++`. -/
def advance (sliceIterator remaining : Nat) (slice : List MemSetEntry) : SliceState :=
  if remaining = 0 then
    { slice
      sliceIterator := sliceIterator + 1
      memsetRemainingInstances := match entries[sliceIterator + 1]? with
        | none => 0
        | some e => e.getNumInstances.toNat }
  else { slice, sliceIterator, memsetRemainingInstances := remaining }

/-- One round of the inner loop: the number of instances consumed, and the new state. -/
def sliceEntry (b : Block) (consumed : Nat) (st : SliceState) : Except Fault (Nat × SliceState) :=
  match entries[st.sliceIterator]? with
  | none => .error .outOfRange
  | some e =>
      -- the instances are counted from the end of the entry, in `uint64_t`
      let startInstance := (sub64 e.end.toNat st.memsetRemainingInstances + 1) % 2 ^ 64
      let endInstance :=
        if b.instances - consumed < st.memsetRemainingInstances then
          (startInstance + (b.instances - consumed) - 1) % 2 ^ 64
        else e.end.toNat
      let instancesConsumed := (sub64 endInstance startInstance + 1) % 2 ^ 64
      match e.getSlice (BitVec.ofNat 64 startInstance) (BitVec.ofNat 64 endInstance) with
      | .error f => .error f
      | .ok newEntry =>
          let newEntry := { newEntry with
            iterationNumber := b.iterationNumber
            effectiveInstrID := b.effectiveInstrID }
          .ok (consumed + instancesConsumed,
            advance entries st.sliceIterator
              (sub64 st.memsetRemainingInstances instancesConsumed) (st.slice ++ [newEntry]))

/-- `while (consumed < instances)`, and the `assert` behind it. -/
def fillBlock (b : Block) : Nat → Nat → SliceState → Except Fault SliceState
  | fuel, consumed, st =>
      if consumed < b.instances then
        match fuel with
        | 0 => .error .noFuel
        | fuel + 1 =>
            match sliceEntry entries b consumed st with
            | .error f => .error f
            | .ok (consumed', st') => fillBlock b fuel consumed' st'
      else if consumed = b.instances then .ok st
      else .error .assertFailed

/-- The outer loop, over iterations or over entries of the call trace cache. -/
def fillBlocks {β : Type _} (block : β → Except Fault Block) (fuel : Nat) :
    List β → SliceState → Except Fault SliceState
  | [], st => .ok st
  | x :: xs, st =>
      match block x with
      | .error f => .error f
      | .ok b =>
          match fillBlock entries b fuel 0 st with
          | .error f => .error f
          | .ok st' => fillBlocks block fuel xs st'

variable (instrID : UInt64) (invGroup : InvocationGroupCfc)

/-- The block of an iteration. -/
def iterationBlock (i : Nat × IterationGroupCfc) : Block where
  iterationNumber := i.1
  effectiveInstrID := instrID
  instances := i.2.getNumberOfInstancesInSingleIteration instrID

/-- The block of a call instance. -/
def callBlock (c : CallTraceInstructionCacheEntry) : Except Fault Block :=
  match invGroup.getIterationNumber c.callID c.callInstance with
  | .error f => .error f
  | .ok iter =>
      .ok { iterationNumber := iter, effectiveInstrID := c.callID, instances := c.getNumInstances }

/-- `MemSet::getInvocationSliceWithIterTags`: the slice, and the set with its new position. -/
def getInvocationSliceWithIterTags (fuel : Nat) (set : MemSet)
    (invocCallTrace : CallTraceLoopInvocationGroup) : Except Fault (List MemSetEntry × MemSet) :=
  let st : SliceState :=
    { slice := [], sliceIterator := set.sliceIterator,
      memsetRemainingInstances := set.outstandingInstances }
  let done :=
    -- an instruction of the loop: its instances iteration by iteration
    if invGroup.containsInstruction instrID then
      match invGroup.collectIterations fuel with
      | .error f => .error f
      | .ok its => fillBlocks set.entries (fun i => .ok (iterationBlock instrID i)) fuel its st
    else
      fillBlocks set.entries (callBlock invGroup) fuel
        (invocCallTrace.callTraceCache[instrID]?.getD []) st
  match done with
  | .error f => .error f
  | .ok st =>
      .ok (st.slice, { set with
        sliceIterator := st.sliceIterator
        outstandingInstances := st.memsetRemainingInstances })

/-! ## One block -/

/-- The references that have not been handed out. -/
def pending (st : SliceState) : List Reference :=
  match entries[st.sliceIterator]? with
  | none => []
  | some e =>
      e.accesses.drop (e.instances - st.memsetRemainingInstances)
        ++ (entries.drop (st.sliceIterator + 1)).flatMap MemSetEntry.accesses

/-- The iterator stands at the end, or on an entry that has instances left. -/
def Ready (st : SliceState) : Prop :=
  match entries[st.sliceIterator]? with
  | none => st.memsetRemainingInstances = 0
  | some e => 0 < st.memsetRemainingInstances ∧ st.memsetRemainingInstances ≤ e.instances

/-- The entries are ranges of instance numbers, and their sizes do not wrap around. -/
def Proper : Prop :=
  ∀ e ∈ entries, e.start.toNat ≤ e.end.toNat ∧ e.instances < 2 ^ 64

variable {entries}

theorem pending_advance_zero (hproper : Proper entries) (i : Nat) (slice : List MemSetEntry) :
    pending entries (advance entries i 0 slice)
      = (entries.drop (i + 1)).flatMap MemSetEntry.accesses := by
  cases hi : entries[i + 1]? with
  | none =>
      have hdrop : entries.drop (i + 1) = [] :=
        List.drop_eq_nil_of_le (List.getElem?_eq_none_iff.1 hi)
      simp [pending, advance, hi, hdrop]
  | some e =>
      have hsize := (hproper e (List.mem_of_getElem? hi)).2
      rcases List.getElem?_eq_some_iff.1 hi with ⟨hlt, rfl⟩
      rw [List.drop_eq_getElem_cons hlt, List.flatMap_cons]
      simp only [pending, advance, if_pos, hi, MemSetEntry.toNat_getNumInstances hsize, Nat.sub_self,
        List.drop_zero]

theorem ready_advance_zero (hproper : Proper entries) (i : Nat) (slice : List MemSetEntry) :
    Ready entries (advance entries i 0 slice) := by
  cases hi : entries[i + 1]? with
  | none => simp [Ready, advance, hi]
  | some e =>
      have hsize := (hproper e (List.mem_of_getElem? hi)).2
      simp [Ready, advance, hi, MemSetEntry.toNat_getNumInstances hsize, e.instances_pos]

/-- One round takes the next instances, as many as the entry and the block both have. -/
theorem sliceEntry_eq (hproper : Proper entries) {b : Block} {consumed : Nat} {st : SliceState}
    (hst : Ready entries st) (hlt : consumed < b.instances) (hpending : pending entries st ≠ []) :
    ∃ e st', sliceEntry entries b consumed st = .ok (consumed + e.instances, st') ∧
      st'.slice = st.slice ++ [e] ∧ e.iterationNumber = b.iterationNumber ∧
      e.effectiveInstrID = b.effectiveInstrID ∧ e.instances ≤ b.instances - consumed ∧
      pending entries st = e.accesses ++ pending entries st' ∧ Ready entries st' := by
  rcases st with ⟨slice, i, r⟩
  cases hi : entries[i]? with
  | none =>
      simp only [pending, hi] at hpending
      exact absurd rfl hpending
  | some e =>
      have he := hproper e (List.mem_of_getElem? hi)
      simp only [Ready, hi] at hst
      have hnum := MemSetEntry.instances_of_le he.1
      have hbound := e.end.isLt
      -- the number of instances taken
      obtain ⟨n, hn⟩ : ∃ n, n = min (b.instances - consumed) r := ⟨_, rfl⟩
      let new : MemSetEntry :=
        { base := e.base + BitVec.ofNat 64 (e.instances - r) * e.stride, stride := e.stride,
          length := e.length, start := BitVec.ofNat 64 (e.end.toNat + 1 - r)
          «end» := BitVec.ofNat 64 (e.end.toNat + 1 - r + n - 1)
          iterationNumber := b.iterationNumber, effectiveInstrID := b.effectiveInstrID }
      have hfirst : (BitVec.ofNat 64 (e.end.toNat + 1 - r)).toNat = e.end.toNat + 1 - r := by
        rw [BitVec.toNat_ofNat, Nat.mod_eq_of_lt (by omega)]
      have hlast : (BitVec.ofNat 64 (e.end.toNat + 1 - r + n - 1)).toNat
          = e.end.toNat + 1 - r + n - 1 := by
        rw [BitVec.toNat_ofNat, Nat.mod_eq_of_lt (by omega)]
      have hnew : new.instances = n := by
        rw [MemSetEntry.instances_of_le (by simp only [new, hfirst, hlast]; omega)]
        simp only [new, hfirst, hlast]
        omega
      have hstart : (sub64 e.end.toNat r + 1) % 2 ^ 64 = e.end.toNat + 1 - r := by
        simp only [sub64]
        omega
      have hend : (if b.instances - consumed < r then
          (e.end.toNat + 1 - r + (b.instances - consumed) - 1) % 2 ^ 64 else e.end.toNat)
            = e.end.toNat + 1 - r + n - 1 := by
        split
        · omega
        · omega
      have hconsumed : (sub64 (e.end.toNat + 1 - r + n - 1) (e.end.toNat + 1 - r) + 1) % 2 ^ 64
          = n := by
        rw [sub64_of_le (by omega) (by omega)]
        omega
      have hslice : e.getSlice (BitVec.ofNat 64 (e.end.toNat + 1 - r))
            (BitVec.ofNat 64 (e.end.toNat + 1 - r + n - 1))
          = .ok { new with iterationNumber := 0, effectiveInstrID := 0 } := by
        have hoff : BitVec.ofNat 64 (e.end.toNat + 1 - r) - e.start
            = BitVec.ofNat 64 (e.instances - r) := by
          apply BitVec.eq_of_toNat_eq
          rw [BitVec.toNat_sub_of_le (BitVec.le_def.2 (by omega)), hfirst, BitVec.toNat_ofNat,
            Nat.mod_eq_of_lt (by omega)]
          omega
        rw [MemSetEntry.getSlice, hoff, if_pos]
        simp only [BitVec.le_def, hfirst, hlast]
        omega
      have hleft : sub64 r n = r - n := sub64_of_le (by omega) (by omega)
      have hstep : sliceEntry entries b consumed ⟨slice, i, r⟩
          = .ok (consumed + n, advance entries i (r - n) (slice ++ [new])) := by
        simp only [sliceEntry, hi, hstart, hend, hconsumed, hslice, hleft]
        rfl
      have hdrop := e.drop_accesses (k := e.instances - r) (by omega)
      have hback : e.instances - (e.instances - r) = n + (r - n) := by omega
      rw [hback, references_add] at hdrop
      have hnewacc : new.accesses
          = references (e.base + BitVec.ofNat 64 (e.instances - r) * e.stride) e.stride
              e.length n := by
        rw [MemSetEntry.accesses_eq_references, hnew]
      refine ⟨new, _, by rw [hstep, hnew], ?_, rfl, rfl, by omega, ?_, ?_⟩
      · simp only [advance]
        split
        · rfl
        · rfl
      · by_cases hzero : r - n = 0
        · rw [hzero, pending_advance_zero hproper]
          simp only [pending, hi, hdrop, hzero, ← hnewacc]
          simp [references]
        · have hkept : e.accesses.drop (e.instances - (r - n))
              = (e.accesses.drop (e.instances - r)).drop n := by
            rw [List.drop_drop]
            congr 1
            omega
          simp only [pending, hi, advance, if_neg hzero, hkept, hdrop, ← hnewacc]
          rw [List.drop_left' (by simp [hnew]), List.append_assoc]
      · by_cases hzero : r - n = 0
        · rw [hzero]
          exact ready_advance_zero hproper i _
        · simp only [Ready, advance, if_neg hzero, hi]
          omega

theorem shape_getSlice {e new : MemSetEntry} {s t : BitVec 64} (h : e.getSlice s t = .ok new) :
    new.length = e.length ∧ new.stride = e.stride := by
  rw [MemSetEntry.getSlice] at h
  split at h
  · rcases Except.ok.inj h with rfl
    exact ⟨rfl, rfl⟩
  · cases h

/-- A slice has the strides of its set. -/
theorem strided_sliceEntry {strides : BitVec 64 → BitVec 64 → Prop} (hentries : Strided strides entries)
    {b : Block} {consumed n : Nat} {st st' : SliceState}
    (h : sliceEntry entries b consumed st = .ok (n, st')) (hst : Strided strides st.slice) :
    Strided strides st'.slice := by
  unfold sliceEntry at h
  split at h
  · cases h
  · rename_i e he
    simp only at h
    split at h
    · cases h
    · rename_i new hnew
      rcases shape_getSlice hnew with ⟨hlength, hstride⟩
      rcases Prod.mk.inj (Except.ok.inj h) with ⟨-, rfl⟩
      have hslice : ∀ (i r : Nat) (slice : List MemSetEntry),
          (advance entries i r slice).slice = slice := by
        intro i r slice
        rw [advance]
        split
        · rfl
        · rfl
      rw [hslice]
      intro x hx
      rcases List.mem_append.1 hx with hx | hx
      · exact hst x hx
      · rcases List.mem_singleton.1 hx with rfl
        have hold := hentries e (List.mem_of_getElem? he)
        rwa [← hlength, ← hstride] at hold

theorem strided_fillBlock {strides : BitVec 64 → BitVec 64 → Prop} (hentries : Strided strides entries)
    {b : Block} (fuel : Nat) : ∀ {consumed : Nat} {st st' : SliceState},
      fillBlock entries b fuel consumed st = .ok st' → Strided strides st.slice →
        Strided strides st'.slice := by
  induction fuel with
  | zero =>
      intro consumed st st' h hst
      unfold fillBlock at h
      split at h
      · cases h
      · split at h
        · rwa [← Except.ok.inj h]
        · cases h
  | succ fuel ih =>
      intro consumed st st' h hst
      unfold fillBlock at h
      split at h
      · simp only at h
        split at h
        · cases h
        · rename_i hentry
          exact ih h (strided_sliceEntry hentries hentry hst)
      · split at h
        · rwa [← Except.ok.inj h]
        · cases h

theorem strided_fillBlocks {strides : BitVec 64 → BitVec 64 → Prop} (hentries : Strided strides entries)
    {β : Type _} {block : β → Except Fault Block} {fuel : Nat} (xs : List β) :
    ∀ {st st' : SliceState}, fillBlocks entries block fuel xs st = .ok st' →
      Strided strides st.slice → Strided strides st'.slice := by
  induction xs with
  | nil =>
      intro st st' h hst
      rwa [← Except.ok.inj h]
  | cons x xs ih =>
      intro st st' h hst
      rw [fillBlocks] at h
      split at h
      · cases h
      · split at h
        · cases h
        · rename_i hfill
          exact ih h (strided_fillBlock hentries fuel hfill hst)

/-- Behind the last instance there is no entry to take one from. -/
theorem sliceEntry_of_pending_nil {b : Block} {consumed : Nat} {st : SliceState}
    (hst : Ready entries st) (hpending : pending entries st = []) :
    sliceEntry entries b consumed st = .error .outOfRange := by
  cases hi : entries[st.sliceIterator]? with
  | none => simp only [sliceEntry, hi]
  | some e =>
      simp only [Ready, hi] at hst
      simp only [pending, hi, List.append_eq_nil_iff] at hpending
      have hlen := congrArg List.length hpending.1
      simp only [List.length_drop, MemSetEntry.length_accesses, List.length_nil] at hlen
      omega

/-- The number of instances in some entries. -/
def total (es : List MemSetEntry) : Nat :=
  (es.map MemSetEntry.instances).sum

@[simp] theorem total_nil : total [] = 0 := rfl

@[simp] theorem total_cons (e : MemSetEntry) (es : List MemSetEntry) :
    total (e :: es) = e.instances + total es := by
  simp [total]

@[simp] theorem total_append (es fs : List MemSetEntry) :
    total (es ++ fs) = total es + total fs := by
  simp [total]

theorem length_flatMap_accesses (es : List MemSetEntry) :
    (es.flatMap MemSetEntry.accesses).length = total es := by
  simp [total, List.length_flatMap]

/-- The entries hold the instances of a block, under its tags. -/
structure Fills (b : Block) (part : List MemSetEntry) : Prop where
  total_eq : total part = b.instances
  iteration : ∀ e ∈ part, e.iterationNumber = b.iterationNumber
  instruction : ∀ e ∈ part, e.effectiveInstrID = b.effectiveInstrID

/-- The loop ends, and the entries it adds hold the next instances under the tags of the block. -/
theorem fillBlock_eq (hproper : Proper entries) {b : Block} (fuel : Nat) :
    ∀ (consumed : Nat) (st : SliceState), Ready entries st → consumed ≤ b.instances →
      b.instances - consumed ≤ (pending entries st).length → b.instances - consumed ≤ fuel →
      ∃ part st', fillBlock entries b fuel consumed st = .ok st' ∧
        st'.slice = st.slice ++ part ∧
        Fills { b with instances := b.instances - consumed } part ∧
        pending entries st = part.flatMap MemSetEntry.accesses ++ pending entries st' ∧
        Ready entries st' := by
  induction fuel with
  | zero =>
      intro consumed st hst hle _ hfuel
      have heq : consumed = b.instances := by omega
      refine ⟨[], st, ?_, by simp, ⟨by simp [heq], by simp, by simp⟩, by simp, hst⟩
      simp [fillBlock, heq]
  | succ fuel ih =>
      intro consumed st hst hle hpending hfuel
      -- an entry is taken as long as the block has instances left
      by_cases hlt : consumed < b.instances
      · have hne : pending entries st ≠ [] := List.ne_nil_of_length_pos (by omega)
        rcases sliceEntry_eq hproper hst hlt hne with
          ⟨e, st', hstep, hslice, hiter, hinstr, hnum, hsplit, hst'⟩
        have hpos := e.instances_pos
        have hlen := congrArg List.length hsplit
        simp only [List.length_append, MemSetEntry.length_accesses] at hlen
        rcases ih (consumed + e.instances) st' hst' (by omega) (by omega) (by omega) with
          ⟨part, st'', hrest, hslice', hfills, hsplit', hst''⟩
        refine ⟨e :: part, st'', ?_, ?_, ⟨?_, ?_, ?_⟩, ?_, hst''⟩
        · simp only [fillBlock, if_pos hlt, hstep, hrest]
        · rw [hslice', hslice, List.append_assoc, List.singleton_append]
        · have htotal := hfills.total_eq
          simp only at htotal
          simp only [total_cons, htotal]
          omega
        · exact List.forall_mem_cons.2 ⟨hiter, hfills.iteration⟩
        · exact List.forall_mem_cons.2 ⟨hinstr, hfills.instruction⟩
        · rw [hsplit, hsplit', List.flatMap_cons, List.append_assoc]
      · have heq : consumed = b.instances := by omega
        refine ⟨[], st, ?_, by simp, ⟨by simp [heq], by simp, by simp⟩, by simp, hst⟩
        simp [fillBlock, heq]

/-- The loop does not end with fewer instances than the block has. -/
theorem fillBlock_short (hproper : Proper entries) {b : Block} (fuel : Nat) :
    ∀ (consumed : Nat) (st : SliceState), Ready entries st →
      (pending entries st).length < b.instances - consumed →
      ∃ f, fillBlock entries b fuel consumed st = .error f := by
  induction fuel with
  | zero =>
      intro consumed st _ hshort
      have hlt : consumed < b.instances := by omega
      exact ⟨.noFuel, by simp only [fillBlock, if_pos hlt]⟩
  | succ fuel ih =>
      intro consumed st hst hshort
      have hlt : consumed < b.instances := by omega
      by_cases hnil : pending entries st = []
      · exact ⟨.outOfRange, by
          simp only [fillBlock, if_pos hlt, sliceEntry_of_pending_nil hst hnil]⟩
      · rcases sliceEntry_eq hproper hst hlt hnil with
          ⟨e, st', hstep, -, -, -, hnum, hsplit, hst'⟩
        have hlen := congrArg List.length hsplit
        simp only [List.length_append, MemSetEntry.length_accesses] at hlen
        rcases ih (consumed + e.instances) st' hst' (by omega) with ⟨f, hf⟩
        exact ⟨f, by simp only [fillBlock, if_pos hlt, hstep, hf]⟩

/-! ## All blocks -/

/-- Every block gets the next instances. -/
theorem fillBlocks_eq (hproper : Proper entries) {β : Type _} {block : β → Except Fault Block}
    {B : β → Block} (fuel : Nat) (xs : List β) :
    ∀ st : SliceState, Ready entries st → (∀ x ∈ xs, block x = .ok (B x)) →
      (xs.map fun x => (B x).instances).sum ≤ (pending entries st).length →
      (pending entries st).length ≤ fuel →
      ∃ parts st', fillBlocks entries block fuel xs st = .ok st' ∧
        st'.slice = st.slice ++ parts.flatten ∧
        List.Forall₂ (fun x part => Fills (B x) part) xs parts ∧
        pending entries st = parts.flatten.flatMap MemSetEntry.accesses ++ pending entries st' ∧
        Ready entries st' := by
  induction xs with
  | nil =>
      intro st hst _ _ _
      exact ⟨[], st, rfl, by simp, List.Forall₂.nil, by simp, hst⟩
  | cons x xs ih =>
      intro st hst hblock hsum hfuel
      simp only [List.map_cons, List.sum_cons] at hsum
      rcases fillBlock_eq hproper (b := B x) fuel 0 st hst (Nat.zero_le _) (by omega) (by omega)
        with ⟨part, st', hfill, hslice, hfills, hsplit, hst'⟩
      have hlen := congrArg List.length hsplit
      have htotal : total part = (B x).instances := hfills.total_eq
      simp only [List.length_append, length_flatMap_accesses] at hlen
      rcases ih st' hst' (fun y hy => hblock y (List.mem_cons_of_mem _ hy)) (by omega) (by omega)
        with ⟨parts, st'', hrest, hslice', hparts, hsplit', hst''⟩
      refine ⟨part :: parts, st'', ?_, ?_, List.Forall₂.cons hfills hparts, ?_, hst''⟩
      · simp only [fillBlocks, hblock x List.mem_cons_self, hfill, hrest]
      · rw [hslice', hslice, List.flatten_cons, List.append_assoc]
      · rw [hsplit, hsplit', List.flatten_cons, List.flatMap_append, List.append_assoc]

/-- There is no slice if the blocks have more instances than the set. -/
theorem fillBlocks_short (hproper : Proper entries) {β : Type _} {block : β → Except Fault Block}
    {B : β → Block} (fuel : Nat) (xs : List β) :
    ∀ st : SliceState, Ready entries st → (∀ x ∈ xs, block x = .ok (B x)) →
      (pending entries st).length < (xs.map fun x => (B x).instances).sum →
      (pending entries st).length ≤ fuel →
      ∃ f, fillBlocks entries block fuel xs st = .error f := by
  induction xs with
  | nil =>
      intro st _ _ hshort _
      exact absurd hshort (Nat.not_lt_zero _)
  | cons x xs ih =>
      intro st hst hblock hshort hfuel
      have hx := hblock x List.mem_cons_self
      simp only [List.map_cons, List.sum_cons] at hshort
      by_cases hle : (B x).instances ≤ (pending entries st).length
      · rcases fillBlock_eq hproper (b := B x) fuel 0 st hst (Nat.zero_le _) hle
          (Nat.le_trans hle hfuel) with ⟨part, st', hfill, -, hfills, hsplit, hst'⟩
        have hlen := congrArg List.length hsplit
        have htotal : total part = (B x).instances := hfills.total_eq
        simp only [List.length_append, length_flatMap_accesses] at hlen
        rcases ih st' hst' (fun y hy => hblock y (List.mem_cons_of_mem _ hy)) (by omega)
          (by omega) with ⟨f, hf⟩
        exact ⟨f, by simp only [fillBlocks, hx, hfill, hf]⟩
      · rcases fillBlock_short hproper (b := B x) fuel 0 st hst (Nat.not_le.1 hle) with ⟨f, hf⟩
        exact ⟨f, by simp only [fillBlocks, hx, hf]⟩

/-- An entry of the slice lies in one block: the instances before it and after it are counted by
the blocks before and after that one. -/
theorem exists_block {β : Type _} {B : β → Block} {xs : List β} {parts : List (List MemSetEntry)}
    (h : List.Forall₂ (fun x part => Fills (B x) part) xs parts) :
    ∀ (i : Nat) (e : MemSetEntry), parts.flatten[i]? = some e → ∃ n x, xs[n]? = some x ∧
      e.iterationNumber = (B x).iterationNumber ∧ e.effectiveInstrID = (B x).effectiveInstrID ∧
      ((xs.take n).map fun x => (B x).instances).sum ≤ total (parts.flatten.take i) ∧
      total (parts.flatten.take (i + 1))
        ≤ ((xs.take (n + 1)).map fun x => (B x).instances).sum := by
  induction h with
  | nil => simp
  | @cons x part xs parts hfills hparts ih =>
      intro i e he
      rw [List.flatten_cons] at he ⊢
      by_cases hi : i < part.length
      · rw [List.getElem?_append_left hi] at he
        have hmem := List.mem_of_getElem? he
        refine ⟨0, x, rfl, hfills.iteration e hmem, hfills.instruction e hmem, by simp, ?_⟩
        rw [List.take_append_of_le_length (by omega)]
        have hsplit := congrArg total (List.take_append_drop (i + 1) part)
        rw [total_append, hfills.total_eq] at hsplit
        simp only [Nat.zero_add, List.take_succ_cons, List.take_zero, List.map_cons, List.map_nil,
          List.sum_cons, List.sum_nil]
        omega
      · rw [List.getElem?_append_right (by omega)] at he
        rcases ih (i - part.length) e he with ⟨n, y, hy, hiter, hinstr, hbefore, hafter⟩
        have htake : ∀ k, i ≤ k → (part ++ parts.flatten).take k
            = part ++ parts.flatten.take (k - part.length) := by
          intro k hk
          rw [List.take_append, List.take_of_length_le (show part.length ≤ k by omega)]
        have hnext : i + 1 - part.length = i - part.length + 1 := by omega
        refine ⟨n + 1, y, hy, hiter, hinstr, ?_, ?_⟩
        · rw [htake i (Nat.le_refl _), total_append, hfills.total_eq]
          simpa using hbefore
        · rw [htake (i + 1) (Nat.le_succ _), total_append, hfills.total_eq, hnext]
          simpa using hafter

/-! ## The whole slice -/

/-- The entries of a call trace cache follow each other from `lo` up to `hi`. -/
def CacheTiles (lo : Nat) (cache : List CallTraceInstructionCacheEntry) (hi : Nat) : Prop :=
  match cache with
  | [] => lo = hi
  | c :: cache => c.start = lo ∧ c.start ≤ c.end ∧ CacheTiles (c.end + 1) cache hi

theorem CacheTiles.le {cache : List CallTraceInstructionCacheEntry} {lo hi : Nat}
    (h : CacheTiles lo cache hi) : lo ≤ hi := by
  induction cache generalizing lo with
  | nil => exact Nat.le_of_eq h
  | cons c cache ih =>
      have hle := ih h.2.2
      have := h.1
      have := h.2.1
      omega

/-- The instances before and after an entry of the cache. -/
theorem CacheTiles.sum_take {cache : List CallTraceInstructionCacheEntry} {lo hi : Nat}
    (h : CacheTiles lo cache hi) (hhi : hi < 2 ^ 64) :
    lo + (cache.map fun c => c.getNumInstances).sum = hi ∧
      ∀ n c, cache[n]? = some c →
        lo + ((cache.take n).map fun c => c.getNumInstances).sum = c.start ∧
        lo + ((cache.take (n + 1)).map fun c => c.getNumInstances).sum = c.end + 1 := by
  induction cache generalizing lo with
  | nil => exact ⟨h, by simp⟩
  | cons c cache ih =>
      rcases h with ⟨hstart, hle, hrest⟩
      have hend := hrest.le
      rcases ih hrest with ⟨hsum, htake⟩
      have hnum : c.getNumInstances = c.end + 1 - lo := by
        rw [CallTraceInstructionCacheEntry.getNumInstances, sub64_of_le hle (by omega)]
        omega
      refine ⟨by simp only [List.map_cons, List.sum_cons]; omega, ?_⟩
      intro n c' hc'
      cases n with
      | zero =>
          have heq : c = c' := by simpa using hc'
          subst heq
          refine ⟨by simpa using hstart.symm, ?_⟩
          simp only [Nat.zero_add, List.take_succ_cons, List.take_zero, List.map_cons,
            List.map_nil, List.sum_cons, List.sum_nil]
          omega
      | succ n =>
          rcases htake n c' (by simpa using hc') with ⟨hbefore, hafter⟩
          simp only [List.take_succ_cons, List.map_cons, List.sum_cons]
          omega

/-- Instance `j` belongs to a block: an iteration of the loop trace or, for an instruction that is
not in the loop itself, an entry of the call trace cache. -/
inductive AssignedTo (inv : InvocationGroupCfc) (cache : List CallTraceInstructionCacheEntry)
    (instrID : UInt64) (j : Nat) : Nat → Nat → UInt64 → Prop
  | iteration {k : Nat} (hloop : inv.precomputeDataStructures.containsInstruction instrID = true)
      (hk : InBlock (inv.instancesIn instrID) k j) : AssignedTo inv cache instrID j k k instrID
  | call {n iter : Nat} {c : CallTraceInstructionCacheEntry}
      (hsub : inv.precomputeDataStructures.containsInstruction instrID = false)
      (hc : cache[n]? = some c) (hstart : c.start ≤ j) (hend : j ≤ c.end)
      (hiter : inv.precomputeDataStructures.getIterationNumber c.callID c.callInstance = .ok iter) :
      AssignedTo inv cache instrID j n iter c.callID

theorem ready_initialise {set : MemSet} (hproper : Proper set.entries) (slice : List MemSetEntry) :
    Ready set.entries ⟨slice, set.initialiseSliceIterator.sliceIterator,
      set.initialiseSliceIterator.outstandingInstances⟩ := by
  cases h : set.entries with
  | nil => simp [Ready, initialiseSliceIterator, h]
  | cons e es =>
      have hsize := (hproper e (by simp [h])).2
      simp [Ready, initialiseSliceIterator, h, MemSetEntry.toNat_getNumInstances hsize,
        e.instances_pos]

theorem pending_initialise {set : MemSet} (hproper : Proper set.entries)
    (slice : List MemSetEntry) :
    pending set.entries ⟨slice, set.initialiseSliceIterator.sliceIterator,
      set.initialiseSliceIterator.outstandingInstances⟩
        = set.entries.flatMap MemSetEntry.accesses := by
  cases h : set.entries with
  | nil => simp [pending, initialiseSliceIterator, h]
  | cons e es =>
      have hsize := (hproper e (by simp [h])).2
      simp [pending, initialiseSliceIterator, h, MemSetEntry.toNat_getNumInstances hsize]

theorem total_of_consecutive {es : List MemSetEntry} {n m : Nat} (h : Consecutive n es m) :
    n + total es = m := by
  induction es generalizing n with
  | nil => exact h
  | cons e es ih =>
      rcases h with ⟨hstart, hle, hrest⟩
      have hsum := ih hrest
      rw [total_cons, MemSetEntry.instances_of_le hle]
      omega

theorem proper_of_consecutive {es : List MemSetEntry} {n m : Nat} (h : Consecutive n es m)
    (htotal : total es < 2 ^ 64) : Proper es := by
  induction es generalizing n with
  | nil => simp [Proper]
  | cons e es ih =>
      rcases h with ⟨hstart, hle, hrest⟩
      rw [total_cons] at htotal
      exact List.forall_mem_cons.2 ⟨⟨hle, by omega⟩, ih hrest (by omega)⟩

/-- The iterations that the loop visits: their numbers and their counts. -/
theorem collectIterations_counts {inv : InvocationGroupCfc} {n fuel : Nat} (h : inv.Covers n)
    (instrID : UInt64) (htotal : before (inv.instancesIn instrID) n < 2 ^ 64) (hfuel : n ≤ fuel) :
    ∃ its, inv.precomputeDataStructures.collectIterations fuel = .ok its ∧
      its.map Prod.fst = List.range n ∧
      its.map (fun i => (iterationBlock instrID i).instances)
        = (List.range n).map (inv.instancesIn instrID) := by
  rcases h.tiles_iterLut with ⟨htiles, hentries⟩
  have hfst : inv.precomputeDataStructures.iterLut.entries.map Prod.fst = List.range n := by
    rw [htiles.map_fst_entries, Nat.sub_zero, List.range_eq_range']
  refine ⟨_, htiles.collect_begin (by omega), hfst, ?_⟩
  rw [← hfst, List.map_map]
  refine List.map_congr_left fun i hi => ?_
  rcases i with ⟨k, g'⟩
  rcases hentries k g' hi with ⟨g, hg, hk, rfl⟩
  have hlt : k < n := List.mem_range.1 (hfst ▸ List.mem_map_of_mem hi)
  have hle : inv.instancesIn instrID k ≤ before (inv.instancesIn instrID) n := le_before hlt
  have hcount := CompressionPattern.getD_sumInstances instrID g.controlFlow
  simp only [Function.comp_def]
  rw [InvocationGroupCfc.instancesIn_eq h hg hk] at hle ⊢
  rw [Nat.mod_eq_of_lt (by omega)] at hcount
  exact hcount

theorem total_parts {β : Type _} {B : β → Block} {xs : List β} {parts : List (List MemSetEntry)}
    (h : List.Forall₂ (fun x part => Fills (B x) part) xs parts) :
    total parts.flatten = (xs.map fun x => (B x).instances).sum := by
  induction h with
  | nil => rfl
  | cons hfills _ ih => simp [hfills.total_eq, ih]

/-- When the blocks have as many instances as the set, they cut all of its references, and the
instances of an entry of the slice belong to one block. -/
theorem fillBlocks_all (hproper : Proper entries) {β : Type _} (block : β → Except Fault Block)
    {B : β → Block} {fuel : Nat} {xs : List β} {st : SliceState}
    {assigned : Nat → Nat → Nat → UInt64 → Prop} (hst : Ready entries st) (hslice : st.slice = [])
    (hblock : ∀ x ∈ xs, block x = .ok (B x))
    (hsum : (xs.map fun x => (B x).instances).sum = (pending entries st).length)
    (hfuel : (pending entries st).length ≤ fuel)
    (hassigned : ∀ n x, xs[n]? = some x → ∀ j,
      ((xs.take n).map fun x => (B x).instances).sum ≤ j →
      j < ((xs.take (n + 1)).map fun x => (B x).instances).sum →
      assigned j n (B x).iterationNumber (B x).effectiveInstrID) :
    ∃ st', fillBlocks entries block fuel xs st = .ok st' ∧
      st'.slice.flatMap MemSetEntry.accesses = pending entries st ∧
      ∀ i e, st'.slice[i]? = some e → ∃ n, ∀ j, total (st'.slice.take i) ≤ j →
        j < total (st'.slice.take (i + 1)) →
        assigned j n e.iterationNumber e.effectiveInstrID := by
  rcases fillBlocks_eq hproper fuel xs st hst hblock (by omega) hfuel with
    ⟨parts, st', hfill, hslice', hparts, hsplit, -⟩
  rw [hslice, List.nil_append] at hslice'
  refine ⟨st', hfill, ?_, ?_⟩
  · -- all instances have been handed out
    have hlength := congrArg List.length hsplit
    rw [List.length_append, length_flatMap_accesses, total_parts hparts, hsum] at hlength
    have hnil : pending entries st' = [] := List.eq_nil_of_length_eq_zero (by omega)
    rw [hsplit, hnil, List.append_nil, hslice']
  · intro i e he
    rw [hslice'] at he ⊢
    rcases exists_block hparts i e he with ⟨n, x, hx, hiter, hinstr, hbefore, hafter⟩
    refine ⟨n, fun j hj hj' => ?_⟩
    rw [hiter, hinstr]
    exact hassigned n x hx j (by omega) (by omega)

/-- The block that `callBlock` computes. -/
def blockOf (c : CallTraceInstructionCacheEntry) : Block :=
  match callBlock invGroup c with
  | .ok b => b
  | .error _ => { iterationNumber := 0, effectiveInstrID := 0, instances := 0 }

/-- What is known of the loop over the blocks of an instruction. -/
structure Sliced (inv : InvocationGroupCfc) (cache : List CallTraceInstructionCacheEntry)
    (instrID : UInt64) (references : List Reference) (slice : List MemSetEntry) : Prop where
  accesses : slice.flatMap MemSetEntry.accesses = references
  tagged : ∀ i e, slice[i]? = some e → ∃ n, ∀ j, total (slice.take i) ≤ j →
    j < total (slice.take (i + 1)) →
    AssignedTo inv cache instrID j n e.iterationNumber e.effectiveInstrID

/-- The loop over the iterations. -/
theorem fillBlocks_iterations {inv : InvocationGroupCfc} {n fuel : Nat} {instrID : UInt64}
    {st : SliceState} (h : inv.Covers n) (cache : List CallTraceInstructionCacheEntry)
    (hproper : Proper entries) (hst : Ready entries st) (hslice : st.slice = [])
    (hloop : inv.precomputeDataStructures.containsInstruction instrID = true)
    (htotal : before (inv.instancesIn instrID) n = (pending entries st).length)
    (hlt : (pending entries st).length < 2 ^ 64)
    (hfuel : n + (pending entries st).length ≤ fuel) :
    ∃ its st', inv.precomputeDataStructures.collectIterations fuel = .ok its ∧
      fillBlocks entries (fun i => .ok (iterationBlock instrID i)) fuel its st = .ok st' ∧
      Sliced inv cache instrID (pending entries st) st'.slice := by
  rcases collectIterations_counts h instrID (by omega)
    (show n ≤ fuel by omega) with ⟨its, hits, hfst, hcounts⟩
  have hn : its.length = n := by simpa using congrArg List.length hfst
  -- as many instances are before an iteration as its blocks before it have
  have htake : ∀ m ≤ n, ((its.take m).map fun i => (iterationBlock instrID i).instances).sum
      = before (inv.instancesIn instrID) m := by
    intro m hm
    rw [List.map_take, hcounts, ← List.map_take, List.take_range, Nat.min_eq_left hm]
    rfl
  have hsum := htake n (Nat.le_refl _)
  rw [← hn, List.take_length, hn, htotal] at hsum
  have hassigned : ∀ m i, its[m]? = some i → ∀ j,
      ((its.take m).map fun i => (iterationBlock instrID i).instances).sum ≤ j →
      j < ((its.take (m + 1)).map fun i => (iterationBlock instrID i).instances).sum →
      AssignedTo inv cache instrID j m (iterationBlock instrID i).iterationNumber
        (iterationBlock instrID i).effectiveInstrID := by
    intro m i hi j hle hltj
    have hm : m < n := hn ▸ (List.getElem?_eq_some_iff.1 hi).1
    have hnum : i.1 = m := by
      have hmap := congrArg (fun l => l[m]?) hfst
      simpa [hi, hm] using hmap
    rw [htake m (by omega)] at hle
    rw [htake (m + 1) (by omega)] at hltj
    simp only [iterationBlock, hnum]
    exact AssignedTo.iteration hloop ⟨hle, hltj⟩
  rcases fillBlocks_all hproper (fun i => .ok (iterationBlock instrID i)) hst hslice
    (fun _ _ => rfl) hsum (show _ ≤ fuel by omega) hassigned with ⟨st', hfill, hacc, htags⟩
  exact ⟨its, st', hits, hfill, hacc, htags⟩

/-- The loop over the call instances. -/
theorem fillBlocks_calls {inv : InvocationGroupCfc} {fuel : Nat} {instrID : UInt64}
    {cache : List CallTraceInstructionCacheEntry} {st : SliceState} (hproper : Proper entries)
    (hst : Ready entries st) (hslice : st.slice = [])
    (hsub : inv.precomputeDataStructures.containsInstruction instrID = false)
    (htiles : CacheTiles 0 cache (pending entries st).length)
    (hlookup : ∀ c ∈ cache, ∃ iter,
      inv.precomputeDataStructures.getIterationNumber c.callID c.callInstance = .ok iter)
    (hlt : (pending entries st).length < 2 ^ 64)
    (hfuel : (pending entries st).length ≤ fuel) :
    ∃ st', fillBlocks entries (callBlock inv.precomputeDataStructures) fuel cache st = .ok st' ∧
      Sliced inv cache instrID (pending entries st) st'.slice := by
  rcases htiles.sum_take hlt with ⟨hsum, htake⟩
  rw [Nat.zero_add] at hsum
  let B := blockOf inv.precomputeDataStructures
  have hblock : ∀ c ∈ cache, callBlock inv.precomputeDataStructures c = .ok (B c) ∧
      (B c).instances = c.getNumInstances ∧ (B c).effectiveInstrID = c.callID ∧
      inv.precomputeDataStructures.getIterationNumber c.callID c.callInstance
        = .ok (B c).iterationNumber := by
    intro c hc
    rcases hlookup c hc with ⟨iter, hiter⟩
    simp [B, blockOf, callBlock, hiter]
  have hinstances : ∀ cs : List CallTraceInstructionCacheEntry, (∀ c ∈ cs, c ∈ cache) →
      (cs.map fun c => (B c).instances) = cs.map fun c => c.getNumInstances :=
    fun cs hcs => List.map_congr_left fun c hc => (hblock c (hcs c hc)).2.1
  rw [← hinstances _ fun _ hc => hc] at hsum
  -- an instance lies in the call of the cache whose turn it is
  have hassigned : ∀ m c, cache[m]? = some c → ∀ j,
      ((cache.take m).map fun c => (B c).instances).sum ≤ j →
      j < ((cache.take (m + 1)).map fun c => (B c).instances).sum →
      AssignedTo inv cache instrID j m (B c).iterationNumber (B c).effectiveInstrID := by
    intro m c hc j hle hltj
    rcases htake m c hc with ⟨hbefore, hafter⟩
    rw [hinstances _ fun _ hc => List.mem_of_mem_take hc] at hle hltj
    rcases hblock c (List.mem_of_getElem? hc) with ⟨-, -, hid, hiter⟩
    rw [hid]
    exact AssignedTo.call hsub hc (by omega) (by omega) hiter
  rcases fillBlocks_all hproper _ hst hslice (fun c hc => (hblock c hc).1) hsum hfuel hassigned
    with ⟨st', hfill, hacc, htags⟩
  exact ⟨st', hfill, hacc, htags⟩

/-- Slicing hands out every reference of the set once and in order, and the instances of each entry
of the slice belong to the one iteration or call instance whose tags it has. -/
theorem getInvocationSliceWithIterTags_eq {inv : InvocationGroupCfc} {n fuel s instances : Nat}
    {instrID : UInt64} (h : inv.Covers n) (set : MemSet) (clig : CallTraceLoopInvocationGroup)
    (hset : Consecutive s set.entries (s + instances)) (hlt : instances < 2 ^ 64)
    (hloop : inv.precomputeDataStructures.containsInstruction instrID = true →
      before (inv.instancesIn instrID) n = instances)
    (hcalls : inv.precomputeDataStructures.containsInstruction instrID = false →
      CacheTiles 0 (clig.callTraceCache[instrID]?.getD []) instances ∧
      ∀ c ∈ clig.callTraceCache[instrID]?.getD [], ∃ iter,
        inv.precomputeDataStructures.getIterationNumber c.callID c.callInstance = .ok iter)
    (hfuel : n + instances ≤ fuel) :
    ∃ slice set', getInvocationSliceWithIterTags instrID inv.precomputeDataStructures fuel
        set.initialiseSliceIterator clig = .ok (slice, set') ∧
      slice.flatMap MemSetEntry.accesses = set.entries.flatMap MemSetEntry.accesses ∧
      ∀ i e, slice[i]? = some e → ∃ m, ∀ j, total (slice.take i) ≤ j →
        j < total (slice.take (i + 1)) →
        AssignedTo inv (clig.callTraceCache[instrID]?.getD []) instrID j m e.iterationNumber
          e.effectiveInstrID := by
  have htotal := total_of_consecutive hset
  have hproper : Proper set.entries := proper_of_consecutive hset (by omega)
  have hst := ready_initialise hproper []
  have hpending := pending_initialise hproper []
  have hlen := congrArg List.length hpending
  rw [length_flatMap_accesses, show total set.entries = instances by omega] at hlen
  have hentries : set.initialiseSliceIterator.entries = set.entries := rfl
  -- an instruction of the loop is cut by iterations, any other one by the entries of its cache
  by_cases hcontains : inv.precomputeDataStructures.containsInstruction instrID = true
  · have hbefore := hloop hcontains
    rcases fillBlocks_iterations h (clig.callTraceCache[instrID]?.getD []) hproper hst
      rfl hcontains (by rw [hlen, hbefore]) (by omega)
      (show n + _ ≤ fuel by rw [hlen]; exact hfuel) with ⟨its, st', hits, hfill, hsliced⟩
    refine ⟨st'.slice, { set.initialiseSliceIterator with
      sliceIterator := st'.sliceIterator, outstandingInstances := st'.memsetRemainingInstances },
      ?_, hsliced.accesses.trans hpending, hsliced.tagged⟩
    simp only [getInvocationSliceWithIterTags, hcontains, if_true, hits, hentries, hfill]
  · have hsub : inv.precomputeDataStructures.containsInstruction instrID = false := by
      simpa using hcontains
    rcases hcalls hsub with ⟨htiles, hlookup⟩
    rcases fillBlocks_calls hproper hst rfl hsub (by rwa [hlen]) hlookup (by omega)
      (show _ ≤ fuel by omega) with ⟨st', hfill, hsliced⟩
    refine ⟨st'.slice, { set.initialiseSliceIterator with
      sliceIterator := st'.sliceIterator, outstandingInstances := st'.memsetRemainingInstances },
      ?_, hsliced.accesses.trans hpending, hsliced.tagged⟩
    simp only [getInvocationSliceWithIterTags, hsub, hentries, hfill, Bool.false_eq_true, if_false]

/-- Two iterations that run instruction 7 and call 9, and three accesses of one entry. -/
def sampleInvocation : InvocationGroupCfc :=
  { InvocationGroupCfc.new with iterations :=
    [{ repetitions := [(0, 0)], controlFlow := [.leaf 7, .leaf 7, .leaf 9], numInstancesLut := ∅ },
     { repetitions := [(1, 1)], controlFlow := [.leaf 7, .leaf 9], numInstancesLut := ∅ }] }

def sampleSet : MemSet where
  entries := [{ base := 100, stride := 8, length := 8, start := 10, «end» := 12 }]
  sliceIterator := 0
  outstandingInstances := 0

/-- Instruction 5 runs twice in the first instance of call 9 and once in the second. -/
def sampleCalls : CallTraceLoopInvocationGroup :=
  { CallTraceLoopInvocationGroup.new with
    callTraceCache := (∅ : Std.TreeMap UInt64 (List CallTraceInstructionCacheEntry)).insert 5
      [{ start := 0, «end» := 1, callID := 9, callInstance := 0 },
       { start := 2, «end» := 2, callID := 9, callInstance := 1 }] }

theorem getInvocationSliceWithIterTags_sample :
    (∃ slice set', getInvocationSliceWithIterTags 7 sampleInvocation.precomputeDataStructures 5
        sampleSet.initialiseSliceIterator sampleCalls = .ok (slice, set') ∧
      slice.flatMap MemSetEntry.accesses = sampleSet.entries.flatMap MemSetEntry.accesses ∧
      ∀ i e, slice[i]? = some e → ∃ m, ∀ j, total (slice.take i) ≤ j →
        j < total (slice.take (i + 1)) →
        AssignedTo sampleInvocation (sampleCalls.callTraceCache[(7 : UInt64)]?.getD []) 7 j m
          e.iterationNumber e.effectiveInstrID) ∧
    (∃ slice set', getInvocationSliceWithIterTags 5 sampleInvocation.precomputeDataStructures 5
        sampleSet.initialiseSliceIterator sampleCalls = .ok (slice, set') ∧
      slice.flatMap MemSetEntry.accesses = sampleSet.entries.flatMap MemSetEntry.accesses ∧
      ∀ i e, slice[i]? = some e → ∃ m, ∀ j, total (slice.take i) ≤ j →
        j < total (slice.take (i + 1)) →
        AssignedTo sampleInvocation (sampleCalls.callTraceCache[(5 : UInt64)]?.getD []) 5 j m
          e.iterationNumber e.effectiveInstrID) := by
  have hcovers : sampleInvocation.Covers 2 := ⟨by decide, by decide⟩
  have hset : Consecutive 10 sampleSet.entries (10 + 3) := ⟨rfl, by decide, rfl⟩
  have hloop : sampleInvocation.precomputeDataStructures.containsInstruction 7 = true := by
    decide +kernel
  have hsub : sampleInvocation.precomputeDataStructures.containsInstruction 5 = false := by
    decide +kernel
  have hcache : sampleCalls.callTraceCache[(5 : UInt64)]?.getD []
      = [{ start := 0, «end» := 1, callID := 9, callInstance := 0 },
         { start := 2, «end» := 2, callID := 9, callInstance := 1 }] := by
    decide +kernel
  have hfirst : sampleInvocation.precomputeDataStructures.getIterationNumber 9 0 = .ok 0 := by
    decide +kernel
  have hsecond : sampleInvocation.precomputeDataStructures.getIterationNumber 9 1 = .ok 1 := by
    decide +kernel
  refine ⟨?_, ?_⟩
  · exact getInvocationSliceWithIterTags_eq hcovers sampleSet sampleCalls hset (by decide)
      (fun _ => by decide) (fun hno => by simp [hloop] at hno) (by decide)
  · refine getInvocationSliceWithIterTags_eq hcovers sampleSet sampleCalls hset (by decide)
      (fun hyes => by simp [hsub] at hyes) (fun _ => ?_) (by decide)
    rw [hcache]
    refine ⟨⟨rfl, by decide, rfl, by decide, rfl⟩, ?_⟩
    simp [hfirst, hsecond]

/-- With `2 ^ 64` instances the count of the instruction is 0, so that nothing is handed out. -/
theorem getInvocationSliceWithIterTags_two_pow_64 :
    let inv : InvocationGroupCfc := { InvocationGroupCfc.new with iterations :=
      [{ repetitions := [(0, 0)], controlFlow := [.node 0 [.leaf 5, .leaf 5] (2 ^ 63)],
         numInstancesLut := ∅ }] }
    let set : MemSet :=
      { entries :=
          [{ base := 100, stride := 0, length := 8, start := 0,
             «end» := 0x7fffffffffffffff },
           { base := 200, stride := 0, length := 8, start := 0x8000000000000000,
             «end» := 0xffffffffffffffff }]
        sliceIterator := 0
        outstandingInstances := 0 }
    inv.Covers 1 ∧ before (inv.instancesIn 5) 1 = 2 ^ 64 ∧ Consecutive 0 set.entries (2 ^ 64) ∧
      (∀ fuel, ∃ set', getInvocationSliceWithIterTags 5 inv.precomputeDataStructures fuel
        set.initialiseSliceIterator CallTraceLoopInvocationGroup.new = .ok ([], set')) ∧
      set.entries.flatMap MemSetEntry.accesses ≠ [] := by
  intro inv set
  have hcovers : inv.Covers 1 := ⟨by decide, by decide⟩
  have hbefore : before (inv.instancesIn 5) 1 = 2 ^ 64 := by
    rw [InvocationGroupCfc.before_instancesIn hcovers]
    simp only [inv, List.map_cons, List.map_nil, CfcGroup.getNumberOfIterations_slow,
      CompressionPattern.expandAll_cons, CompressionPattern.expandAll_nil, List.append_nil,
      CompressionPattern.count_expand_node]
    decide
  have hnum : inv.precomputeDataStructures.getNumInstances 5 = 0 := by
    rw [InvocationGroupCfc.getNumInstances_precompute hcovers, hbefore]
    exact Nat.mod_self _
  have hsub : inv.precomputeDataStructures.containsInstruction 5 = false := by
    simp [InvocationGroupCfc.containsInstruction, hnum]
  refine ⟨hcovers, hbefore, ⟨rfl, by decide, rfl, by decide, rfl⟩, ?_, ?_⟩
  · intro fuel
    refine ⟨set.initialiseSliceIterator, ?_⟩
    simp only [getInvocationSliceWithIterTags, hsub, Bool.false_eq_true, if_false,
      CallTraceLoopInvocationGroup.new, Std.TreeMap.getElem?_emptyc, Option.getD_none, fillBlocks]
  · intro hnil
    have hlen := congrArg List.length hnil
    rw [length_flatMap_accesses] at hlen
    simp [set, MemSetEntry.instances] at hlen

end MemSet
end CamAlias
