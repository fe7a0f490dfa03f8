import CamAlias.Lib.Decimal
import CamAlias.Memory.Tracer

/-!
# Dump — memory trace files and runs of the memory tracer

`dumpMemoryTrace` appends the sets recorded since the last dump to one file for each instruction
and stream.  It runs when the tracer's memory is used up, when it is forced and at shutdown, so a
run is a sequence of `CAM_mem` calls with dumps at arbitrary places.

- `run_streams`: the sets in a stream's file, followed by the pending one, stand for the
  references recorded in the stream.
-/

namespace CamAlias

namespace TracerMemSetEntry

/-- The fields of an entry, after its base is printed. -/
def dumpFields (base : List Char) (e : TracerMemSetEntry) : List Char :=
  base ++ ([' '] ++ (Lib.signedDecimal e.stride.toInt ++ ([' '] ++
    (Lib.decimal e.length.toNat ++ ([' '] ++ (Lib.decimal e.getNumInstances.toNat ++ [',']))))))

def dumpInitialEntry (e : TracerMemSetEntry) : List Char :=
  dumpFields (Lib.decimal e.base.toNat) e

def dumpEntry (e prev : TracerMemSetEntry) : List Char :=
  dumpFields (Lib.signedDecimal (e.base - prev.base).toInt) e

end TracerMemSetEntry

namespace TracerMemSet

/-- The entries after the first, oldest first. -/
def dumpEntries (prev : TracerMemSetEntry) : List TracerMemSetEntry → List Char
  | [] => []
  | e :: es => e.dumpEntry prev ++ dumpEntries e es

def dumpSet (s : TracerMemSet) : List Char :=
  (Lib.decimal s.length ++ [' ']) ++
    ((match s.reverse with
      | [] => []
      | e :: es => e.dumpInitialEntry ++ dumpEntries e es) ++ ['\n'])

end TracerMemSet

structure TracerStaticInstRec where
  readSet : TracerMemSet := []
  writeSet : TracerMemSet := []

/-- The two streams of an instruction. -/
inductive Stream
  | read
  | write
  deriving DecidableEq, Repr

namespace TracerStaticInstRec

def getSet (r : TracerStaticInstRec) : Stream → TracerMemSet
  | .read => r.readSet
  | .write => r.writeSet

end TracerStaticInstRec

/-- What a dump appends to the file of a stream: nothing when the set is empty. -/
def dumpStream (id : UInt64) (stream : Stream) (s : TracerMemSet) : List Char :=
  if s = [] then []
  else
    (Lib.decimal id.toNat ++ ['\n']) ++
      (match stream with
        | .read => s.dumpSet ++ ['0', '\n']
        | .write => ['0', '\n'] ++ s.dumpSet)

/-- The calls that the memory tracer reacts to.  A dump is forced or due to memory use. -/
inductive MemoryCall
  | mem (id : UInt64) (raddr1 rlen1 raddr2 rlen2 waddr wlen : BitVec 64)
  | dump

structure MemoryTracer where
  memoryTrace : Std.TreeMap UInt64 TracerStaticInstRec := {}
  /-- The text of each `memory_accesses.<id>.r.txt` and `.w.txt`. -/
  files : UInt64 → Stream → List Char := fun _ _ => []

namespace MemoryTracer

/-- Record a reference unless its length is 0. -/
def record (s : TracerMemSet) (addr len : BitVec 64) : TracerMemSet :=
  if 0 < len then s.recordMemoryReference addr len else s

def CAM_mem (t : MemoryTracer) (id : UInt64) (raddr1 rlen1 raddr2 rlen2 waddr wlen : BitVec 64) :
    MemoryTracer :=
  let r := (t.memoryTrace[id]?).getD {}
  let r' : TracerStaticInstRec :=
    { readSet := record (record r.readSet raddr1 rlen1) raddr2 rlen2
      writeSet := record r.writeSet waddr wlen }
  { t with memoryTrace := t.memoryTrace.insert id r' }

/-- Every instruction has its own files, so the order of the map does not matter. -/
def dumpMemoryTrace (t : MemoryTracer) : UInt64 → Stream → List Char :=
  fun id stream =>
    match t.memoryTrace[id]? with
    | none => t.files id stream
    | some r => t.files id stream ++ dumpStream id stream (r.getSet stream)

def step (t : MemoryTracer) : MemoryCall → MemoryTracer
  | .mem id raddr1 rlen1 raddr2 rlen2 waddr wlen =>
      t.CAM_mem id raddr1 rlen1 raddr2 rlen2 waddr wlen
  | .dump => { memoryTrace := {}, files := t.dumpMemoryTrace }

def run (calls : List MemoryCall) : MemoryTracer :=
  calls.foldl step {}

/-- `memory_trace_shutdown`: the files after the last dump. -/
def shutdown (t : MemoryTracer) : UInt64 → Stream → List Char :=
  if t.memoryTrace.size > 0 then t.dumpMemoryTrace else t.files

end MemoryTracer

/-! ## The references of a stream -/

/-- A reference that is made at all. -/
def reference (addr len : BitVec 64) : List Reference :=
  if 0 < len then [{ address := addr, length := len }] else []

/-- The references that a call makes in a stream of an instruction. -/
def MemoryCall.references (id : UInt64) (stream : Stream) : MemoryCall → List Reference
  | .mem id' raddr1 rlen1 raddr2 rlen2 waddr wlen =>
      if id' = id then
        match stream with
        | .read => reference raddr1 rlen1 ++ reference raddr2 rlen2
        | .write => reference waddr wlen
      else []
  | .dump => []

/-- The references recorded in a stream of an instruction during a run, in order. -/
def recorded (calls : List MemoryCall) (id : UInt64) (stream : Stream) : List Reference :=
  calls.flatMap (MemoryCall.references id stream)

namespace MemoryTracer

open TracerMemSet

/-- The set of a stream that the next dump will write. -/
def pending (t : MemoryTracer) (id : UInt64) (stream : Stream) : TracerMemSet :=
  ((t.memoryTrace[id]?).getD {}).getSet stream

theorem records_record {s : TracerMemSet} {refs : List Reference} (h : Records s refs)
    (addr len : BitVec 64) (hle : (refs ++ reference addr len).length ≤ 2 ^ 64) :
    Records (record s addr len) (refs ++ reference addr len) := by
  by_cases hlen : 0 < len
  · rw [reference, if_pos hlen] at hle ⊢
    rw [record, if_pos hlen]
    rw [List.length_append] at hle
    exact h.recordMemoryReference addr len (Nat.lt_of_succ_le hle)
  · rw [record, reference, if_neg hlen, if_neg hlen, List.append_nil]
    exact h

/-- The file of a stream holds the dumped sets; they stand for the references `old`, and the pending
set for those behind them. -/
structure Holds (t : MemoryTracer) (id : UInt64) (stream : Stream) (dumped : List TracerMemSet)
    (old new : List Reference) : Prop where
  file_eq : t.files id stream = dumped.flatMap (dumpStream id stream)
  dumped_eq : dumped.flatMap TracerMemSet.expand = old
  strides : ∀ s ∈ dumped, ∀ e ∈ s, StrideIn old e.length e.stride
  pending_records : Records (t.pending id stream) new

theorem holds_init (id : UInt64) (stream : Stream) : Holds {} id stream [] [] [] where
  file_eq := rfl
  dumped_eq := rfl
  strides := by simp
  pending_records := by
    cases stream with
    | read => simpa [pending, TracerStaticInstRec.getSet] using records_nil
    | write => simpa [pending, TracerStaticInstRec.getSet] using records_nil

/-- A `CAM_mem` call adds its references to the pending set and leaves the files alone. -/
theorem Holds.mem {t : MemoryTracer} {id : UInt64} {stream : Stream}
    {dumped : List TracerMemSet} {old new : List Reference}
    (h : Holds t id stream dumped old new) (id' : UInt64)
    (raddr1 rlen1 raddr2 rlen2 waddr wlen : BitVec 64)
    (hle : (new ++ MemoryCall.references id stream
      (.mem id' raddr1 rlen1 raddr2 rlen2 waddr wlen)).length ≤ 2 ^ 64) :
    Holds (t.CAM_mem id' raddr1 rlen1 raddr2 rlen2 waddr wlen) id stream dumped old
      (new ++ MemoryCall.references id stream
        (.mem id' raddr1 rlen1 raddr2 rlen2 waddr wlen)) where
  file_eq := h.file_eq
  dumped_eq := h.dumped_eq
  strides := h.strides
  pending_records := by
    have hpending := h.pending_records
    by_cases hid : id' = id
    · subst hid
      cases stream with
      | read =>
          have hboth : (new ++ reference raddr1 rlen1 ++ reference raddr2 rlen2).length
              ≤ 2 ^ 64 := by simpa [MemoryCall.references] using hle
          have hfirst : (new ++ reference raddr1 rlen1).length ≤ 2 ^ 64 := by
            rw [List.length_append] at hboth
            omega
          have h₁ := records_record hpending raddr1 rlen1 hfirst
          have h₂ := records_record h₁ raddr2 rlen2 hboth
          simpa [pending, CAM_mem, MemoryCall.references, TracerStaticInstRec.getSet] using h₂
      | write =>
          have h₁ := records_record hpending waddr wlen (by simpa [MemoryCall.references] using hle)
          simpa [pending, CAM_mem, MemoryCall.references, TracerStaticInstRec.getSet] using h₁
    · simpa [pending, CAM_mem, MemoryCall.references, hid,
        Std.TreeMap.getElem?_insert] using hpending

/-- What a dump does to the file of a stream. -/
theorem dumpMemoryTrace_eq (t : MemoryTracer) (id : UInt64) (stream : Stream) :
    t.dumpMemoryTrace id stream
      = t.files id stream ++ dumpStream id stream (t.pending id stream) := by
  cases hr : t.memoryTrace[id]? with
  | none =>
      have hempty : t.pending id stream = [] := by
        cases stream <;> simp [pending, hr, TracerStaticInstRec.getSet]
      simp [dumpMemoryTrace, hr, hempty, dumpStream]
  | some r => simp [dumpMemoryTrace, hr, pending]

/-- Without anything to dump, a dump would write nothing. -/
theorem shutdown_eq (t : MemoryTracer) (id : UInt64) (stream : Stream) :
    t.shutdown id stream = t.files id stream ++ dumpStream id stream (t.pending id stream) := by
  by_cases hsize : t.memoryTrace.size > 0
  · rw [shutdown, if_pos hsize, dumpMemoryTrace_eq]
  · have hempty : t.memoryTrace[id]? = none := by
      have hzero : t.memoryTrace.isEmpty = true := by
        rw [Std.TreeMap.isEmpty_eq_size_eq_zero]
        simpa using hsize
      exact Std.TreeMap.getElem?_of_isEmpty hzero
    rw [shutdown, if_neg hsize]
    simp only [← dumpMemoryTrace_eq, dumpMemoryTrace, hempty]

/-- After a dump the pending set is among the dumped ones. -/
theorem Holds.dump {t : MemoryTracer} {id : UInt64} {stream : Stream}
    {dumped : List TracerMemSet} {old new : List Reference}
    (h : Holds t id stream dumped old new) :
    Holds { memoryTrace := {}, files := t.dumpMemoryTrace } id stream
      (dumped ++ [t.pending id stream]) (old ++ new) [] where
  file_eq := by
    simp [dumpMemoryTrace_eq, h.file_eq]
  dumped_eq := by
    simp [h.dumped_eq, h.pending_records.expand_eq]
  strides := by
    intro s hs e he
    rcases List.mem_append.1 hs with hs | hs
    · exact (h.strides s hs e he).mono (List.prefix_append old new).isInfix
    · rcases List.mem_singleton.1 hs with rfl
      exact (h.pending_records.strideIn he).mono (List.suffix_append old new).isInfix
  pending_records := by
    cases stream with
    | read => simpa [pending, TracerStaticInstRec.getSet] using records_nil
    | write => simpa [pending, TracerStaticInstRec.getSet] using records_nil

theorem holds_run (id : UInt64) (stream : Stream) (calls : List MemoryCall) {t : MemoryTracer}
    {dumped : List TracerMemSet} {old new : List Reference}
    (h : Holds t id stream dumped old new)
    (hle : (old ++ new ++ recorded calls id stream).length ≤ 2 ^ 64) :
    ∃ dumped' old' new', Holds (calls.foldl step t) id stream dumped' old' new' ∧
      old' ++ new' = old ++ new ++ recorded calls id stream := by
  induction calls generalizing t dumped old new with
  | nil => exact ⟨dumped, old, new, h, by simp [recorded]⟩
  | cons call calls ih =>
      have hall : recorded (call :: calls) id stream
          = call.references id stream ++ recorded calls id stream := List.flatMap_cons
      rw [hall] at hle ⊢
      cases call with
      | mem id' raddr1 rlen1 raddr2 rlen2 waddr wlen =>
          have hnew : (new ++ MemoryCall.references id stream
              (.mem id' raddr1 rlen1 raddr2 rlen2 waddr wlen)).length ≤ 2 ^ 64 := by
            simp only [List.length_append] at hle ⊢
            omega
          rcases ih (h.mem id' raddr1 rlen1 raddr2 rlen2 waddr wlen hnew) (by simpa using hle) with
            ⟨dumped', old', new', h', hrefs⟩
          exact ⟨dumped', old', new', h', by simpa using hrefs⟩
      | dump =>
          rcases ih h.dump (by simpa [MemoryCall.references] using hle) with
            ⟨dumped', old', new', h', hrefs⟩
          exact ⟨dumped', old', new', h', by simpa [MemoryCall.references] using hrefs⟩

/-- After shutdown the file of a stream holds sets that stand for the recorded references, with their
strides. -/
theorem shutdown_run (calls : List MemoryCall) (id : UInt64) (stream : Stream)
    (hle : (recorded calls id stream).length ≤ 2 ^ 64) :
    ∃ dumped : List TracerMemSet,
      (run calls).shutdown id stream = dumped.flatMap (dumpStream id stream) ∧
      dumped.flatMap TracerMemSet.expand = recorded calls id stream ∧
      ∀ s ∈ dumped, ∀ e ∈ s, StrideIn (recorded calls id stream) e.length e.stride := by
  rcases holds_run id stream calls (holds_init id stream) (by simpa using hle) with
    ⟨dumped, old, new, h, hrefs⟩
  rw [← run] at h
  have hlast := h.dump
  have hall : old ++ new = recorded calls id stream := by simpa using hrefs
  refine ⟨dumped ++ [(run calls).pending id stream], ?_, ?_, ?_⟩
  · rw [shutdown_eq, ← dumpMemoryTrace_eq]
    exact hlast.file_eq
  · rw [hlast.dumped_eq, hall]
  · rw [← hall]
    exact hlast.strides

/-! ## One reference again and again -/

/-- Reads of one address, without a dump. -/
def readsOf (id : UInt64) (addr len : BitVec 64) (n : Nat) : List MemoryCall :=
  List.replicate n (.mem id addr len 0 0 0 0)

theorem recorded_readsOf (id : UInt64) (addr : BitVec 64) {len : BitVec 64} (hlen : 0 < len)
    (n : Nat) : recorded (readsOf id addr len n) id .read = List.replicate n ⟨addr, len⟩ := by
  induction n with
  | zero => rfl
  | succ n ih =>
      have hcall : MemoryCall.references id .read (.mem id addr len 0 0 0 0) = [⟨addr, len⟩] := by
        have hmade : reference addr len = [⟨addr, len⟩] := if_pos hlen
        have hnone : reference 0 0 = [] := rfl
        simp only [MemoryCall.references, if_pos, hmade, hnone, List.append_nil]
      rw [readsOf, List.replicate_succ, recorded, List.flatMap_cons, hcall, List.replicate_succ]
      exact congrArg _ ih

/-- The file of a stream in which one reference was made `n` times. -/
theorem shutdown_readsOf (id : UInt64) (addr : BitVec 64) {len : BitVec 64} (hlen : 0 < len)
    (n : Nat) : (run (readsOf id addr len n)).shutdown id .read
      = dumpStream id .read (TracerMemSet.recordAll [] (List.replicate n ⟨addr, len⟩)) := by
  have hstep : ∀ (n : Nat) (t : MemoryTracer),
      ((readsOf id addr len n).foldl step t).files = t.files ∧
        ((readsOf id addr len n).foldl step t).pending id .read
          = TracerMemSet.recordAll (t.pending id .read) (List.replicate n ⟨addr, len⟩) := by
    intro n
    induction n with
    | zero => exact fun t => ⟨rfl, rfl⟩
    | succ n ih =>
        intro t
        have hpending : (t.CAM_mem id addr len 0 0 0 0).pending id .read
            = (t.pending id .read).recordMemoryReference addr len := by
          have hmade : ∀ s, record s addr len = s.recordMemoryReference addr len := fun _ => if_pos hlen
          have hnone : ∀ s, record s 0#64 0#64 = s := fun _ => rfl
          simp [pending, CAM_mem, TracerStaticInstRec.getSet, hmade, hnone]
        rcases ih (t.CAM_mem id addr len 0 0 0 0) with ⟨hfiles, hset⟩
        rw [hpending] at hset
        exact ⟨hfiles, hset⟩
  rcases hstep n {} with ⟨hfiles, hset⟩
  rw [shutdown_eq, run, hfiles, hset]
  rfl

end MemoryTracer
end CamAlias
