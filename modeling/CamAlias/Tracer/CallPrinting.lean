import CamAlias.Lexer.CallTraceStreamer
import CamAlias.Tracer.Printing

/-!
# CallPrinting — what the written call traces say

The counterpart of `Tracer/Printing.lean` for the call trace: an entry has the groups of every call
ID that was called in its loop invocations, and a write leaves one chunk of entries.
-/

namespace CamAlias

open Lib

/-! ## The traces of one entry -/

/-- All groups of a call trace are written as they are. -/
structure CallTraceWritable (trace : CallTrace) : Prop where
  length_lt : trace.groups.infos.length < 2 ^ 32
  infos : ∀ info ∈ trace.groups.infos, info.Writable ∧
    TracerCompressionPattern.Printable info.payload.contents

/-- The calls that have a group. -/
def CallTraces.recorded (callTraces : CallTraces) : CallTraces :=
  callTraces.filter fun item => 0 < item.2.groups.infos.length

@[simp] theorem CallTraces.length_recorded (callTraces : CallTraces) :
    callTraces.recorded.length = callTraces.getNumTraces :=
  (List.countP_eq_length_filter).symm

/-- What a call trace says. -/
def printedCall (item : UInt64 × CallTrace) : UInt64 × List PrintedGroup :=
  (item.1, item.2.groups.infos.map SharedInfo.printed)

/-- The groups of a call trace, one line each. -/
theorem CallTrace.writeGroups_eq {infos : List (SharedInfo ControlFlowCompressor)}
    (h : ∀ info ∈ infos, info.Writable) :
    writeGroups CallTrace.writeInvocation [] infos
      = some (infos.flatMap fun info => info.printed.print) := by
  have hone : ∀ info ∈ infos, info.write CallTrace.writeInvocation = some info.printed.print := by
    intro info hinfo
    have htext := SharedInfo.printed_text (h info hinfo)
    rw [(h info hinfo).writeRange_eq, Option.map_some] at htext
    simpa only [SharedInfo.write, (h info hinfo).writeRange_eq, CallTrace.writeInvocation] using htext
  induction infos with
  | nil => rfl
  | cons info infos ih =>
      have hinfo := hone info (by simp)
      cases infos with
      | nil => simpa [writeGroups] using hinfo
      | cons info' infos =>
          have hrest := ih (fun i hi => h i (List.mem_cons_of_mem _ hi))
            fun i hi => hone i (List.mem_cons_of_mem _ hi)
          simp only [writeGroups, hinfo, hrest, List.nil_append, List.flatMap_cons]

/-- The text of a call trace with groups. -/
theorem CallTrace.write_eq {item : UInt64 × CallTrace} (hne : item.2.groups.infos ≠ [])
    (h : CallTraceWritable item.2) :
    ∃ text, CallTrace.write item = some text ∧
      Prints text (PrintedCallEntry.callTokens (printedCall item)) := by
  have hpos := List.length_pos_of_ne_nil hne
  let infos := item.2.groups.infos
  let text : List Char := infos.flatMap fun info => info.printed.print
  refine ⟨decimal item.1.toNat ++ (' ' :: (decimal infos.length ++ ('\n' :: (text ++ ['\n'])))), ?_,
    ?_⟩
  · have hgroups := CallTrace.writeGroups_eq fun info hinfo => (h.infos info hinfo).1
    simp only [CallTrace.write, ExecTrace.write, hpos, if_true, hgroups, Option.map_some,
      formatUnsigned_of_lt h.length_lt, text, infos]
  · have hid : Prints (decimal item.1.toNat ++ [' ']) [.number item.1.toNat] :=
      Prints.number rfl item.1.toNat_lt
    have hlen : infos.length < 2 ^ 64 := Nat.lt_trans h.length_lt (by decide)
    have hcount : Prints (decimal infos.length ++ ['\n']) [.number infos.length, .newline] :=
      Prints.number rfl hlen
    have hgroups : Prints text (infos.flatMap fun info => info.printed.tokens) :=
      Prints.flatMap fun info hinfo => PrintedGroup.prints_print
        (h.infos info hinfo).1.writtenRanges_eq.2.2.1 (h.infos info hinfo).2
    have hall := hid.append (hcount.append (hgroups.append Prints.newline))
    simpa [printedCall, PrintedCallEntry.callTokens, List.flatMap_map, infos] using hall

/-- The texts of the traces with groups, one after the other. -/
theorem CallTrace.writeAll_eq {callTraces : CallTraces}
    (h : ∀ item ∈ callTraces, CallTraceWritable item.2) :
    ∃ text, writeAll CallTrace.write callTraces = some text ∧
      Prints text ((callTraces.recorded.map printedCall).flatMap PrintedCallEntry.callTokens) := by
  induction callTraces with
  | nil => exact ⟨[], rfl, Prints.nil⟩
  | cons item items ih =>
      rcases ih fun i hi => h i (List.mem_cons_of_mem _ hi) with ⟨rest, hrest, hprints⟩
      by_cases hne : item.2.groups.infos = []
      · have hitem : CallTrace.write item = some [] := ExecTrace.write_empty hne
        refine ⟨rest, by simp only [writeAll, hitem, hrest, List.nil_append], ?_⟩
        simpa [CallTraces.recorded, hne] using hprints
      · rcases CallTrace.write_eq hne (h item (by simp)) with ⟨text, htext, hprints'⟩
        refine ⟨text ++ rest, by simp only [writeAll, htext, hrest], ?_⟩
        have hpos := List.length_pos_of_ne_nil hne
        simpa [CallTraces.recorded, hpos] using hprints'.append hprints

/-! ## Entries -/

/-- The call traces in the order in which they are written. -/
def CallTraces.walked (callTraces : CallTraces) : CallTraces :=
  callTraces.walk.getD []

/-- What an entry of the call trace says. -/
def printedEntry (info : LoopInvocationCallInfo) : PrintedCallEntry where
  ranges := info.ranges
  calls := info.payload.walked.recorded.map printedCall

/-- The entry is written as it is. -/
structure EntryWritable (info : LoopInvocationCallInfo) : Prop where
  writable : info.Writable
  walks : info.payload.walk.isSome = true
  length_lt : info.payload.getNumTraces < 2 ^ 32
  distinct : (info.payload.map Prod.fst).Nodup
  traces : ∀ item ∈ info.payload, CallTraceWritable item.2

namespace EntryWritable

variable {info : LoopInvocationCallInfo}

theorem walk_eq (h : EntryWritable info) : info.payload.walk = some info.payload.walked := by
  rcases Option.isSome_iff_exists.1 h.walks with ⟨items, hitems⟩
  rw [CallTraces.walked, hitems, Option.getD_some]

theorem perm (h : EntryWritable info) : info.payload.walked.Perm info.payload :=
  HashTable.perm_of_walk h.walk_eq

theorem getNumTraces_walked (h : EntryWritable info) :
    info.payload.walked.getNumTraces = info.payload.getNumTraces :=
  h.perm.countP_eq _

theorem distinct_walked (h : EntryWritable info) : (info.payload.walked.map Prod.fst).Nodup :=
  (h.perm.map Prod.fst).nodup_iff.2 h.distinct

theorem traces_walked (h : EntryWritable info) :
    ∀ item ∈ info.payload.walked, CallTraceWritable item.2 :=
  fun item hitem => h.traces item (h.perm.mem_iff.1 hitem)

theorem valid (h : EntryWritable info) : (printedEntry info).Valid := by
  refine ⟨h.writable.writtenRanges_eq.2.2.1, ?_, ?_, ?_⟩
  · have := h.length_lt
    simp only [printedEntry, List.length_map, CallTraces.length_recorded, h.getNumTraces_walked]
    omega
  · have hkeys : (info.payload.walked.recorded.map Prod.fst).Nodup :=
      h.distinct_walked.sublist (List.filter_sublist.map _)
    rw [List.Nodup, List.pairwise_map] at hkeys
    exact List.pairwise_map.2 hkeys
  · intro call hcall
    rcases List.mem_map.1 hcall with ⟨item, hitem, rfl⟩
    rcases List.mem_filter.1 hitem with ⟨hitem, hpos⟩
    have htrace := h.traces_walked item hitem
    have hlen := htrace.length_lt
    refine ⟨?_, ?_, ?_⟩
    · simpa [printedCall, List.length_pos_iff] using hpos
    · simp only [printedCall, List.length_map]
      omega
    · intro g hg
      rcases List.mem_map.1 hg with ⟨i, hi, rfl⟩
      exact ⟨(htrace.infos i hi).1.writtenRanges_eq.2.2.1, (htrace.infos i hi).2.wellFormed⟩

/-- The text of an entry. -/
theorem write_eq (h : EntryWritable info) :
    ∃ text, LoopInvocationCallInfo.write info = some text ∧
      Prints text (printedEntry info).tokens := by
  rcases CallTrace.writeAll_eq h.traces_walked with ⟨text, htext, hprints⟩
  let count := info.payload.getNumTraces
  refine ⟨'{' :: printRangeList info.ranges ++ (' ' :: (decimal count ++ ('\n' :: text))), ?_, ?_⟩
  · simp only [LoopInvocationCallInfo.write, h.writable.writeRange_eq, writeTracesToFile, h.walk_eq,
      htext, formatUnsigned_of_lt h.length_lt, count]
  · have hspace : Prints [' '] [] := Prints.char rfl
    have hlen : count < 2 ^ 64 := Nat.lt_trans h.length_lt (by decide)
    have hcount : Prints (decimal count ++ ['\n']) [.number count, .newline] :=
      Prints.number rfl hlen
    have hranges := prints_ranges h.writable.writtenRanges_eq.2.2.1
    have hall := hranges.append (hspace.append (hcount.append hprints))
    simpa [printedEntry, PrintedCallEntry.tokens, h.getNumTraces_walked, count] using hall

end EntryWritable

/-- The entries of a call trace, up to the completion symbol at the end. -/
theorem writeCallInfos_eq {infos : List LoopInvocationCallInfo} (loopRunning : Bool)
    (hne : infos ≠ []) (h : ∀ info ∈ infos, EntryWritable info) :
    ∃ text, writeCallInfos infos = some text ∧
      Prints (text ++ dumpSymbol loopRunning)
        (callEntriesTokens loopRunning (infos.map printedEntry)) := by
  induction infos with
  | nil => exact absurd rfl hne
  | cons info infos ih =>
      rcases (h info (by simp)).write_eq with ⟨text, htext, hprints⟩
      cases infos with
      | nil =>
          refine ⟨text, htext, ?_⟩
          simpa [callEntriesTokens] using hprints.append (prints_dumpSymbol loopRunning)
      | cons info' infos =>
          rcases ih (by simp) fun i hi => h i (List.mem_cons_of_mem _ hi) with
            ⟨rest, hrest, hprints'⟩
          refine ⟨text ++ (dumpCompleteSymbol ++ rest), by simp only [writeCallInfos, htext, hrest],
            ?_⟩
          have hall := hprints.append (prints_dumpCompleteSymbol.append hprints')
          simpa [callEntriesTokens] using hall

/-! ## The call trace -/

/-- The chunk that a write leaves. -/
def callChunk (loopRunning : Bool) (infos : List LoopInvocationCallInfo) : CallTraceChunk where
  entries := infos.map printedEntry
  loopRunning := loopRunning

/-- A write with entries leaves a chunk. -/
theorem writeCallTraces_eq {infos : List LoopInvocationCallInfo} (loopRunning : Bool)
    (hne : infos ≠ []) (hlen : infos.length < 2 ^ 31) (h : ∀ info ∈ infos, EntryWritable info) :
    (callChunk loopRunning infos).Valid ∧
      ∃ text, writeCallTraces infos loopRunning = some text ∧
        PrintsLines text (callChunk loopRunning infos).tokens := by
  constructor
  · refine ⟨by simpa [callChunk] using hne, ?_, ?_⟩
    · simp only [callChunk, List.length_map]
      omega
    · intro e he
      rcases List.mem_map.1 he with ⟨info, hinfo, rfl⟩
      exact (h info hinfo).valid
  · rcases writeCallInfos_eq loopRunning hne h with ⟨text, htext, hprints⟩
    have hpos := List.length_pos_of_ne_nil hne
    refine ⟨decimal infos.length ++ ('\n' :: (text ++ dumpSymbol loopRunning)), ?_, ?_, ?_⟩
    · simp only [writeCallTraces, hpos, if_true, htext, Option.map_some, formatInt_of_lt hlen]
    · have hcount : Prints (decimal infos.length ++ ['\n']) [.number infos.length, .newline] :=
        Prints.number rfl (by omega)
      simpa [callChunk, CallTraceChunk.tokens] using hcount.append hprints
    · rcases exists_dumpSymbol loopRunning with ⟨init, hinit⟩
      rw [hinit]
      exact Or.inr ⟨decimal infos.length ++ ('\n' :: (text ++ init)), by simp⟩

end CamAlias
