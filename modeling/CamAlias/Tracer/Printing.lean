import CamAlias.Lexer.LoopTraceFile

/-!
# Printing — what the written texts say

The texts of `Tracer/Write.lean` in front of any other text.  A group with fewer than `2 ^ 31` bits
for its sharers is written as the ranges of its members; `%d` writes a number of items below
`2 ^ 31` as it is, `%u` one below `2 ^ 32`.
-/

namespace CamAlias

open Lib

variable {α : Type}

theorem formatInt_of_lt {n : Nat} (h : n < 2 ^ 31) : formatInt n = decimal n := by
  rw [formatInt, toInt32_of_lt h]
  simp [signedDecimal]

theorem formatUnsigned_of_lt {n : Nat} (h : n < 2 ^ 32) : formatUnsigned n = decimal n := by
  rw [formatUnsigned, Nat.mod_eq_of_lt h]

/-! ## Groups -/

namespace SharedInfo

/-- The ranges that are written for the members. -/
def ranges (info : SharedInfo α) : List (Nat × Nat) :=
  (info.sharers.writtenRanges info.sharersOffset).getD []

/-- The members are written as they are: few enough bits, and no number wraps. -/
structure Writable (info : SharedInfo α) : Prop where
  length_lt : info.sharers.length < 2 ^ 31
  lt : ∀ n ∈ info.members, n < 2 ^ 64

variable {info : SharedInfo α}

theorem Writable.writtenRanges_eq (h : info.Writable) :
    info.sharers.writtenRanges info.sharersOffset = some info.ranges ∧ Ascending info.ranges ∧
      (∀ r ∈ info.ranges, r.1 ≤ r.2 ∧ r.2 < 2 ^ 64) ∧ numbers info.ranges = info.members := by
  have hlt : ∀ k ∈ info.sharers.members, info.sharersOffset + k < 2 ^ 64 := fun k hk =>
    h.lt _ (List.mem_map_of_mem hk)
  rcases XanBitSet.writtenRanges_eq_some h.length_lt hlt with ⟨rs, hrs, hasc, -, hbound, hnumbers⟩
  have hranges : info.ranges = rs := by simp [ranges, hrs]
  rw [hranges]
  exact ⟨hrs, hasc, fun r hr => ⟨hasc.le hr, hbound r hr⟩, hnumbers⟩

theorem Writable.writeRange_eq (h : info.Writable) :
    writeRange info.sharers info.sharersOffset = some ('{' :: printRangeList info.ranges) := by
  rw [writeRange, h.writtenRanges_eq.1, Option.map_some]

end SharedInfo

/-- What an iteration group or a call instance group says. -/
def SharedInfo.printed (info : SharedInfo ControlFlowCompressor) : PrintedGroup where
  ranges := info.ranges
  patterns := info.payload.contents

theorem SharedInfo.printed_text {info : SharedInfo ControlFlowCompressor} (h : info.Writable) :
    (writeRange info.sharers info.sharersOffset).map
        (fun text => text ++ (info.payload.print ++ ['\n'])) = some info.printed.print := by
  rw [h.writeRange_eq, Option.map_some, ControlFlowCompressor.print_eq]
  rfl

/-- The texts of items that all write, one after the other. -/
theorem writeAll_eq_some {β : Type} {write : β → Option (List Char)} {text : β → List Char}
    {xs : List β} (h : ∀ x ∈ xs, write x = some (text x)) :
    writeAll write xs = some (xs.flatMap text) := by
  induction xs with
  | nil => rfl
  | cons x xs ih =>
      simp only [writeAll, h x (by simp), ih fun y hy => h y (List.mem_cons_of_mem _ hy),
        List.flatMap_cons]

/-! ## Invocations of a loop -/

/-- What an invocation group of a loop says. -/
def printedInvocation (info : SharedInfo (List IterationInfo)) : PrintedInvocation where
  ranges := info.ranges
  iterations := info.payload.map SharedInfo.printed

/-- The invocation group is written as it is. -/
structure InvocationWritable (info : SharedInfo (List IterationInfo)) : Prop where
  writable : info.Writable
  length_lt : info.payload.length < 2 ^ 31
  iterations : ∀ it ∈ info.payload, it.Writable ∧
    TracerCompressionPattern.Printable it.payload.contents

namespace InvocationWritable

variable {info : SharedInfo (List IterationInfo)}

theorem valid (h : InvocationWritable info) : (printedInvocation info).Valid := by
  refine ⟨h.writable.writtenRanges_eq.2.2.1, h.writable.writtenRanges_eq.2.1, ?_, ?_⟩
  · intro g hg
    rcases List.mem_map.1 hg with ⟨it, hit, rfl⟩
    exact ⟨(h.iterations it hit).1.writtenRanges_eq.2.2.1, (h.iterations it hit).2.wellFormed⟩
  · have := h.length_lt
    simp only [printedInvocation, List.length_map]
    omega

/-- The text of an invocation group. -/
theorem write_eq (h : InvocationWritable info) :
    ∃ text, info.write LoopTrace.writeInvocation = some text ∧
      Prints text ((printedInvocation info).tokens ++ [.newline]) := by
  have hiterations : writeAll IterationInfo.write info.payload
      = some (info.payload.flatMap fun it => it.printed.print) :=
    writeAll_eq_some fun it hit => SharedInfo.printed_text (h.iterations it hit).1
  have hgroups : Prints (info.payload.flatMap fun it => it.printed.print)
      (info.payload.flatMap fun it => it.printed.tokens) :=
    Prints.flatMap fun it hit => PrintedGroup.prints_print
      (h.iterations it hit).1.writtenRanges_eq.2.2.1 (h.iterations it hit).2
  have hlen := h.length_lt
  have hcount : Prints (decimal info.payload.length ++ ['\n'])
      [.number info.payload.length, .newline] := Prints.number rfl (by omega)
  let text : List Char := decimal info.payload.length
    ++ '\n' :: info.payload.flatMap fun it => it.printed.print
  refine ⟨'{' :: printRangeList info.ranges ++ (text ++ ['\n']), ?_, ?_⟩
  · simp only [SharedInfo.write, h.writable.writeRange_eq, LoopTrace.writeInvocation, hiterations,
      Option.map_some, formatInt_of_lt h.length_lt, text]
  have hranges := prints_ranges h.writable.writtenRanges_eq.2.2.1
  have hall := hranges.append (hcount.append (hgroups.append Prints.newline))
  simpa [text, printedInvocation, PrintedInvocation.tokens, List.flatMap_map] using hall

end InvocationWritable

theorem prints_dumpCompleteSymbol : Prints dumpCompleteSymbol [.newline, .complete, .newline] := by
  have hnewline : Scans ['\n'] [.newline] := Scans.char (by decide)
  refine ⟨hnewline.append (Scans.completeSymbol.append hnewline), ?_⟩
  exact GapTo.before_separator (l := '\n' :: completeSymbol) rfl (by decide)

theorem prints_dumpSymbol (loopRunning : Bool) :
    Prints (dumpSymbol loopRunning) [.newline, dumpToken loopRunning, .newline] := by
  have hnewline : Scans ['\n'] [.newline] := Scans.char (by decide)
  cases loopRunning with
  | false => exact prints_dumpCompleteSymbol
  | true =>
      refine ⟨hnewline.append (Scans.incompleteSymbol.append hnewline), ?_⟩
      exact GapTo.before_separator (l := '\n' :: incompleteSymbol) rfl (by decide)

/-- Every write ends with the end of a line. -/
theorem exists_dumpSymbol (loopRunning : Bool) :
    ∃ init, dumpSymbol loopRunning = init ++ ['\n'] := by
  cases loopRunning with
  | false => exact ⟨'\n' :: completeSymbol, rfl⟩
  | true => exact ⟨'\n' :: incompleteSymbol, rfl⟩

/-- The groups of a loop trace, up to the completion symbol at the end. -/
theorem writeGroups_eq {infos : List (SharedInfo (List IterationInfo))} (loopRunning : Bool)
    (hne : infos ≠ []) (h : ∀ info ∈ infos, InvocationWritable info) :
    ∃ text, writeGroups LoopTrace.writeInvocation dumpCompleteSymbol infos = some text ∧
      Prints (text ++ ['\n'] ++ dumpSymbol loopRunning)
        (invocationsTokens loopRunning (infos.map printedInvocation)) := by
  induction infos with
  | nil => exact absurd rfl hne
  | cons info infos ih =>
      rcases (h info (by simp)).write_eq with ⟨text, htext, hprints⟩
      cases infos with
      | nil =>
          refine ⟨text, htext, ?_⟩
          have hall := (hprints.append Prints.newline).append (prints_dumpSymbol loopRunning)
          simpa [invocationsTokens] using hall
      | cons info' infos =>
          rcases ih (by simp) fun i hi => h i (List.mem_cons_of_mem _ hi) with
            ⟨rest, hrest, hprints'⟩
          refine ⟨text ++ (dumpCompleteSymbol ++ rest), by simp only [writeGroups, htext, hrest], ?_⟩
          have hall := hprints.append (prints_dumpCompleteSymbol.append hprints')
          simpa [invocationsTokens] using hall

/-! ## The loop trace -/

/-- The chunk that a write leaves, if the trace `item` is the one with groups. -/
def loopChunk (loopRunning : Bool) (item : UInt64 × LoopTrace) : LoopTraceChunk where
  loopID := item.1
  invocations := item.2.groups.infos.map printedInvocation
  loopRunning := loopRunning

/-- All groups of a loop trace are written as they are. -/
structure LoopTraceWritable (trace : LoopTrace) : Prop where
  length_lt : trace.groups.infos.length < 2 ^ 32
  infos : ∀ info ∈ trace.groups.infos, InvocationWritable info

/-- A trace without groups leaves nothing. -/
theorem ExecTrace.write_empty {writeInvocation : α → Option (List Char)} {between : List Char}
    {id : UInt64} {trace : ExecTrace α} (h : trace.groups.infos = []) :
    ExecTrace.write writeInvocation between id trace = some [] := by
  simp [ExecTrace.write, h]

/-- A write with groups in one trace leaves a chunk. -/
theorem writeLoopTraces_eq (item : UInt64 × LoopTrace) (loopRunning : Bool)
    (hne : item.2.groups.infos ≠ []) (h : LoopTraceWritable item.2) :
    (loopChunk loopRunning item).Valid ∧
      ∃ text, writeLoopTraces [item] loopRunning = some text ∧
        PrintsLines text (loopChunk loopRunning item).tokens := by
  have hlen := h.length_lt
  constructor
  · refine ⟨by simpa [loopChunk] using hne, ?_, ?_⟩
    · simp only [loopChunk, List.length_map]
      omega
    · intro inv hinv
      rcases List.mem_map.1 hinv with ⟨info, hinfo, rfl⟩
      exact (h.infos info hinfo).valid
  · rcases writeGroups_eq loopRunning hne h.infos with ⟨text, htext, hprints⟩
    have hpos := List.length_pos_of_ne_nil hne
    let written : List Char := decimal item.1.toNat ++ (' ' :: (decimal item.2.groups.infos.length
      ++ ('\n' :: (text ++ ['\n']))))
    have hitem : LoopTrace.write item = some written := by
      simp only [LoopTrace.write, ExecTrace.write, hpos, if_true, htext, Option.map_some,
        formatUnsigned_of_lt hlen, written]
    have hall : writeTracesToFile LoopTrace.write [item] = some written := by
      simp only [writeTracesToFile, HashTable.walk_singleton, writeAll, hitem, List.append_nil]
    refine ⟨written ++ dumpSymbol loopRunning, ?_, ?_, ?_⟩
    · simp [writeLoopTraces, hall]
    · have hid : Prints (decimal item.1.toNat ++ [' ']) [.number item.1.toNat] :=
        Prints.number rfl item.1.toNat_lt
      have hcount : Prints (decimal item.2.groups.infos.length ++ ['\n'])
          [.number item.2.groups.infos.length, .newline] := Prints.number rfl (by omega)
      have hchunk := hid.append (hcount.append hprints)
      simpa [written, loopChunk, LoopTraceChunk.tokens] using hchunk
    · rcases exists_dumpSymbol loopRunning with ⟨init, hinit⟩
      rw [hinit]
      exact Or.inr ⟨written ++ init, (List.append_assoc _ _ _).symm⟩

end CamAlias
