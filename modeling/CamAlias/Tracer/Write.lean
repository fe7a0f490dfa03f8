import CamAlias.Lexer.Cfc
import CamAlias.Tracer.Traces

/-!
# Write — the text of the loop trace and of the call trace

The `write…ToFile` functions of `loop_trace.cpp`.  A text is `none` where
`writeRangeToCompressedFile` fails its assertion or does not end, or where a hash table could not grow;
everything else always writes.
-/

namespace CamAlias

/-- `"%u"` on a number of items. -/
def formatUnsigned (n : Nat) : List Char :=
  Lib.decimal (n % 2 ^ 32)

/-- `"%d"` and `"%i"` on a number of items. -/
def formatInt (n : Nat) : List Char :=
  Lib.signedDecimal (toInt32 n)

/-- The texts of a list of items, one after the other. -/
def writeAll {α : Type} (write : α → Option (List Char)) : List α → Option (List Char)
  | [] => some []
  | x :: xs =>
      match write x, writeAll write xs with
      | some text, some rest => some (text ++ rest)
      | _, _ => none

/-! ## Ranges -/

/-- One range: a single number, or its two ends. -/
def printRange (r : Nat × Nat) : List Char :=
  if r.1 = r.2 then Lib.decimal r.1 else Lib.decimal r.1 ++ ('-' :: Lib.decimal r.2)

/-- The ranges with commas between them, and what follows the last of them. -/
def printRangeList : List (Nat × Nat) → List Char
  | [] => ['}', ' ']
  | [r] => printRange r ++ ['}', ' ']
  | r :: rs => printRange r ++ (',' :: printRangeList rs)

/-- `writeRangeToCompressedFile`. -/
def writeRange (sharers : XanBitSet) (sharersOffset : Nat) : Option (List Char) :=
  (sharers.writtenRanges sharersOffset).map fun rs => '{' :: printRangeList rs

/-! ## Invocations and traces -/

/-- One iteration of `LoopTrace::writeInvocationToFile`. -/
def IterationInfo.write (info : IterationInfo) : Option (List Char) :=
  (writeRange info.sharers info.sharersOffset).map fun text => text ++ (info.payload.print ++ ['\n'])

/-- `LoopTrace::writeInvocationToFile`. -/
def LoopTrace.writeInvocation (invocation : List IterationInfo) : Option (List Char) :=
  (writeAll IterationInfo.write invocation).map fun text =>
    formatInt invocation.length ++ ('\n' :: text)

/-- `CallTrace::writeInvocationToFile`. -/
def CallTrace.writeInvocation (invocation : ControlFlowCompressor) : Option (List Char) :=
  some invocation.print

/-- `InvocationInfo::writeInvocationToFile` and the end of its line. -/
def SharedInfo.write {α : Type} (writeInvocation : α → Option (List Char)) (info : SharedInfo α) :
    Option (List Char) :=
  match writeRange info.sharers info.sharersOffset, writeInvocation info.payload with
  | some range, some text => some (range ++ (text ++ ['\n']))
  | _, _ => none

/-- `writeDumpCompleteSymbol`. -/
def dumpCompleteSymbol : List Char :=
  '\n' :: (completeSymbol ++ ['\n'])

/-- `writeDumpIncompleteSymbol`. -/
def dumpIncompleteSymbol : List Char :=
  '\n' :: (incompleteSymbol ++ ['\n'])

/-- The groups of `ExecTrace::writeTraceToFile`, with `between` after each but the last. -/
def writeGroups {α : Type} (writeInvocation : α → Option (List Char)) (between : List Char) :
    List (SharedInfo α) → Option (List Char)
  | [] => some []
  | [info] => info.write writeInvocation
  | info :: infos =>
      match info.write writeInvocation, writeGroups writeInvocation between infos with
      | some text, some rest => some (text ++ (between ++ rest))
      | _, _ => none

/-- `ExecTrace::writeTraceToFile`; `between` is empty for a call trace. -/
def ExecTrace.write {α : Type} (writeInvocation : α → Option (List Char)) (between : List Char)
    (id : UInt64) (trace : ExecTrace α) : Option (List Char) :=
  let infos := trace.groups.infos
  if infos.length > 0 then
    (writeGroups writeInvocation between infos).map fun text =>
      Lib.decimal id.toNat ++ (' ' :: (formatUnsigned infos.length ++ ('\n' :: (text ++ ['\n']))))
  else some []

/-- `ExecTrace::writeTraceToFile` of a loop trace. -/
def LoopTrace.write (item : UInt64 × LoopTrace) : Option (List Char) :=
  ExecTrace.write LoopTrace.writeInvocation dumpCompleteSymbol item.1 item.2

/-- `ExecTrace::writeTraceToFile` of a call trace. -/
def CallTrace.write (item : UInt64 × CallTrace) : Option (List Char) :=
  ExecTrace.write CallTrace.writeInvocation [] item.1 item.2

/-- `writeTracesToFile`: the traces of a table, in the order of its buckets. -/
def writeTracesToFile {α : Type} (write : UInt64 × α → Option (List Char)) (traces : HashTable α) :
    Option (List Char) :=
  match traces.walk with
  | none => none
  | some items => writeAll write items

/-! ## The two files -/

/-- The completion symbol at the end of what `writeTraces` writes to a file. -/
def dumpSymbol (loopRunning : Bool) : List Char :=
  if loopRunning then dumpIncompleteSymbol else dumpCompleteSymbol

/-- What `writeTraces` writes to the loop trace. -/
def writeLoopTraces (loopTraces : HashTable LoopTrace) (loopRunning : Bool) :
    Option (List Char) :=
  if loopTraces.length > 0 then
    (writeTracesToFile LoopTrace.write loopTraces).map fun text => text ++ dumpSymbol loopRunning
  else some []

/-- The invocation pattern, the number of call IDs and the call traces of one entry. -/
def LoopInvocationCallInfo.write (info : LoopInvocationCallInfo) : Option (List Char) :=
  match writeRange info.sharers info.sharersOffset,
      writeTracesToFile CallTrace.write info.payload with
  | some range, some text =>
      some (range ++ (' ' :: (formatUnsigned info.payload.getNumTraces ++ ('\n' :: text))))
  | _, _ => none

/-- The entries of the call trace, with a completion symbol after each but the last. -/
def writeCallInfos : List LoopInvocationCallInfo → Option (List Char)
  | [] => some []
  | [info] => info.write
  | info :: infos =>
      match info.write, writeCallInfos infos with
      | some text, some rest => some (text ++ (dumpCompleteSymbol ++ rest))
      | _, _ => none

/-- What `writeTraces` writes to the call trace. -/
def writeCallTraces (loopInvCallInfos : List LoopInvocationCallInfo) (loopRunning : Bool) :
    Option (List Char) :=
  if loopInvCallInfos.length > 0 then
    (writeCallInfos loopInvCallInfos).map fun text =>
      formatInt loopInvCallInfos.length ++ ('\n' :: (text ++ dumpSymbol loopRunning))
  else some []

end CamAlias
