import CamAlias.Tracer.Write

/-!
# Api — the tracer as a state machine over the calls of its interface

`PassGlobals` and the `CAM_profile…` functions of `loop_trace.cpp`.  A step is `none` where the
library aborts, fails an assertion or uses a running structure of the wrong kind.

`checkDumpTraces` takes a dump when too much memory is in use.  It calls the same `dumpTraces` as
`CAM_forceLoopTraceDump`, so an automatic dump is the call `forceLoopTraceDump` after the operation
that triggered it.
-/

namespace CamAlias

/-- `COMPRESSION_WINDOW_SIZE`. -/
def compressionWindowSize : Nat := 50

def newCFC : ControlFlowCompressor :=
  ControlFlowCompressor.new compressionWindowSize

/-- `RunningLoop`; `loopID` is the key of its `trace`. -/
structure RunningLoop where
  loopID : UInt64
  invocationNum : Nat
  iterationNum : Int
  partiallyDumped : Bool
  currCFC : ControlFlowCompressor
  iterationInfos : ShareTable ControlFlowCompressor

/-- `RunningCall`; `callID` is the key of its `trace`. -/
structure RunningCall where
  callID : UInt64
  invocationNum : Nat
  partiallyDumped : Bool
  currCFC : ControlFlowCompressor

/-- `PassGlobals`.  A loop is started on an empty stack only, so the stack is a loop with the calls
on top of it, youngest first.  A loop in the pool keeps its `currCFC`; that of a call is empty. -/
structure PassGlobals where
  loopInvCallInfos : ShareTable CallTraces
  loopTraces : HashTable LoopTrace
  callTraces : CallTraces
  runningStack : Option (RunningLoop × List RunningCall)
  runningLoopPool : List ControlFlowCompressor
  waitingForInvocCompletion : Bool
  loopCompressedFile : List Char
  callCompressedFile : List Char

/-! ## Finishing iterations and invocations -/

/-- `RunningLoop::recordInstsSeenOnIteration`. -/
def RunningLoop.recordInstsSeenOnIteration (running : RunningLoop) : Option RunningLoop :=
  if running.iterationNum = -1 then some running
  else
    match running.iterationInfos.share ControlFlowCompressor.beq running.currCFC
        running.iterationNum.toNat true with
    | none => none
    | some (iterationInfos, matchFound) =>
        some { running with
          iterationInfos
          currCFC := if matchFound then running.currCFC.clear else newCFC }

/-- `ExecTrace::processInvocation`. -/
def ExecTrace.processInvocation {α : Type} (invocationsMatch : α → α → Bool) (trace : ExecTrace α)
    (invocation : α) (invocationNum : Nat) (attemptMatch : Bool) : Option (ExecTrace α × Bool) :=
  (trace.groups.share invocationsMatch invocation invocationNum attemptMatch).map
    fun r => ({ trace with groups := r.1 }, !r.2)

namespace PassGlobals

/-- `PassGlobals::PassGlobals`. -/
def new : PassGlobals where
  loopInvCallInfos := ShareTable.empty
  loopTraces := []
  callTraces := []
  runningStack := none
  runningLoopPool := []
  waitingForInvocCompletion := false
  loopCompressedFile := []
  callCompressedFile := []

/-- `PassGlobals::loopRunning`. -/
def loopRunning (globals : PassGlobals) : Bool :=
  globals.runningStack.isSome

/-- `RunningLoop::finishInvocation`. -/
def finishLoop (globals : PassGlobals) (running : RunningLoop) (attemptMatch : Bool) :
    Option (PassGlobals × RunningLoop) :=
  match running.recordInstsSeenOnIteration, globals.loopTraces.lookup running.loopID with
  | some running, some trace =>
      match trace.processInvocation LoopTrace.invocationsMatch running.iterationInfos.infos
          running.invocationNum attemptMatch with
      | none => none
      | some (trace, _) =>
          some ({ globals with loopTraces := HashTable.set globals.loopTraces running.loopID trace },
            { running with iterationInfos := ShareTable.empty })
  | _, _ => none

/-- `RunningCall::finishInvocation`. -/
def finishCall (globals : PassGlobals) (running : RunningCall) (attemptMatch : Bool) :
    Option (PassGlobals × RunningCall) :=
  match globals.callTraces.lookup running.callID with
  | none => none
  | some trace =>
      match trace.processInvocation CallTrace.invocationsMatch running.currCFC
          running.invocationNum attemptMatch with
      | none => none
      | some (trace, newGroup) =>
          some ({ globals with callTraces := HashTable.set globals.callTraces running.callID trace },
            { running with currCFC := if newGroup then newCFC else running.currCFC.clear })

/-- `PassGlobals::recordCallTracesForInvocation`. -/
def recordCallTracesForInvocation (globals : PassGlobals) (invNum : Nat) (attemptMatch : Bool) :
    Option PassGlobals :=
  (globals.loopInvCallInfos.share CallTraces.isEqual globals.callTraces invNum attemptMatch).map
    fun r => { globals with loopInvCallInfos := r.1 }

/-! ## Dumps -/

/-- `PassGlobals::writeTraces`. -/
def writeTraces (globals : PassGlobals) : Option PassGlobals :=
  match writeLoopTraces globals.loopTraces globals.loopRunning,
      writeCallTraces globals.loopInvCallInfos.infos globals.loopRunning with
  | some loopText, some callText =>
      some { globals with
        loopCompressedFile := globals.loopCompressedFile ++ loopText
        callCompressedFile := globals.callCompressedFile ++ callText }
  | _, _ => none

/-- Mark a running call as partially dumped and finish it without a match. -/
def dumpCalls (globals : PassGlobals) : List RunningCall → Option (PassGlobals × List RunningCall)
  | [] => some (globals, [])
  | running :: calls =>
      match globals.finishCall { running with partiallyDumped := true } false with
      | none => none
      | some (globals, running) =>
          (dumpCalls globals calls).map fun r => (r.1, running :: r.2)

/-- The first half of `dumpTraces`: write all current data into the traces. -/
def saveRunning (globals : PassGlobals) : Option PassGlobals :=
  match globals.runningStack with
  | none => some globals
  | some (loop, calls) =>
      match globals.dumpCalls calls with
      | none => none
      | some (globals, calls) =>
          match globals.finishLoop { loop with partiallyDumped := true } false with
          | none => none
          | some (globals, loop) =>
              recordCallTracesForInvocation { globals with runningStack := some (loop, calls) }
                loop.invocationNum false

/-- The second half of `dumpTraces`: clear what has been written. -/
def clearDumped (globals : PassGlobals) : PassGlobals :=
  { globals with
    loopTraces := clearTraces globals.loopTraces
    callTraces := clearTraces globals.callTraces
    loopInvCallInfos := ShareTable.empty
    waitingForInvocCompletion := true }

/-- `PassGlobals::dumpTraces`. -/
def dumpTraces (globals : PassGlobals) : Option PassGlobals :=
  match globals.saveRunning with
  | none => none
  | some globals => globals.writeTraces.map clearDumped

end PassGlobals

/-! ## The interface -/

inductive ApiCall
  | loopInvocationStart (loopID : UInt64)
  | loopInvocationEnd
  | loopIterationStart
  | seenInstruction (instID : UInt64)
  | callInvocationStart (instID : UInt64)
  | callInvocationEnd
  | forceLoopTraceDump
  deriving DecidableEq, Repr

namespace PassGlobals

/-- `CAM_profileLoopInvocationStart`. -/
def loopInvocationStart (globals : PassGlobals) (loopID : UInt64) : Option PassGlobals :=
  match globals.runningStack with
  | some _ => none
  | none =>
      let trace := (globals.loopTraces.lookup loopID).getD ExecTrace.new
      let (currCFC, pool) :=
        match globals.runningLoopPool with
        | [] => (newCFC, [])
        | currCFC :: pool => (currCFC, pool)
      some { globals with
        loopTraces := HashTable.set globals.loopTraces loopID
          { trace with numInvocations := trace.numInvocations + 1 }
        runningLoopPool := pool
        runningStack := some ({
          loopID
          invocationNum := trace.numInvocations
          iterationNum := -1
          partiallyDumped := false
          currCFC
          iterationInfos := ShareTable.empty }, []) }

/-- `CAM_profileLoopInvocationEnd`. -/
def loopInvocationEnd (globals : PassGlobals) : Option PassGlobals :=
  match globals.runningStack with
  | some (running, []) =>
      match finishLoop { globals with runningStack := none } running (!running.partiallyDumped) with
      | none => none
      | some (globals, running) =>
          (recordCallTracesForInvocation
              { globals with runningLoopPool := running.currCFC :: globals.runningLoopPool }
              running.invocationNum (!globals.waitingForInvocCompletion)).map fun globals =>
            { globals with callTraces := [], waitingForInvocCompletion := false }
  | _ => none

/-- `CAM_profileLoopIterationStart`. -/
def loopIterationStart (globals : PassGlobals) : Option PassGlobals :=
  match globals.runningStack with
  | some (running, []) =>
      running.recordInstsSeenOnIteration.map fun running =>
        { globals with
          runningStack := some ({ running with iterationNum := running.iterationNum + 1 }, []) }
  | _ => none

/-- `CAM_profileLoopSeenInstruction`. -/
def seenInstruction (globals : PassGlobals) (instID : UInt64) : PassGlobals :=
  match globals.runningStack with
  | none => globals
  | some (loop, []) =>
      { globals with
        runningStack := some ({ loop with currCFC := loop.currCFC.insertSymbol instID }, []) }
  | some (loop, call :: calls) =>
      { globals with
        runningStack := some (loop, { call with currCFC := call.currCFC.insertSymbol instID } :: calls) }

/-- `CAM_profileCallInvocationStart`. -/
def callInvocationStart (globals : PassGlobals) (instID : UInt64) : PassGlobals :=
  match globals.runningStack with
  | none => globals
  | some (loop, calls) =>
      let trace := (globals.callTraces.lookup instID).getD ExecTrace.new
      { globals with
        callTraces := HashTable.set globals.callTraces instID
          { trace with numInvocations := trace.numInvocations + 1 }
        runningStack := some (loop, {
          callID := instID
          invocationNum := trace.numInvocations
          partiallyDumped := false
          currCFC := newCFC } :: calls) }

/-- `CAM_profileCallInvocationEnd`. -/
def callInvocationEnd (globals : PassGlobals) : Option PassGlobals :=
  match globals.runningStack with
  | none => some globals
  | some (_, []) => none
  | some (loop, running :: calls) =>
      (finishCall { globals with runningStack := some (loop, calls) } running
        (!running.partiallyDumped)).map fun r => r.1

/-- Whether the call counts as an operation: outside loops, instructions and calls do not. -/
def isOperation (globals : PassGlobals) : ApiCall → Bool
  | .loopInvocationStart _ | .loopInvocationEnd | .loopIterationStart => true
  | .seenInstruction _ | .callInvocationStart _ | .callInvocationEnd => globals.loopRunning
  | .forceLoopTraceDump => false

/-- One call of the interface, without the timeout. -/
def step (globals : PassGlobals) : ApiCall → Option PassGlobals
  | .loopInvocationStart loopID => globals.loopInvocationStart loopID
  | .loopInvocationEnd => globals.loopInvocationEnd
  | .loopIterationStart => globals.loopIterationStart
  | .seenInstruction instID => some (globals.seenInstruction instID)
  | .callInvocationStart instID => some (globals.callInvocationStart instID)
  | .callInvocationEnd => globals.callInvocationEnd
  | .forceLoopTraceDump => globals.dumpTraces

end PassGlobals

/-! ## The timeout -/

/-- The part of `TimeoutCounter` that the tracer looks at. -/
structure TimeoutCounter where
  timedOut : Bool
  numOperations : Nat

/-- `TimeoutCounter::recordOperation`, and whether it returned true.  `late` is the answer of the
clock, asked for at every millionth operation. -/
def TimeoutCounter.recordOperation (counter : TimeoutCounter) (late : Bool) :
    TimeoutCounter × Bool :=
  let numOperations := counter.numOperations + 1
  if counter.timedOut then ({ counter with numOperations }, true)
  else
    ({ numOperations, timedOut := numOperations % 1000000 == 0 && late }, false)

/-- The library: `globals` and `timeoutCounter`. -/
structure LoopTracer where
  globals : PassGlobals
  timeoutCounter : TimeoutCounter

namespace LoopTracer

/-- `loop_trace_init`. -/
def init : LoopTracer where
  globals := PassGlobals.new
  timeoutCounter := { timedOut := false, numOperations := 0 }

/-- One call of the interface. -/
def step (t : LoopTracer) (call : ApiCall) (late : Bool) : Option LoopTracer :=
  if t.globals.isOperation call then
    let (timeoutCounter, skip) := t.timeoutCounter.recordOperation late
    if skip then some { t with timeoutCounter }
    else (t.globals.step call).map fun globals => { globals, timeoutCounter }
  else (t.globals.step call).map fun globals => { t with globals }

/-- A sequence of calls, each with the answer of the clock. -/
def run (t : LoopTracer) : List (ApiCall × Bool) → Option LoopTracer
  | [] => some t
  | c :: cs =>
      match t.step c.1 c.2 with
      | none => none
      | some t => run t cs

/-- The loop trace and the call trace. -/
structure Files where
  loopTrace : List Char
  callTrace : List Char

/-- `loop_trace_shutdown`: nothing is written if the library was never used. -/
def shutdown (t : LoopTracer) : Option (Option Files) :=
  if 0 < t.timeoutCounter.numOperations then
    match t.globals.writeTraces with
    | none => none
    | some globals =>
        if !t.timeoutCounter.timedOut && globals.loopRunning then none
        else some (some {
          loopTrace := globals.loopCompressedFile
          callTrace := globals.callCompressedFile })
  else some none

end LoopTracer
end CamAlias
