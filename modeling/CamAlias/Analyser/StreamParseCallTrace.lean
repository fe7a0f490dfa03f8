import CamAlias.Analyser.CallTraceCache
import CamAlias.Analyser.StreamParse
import CamAlias.Lexer.CallFirstPass
import Mathlib.Data.Finset.Sort

/-!
# StreamParseCallTrace — the calls of the invocations, one by one

`StreamParseCallTrace` of `CallTrace.cpp`, and the part of `loop_analysis_memeff` that looks up the
call trace of each invocation.  The cache of a call trace group is built for the first of its
invocations that is not empty, from the loop trace of that invocation, and kept for the others.
-/

namespace CamAlias

open Lib

/-- `StreamParseCallTrace`.  A pointer to a group of the list is an index. -/
structure StreamParseCallTrace where
  invocations : List CallTraceLoopInvocationGroup
  lut : RepetitionPatternLookup Nat

namespace StreamParseCallTrace

def new : StreamParseCallTrace where
  invocations := []
  lut := []

/-- `StreamParseCallTrace::addNewInvocationGroup`. -/
def addNewInvocationGroup (callTraces : StreamParseCallTrace)
    (invGroup : CallTraceLoopInvocationGroup) : StreamParseCallTrace :=
  { callTraces with invocations := callTraces.invocations ++ [invGroup] }

/-- `StreamParseCallTrace::empty`. -/
def empty (callTraces : StreamParseCallTrace) : Bool :=
  callTraces.invocations.all CallTraceLoopInvocationGroup.isEmpty

/-- `StreamParseCallTrace::buildLuts`. -/
def buildLuts (callTraces : StreamParseCallTrace) : StreamParseCallTrace :=
  let invocations := callTraces.invocations.map CallTraceLoopInvocationGroup.buildLuts
  { invocations
    lut := RepetitionPatternLookup.buildLut
      (invocations.zipIdx.map fun i => (i.1.repetitions, i.2)) }

/-- `StreamParseCallTrace::getInvocCallTraceFromInvocNumber`. -/
def getInvocCallTraceFromInvocNumber (callTraces : StreamParseCallTrace) (invocNum : Nat) :
    Except Fault Nat :=
  callTraces.lut.lookupData invocNum

/-- A change of a group. -/
def setGroup (callTraces : StreamParseCallTrace) (i : Nat) (clig : CallTraceLoopInvocationGroup) :
    StreamParseCallTrace :=
  { callTraces with invocations := callTraces.invocations.set i clig }

/-- `parseCallTrace`. -/
def parseCallTrace (fuel : Nat) (callTrace : List BzRead) : Except Fault StreamParseCallTrace :=
  (CallTraceStreamer.entryStream.readEntries fuel (CallTraceStreamer.ofFile callTrace)).map fun es =>
    es.foldl addNewInvocationGroup new

theorem invocations_foldl_add (es : List CallTraceLoopInvocationGroup) :
    ∀ callTraces : StreamParseCallTrace,
      (es.foldl addNewInvocationGroup callTraces).invocations = callTraces.invocations ++ es := by
  induction es with
  | nil => exact fun callTraces => (List.append_nil _).symm
  | cons e es ih =>
      intro callTraces
      rw [List.foldl_cons, ih, addNewInvocationGroup, List.append_assoc, List.singleton_append]

end StreamParseCallTrace

/-! ## The loop over all invocations -/

/-- What the analysis has of an invocation: its loop trace, and from `callInstanceIteratorBegin` to
`callInstanceIteratorEnd` the call instances of each sub-instruction.  Of an empty invocation nothing
is looked up. -/
structure InvocationCalls where
  invGroup : InvocationGroupCfc
  callInstances : UInt64 → List CallTraceInstructionCacheEntry

namespace InvocationCalls

/-- The entry belongs to a call that was made in iteration `k`. -/
def inIteration (calls : InvocationCalls) (k : Nat) (cii : CallTraceInstructionCacheEntry) : Bool :=
  match calls.invGroup.getIterationNumber cii.callID cii.callInstance with
  | .ok iter => iter == k
  | .error _ => false

/-- `getNumInstancesFromCII` of all entries of a sub-instruction with a call ID and an iteration. -/
def numInstances (calls : InvocationCalls) (k : Nat) (callID instrID : UInt64) : Nat :=
  (((calls.callInstances instrID).filter fun cii =>
    cii.callID == callID && calls.inIteration k cii).map
      CallTraceInstructionCacheEntry.getNumInstances).sum

end InvocationCalls

/-- The variables of `loop_analysis_memeff` for the call trace, and what the invocations gave. -/
structure CallAnalysis where
  callTraces : StreamParseCallTrace
  emptyCallTrace : CallTraceLoopInvocationGroup
  subInstrRunningCount : InstancesMap
  invocations : List InvocationCalls

namespace CallAnalysis

/-- `if (!invocCallTrace->isCallTraceCacheBuilt()) invocCallTrace->buildCallTraceCache(..)`. -/
def buildCache (fuel : Nat) (callList : List UInt64) (invGroup : InvocationGroupCfc)
    (invocCallTrace : CallTraceLoopInvocationGroup) (subInstrRunningCount : InstancesMap) :
    Except Fault (CallTraceLoopInvocationGroup × InstancesMap) :=
  if invocCallTrace.callTraceCacheBuilt then .ok (invocCallTrace, subInstrRunningCount)
  else invocCallTrace.buildCallTraceCache fuel invGroup subInstrRunningCount callList

/-- The body of the loop, up to the analysis of the memory traces. -/
def visitInvocation (fuel : Nat) (callList : List UInt64) (st : CallAnalysis) (invocNum : Nat)
    (invGroup : InvocationGroupCfc) : Except Fault CallAnalysis :=
  -- nothing is seen, and no cache is built
  if invGroup.isEmpty then
    .ok { st with invocations := st.invocations ++ [{ invGroup, callInstances := fun _ => [] }] }
  -- no calls at all: one empty group serves all invocations
  else if st.callTraces.empty then
    (buildCache fuel callList invGroup st.emptyCallTrace st.subInstrRunningCount).map fun built =>
      { st with
        emptyCallTrace := built.1
        subInstrRunningCount := built.2
        invocations :=
          st.invocations ++ [{ invGroup, callInstances := built.1.callInstances }] }
  else
    match st.callTraces.getInvocCallTraceFromInvocNumber invocNum with
    | .error e => .error e
    | .ok i =>
        match st.callTraces.invocations[i]? with
        | none => .error .outOfRange
        | some invocCallTrace =>
            (buildCache fuel callList invGroup invocCallTrace st.subInstrRunningCount).map
              fun built =>
                { st with
                  callTraces := st.callTraces.setGroup i built.1
                  subInstrRunningCount := built.2
                  invocations :=
                    st.invocations ++ [{ invGroup, callInstances := built.1.callInstances }] }

/-- The state before the loop. -/
def start (callTraces : StreamParseCallTrace) (subInstrList : Finset UInt64) : CallAnalysis where
  callTraces := callTraces.buildLuts
  emptyCallTrace := CallTraceLoopInvocationGroup.new
  subInstrRunningCount :=
    (subInstrList.sort (· ≤ ·)).foldl (fun counts instr => counts.insert instr 0) ∅
  invocations := []

end CallAnalysis

/-- Both passes over the call trace, and the loop over the invocations of the loop trace. -/
def readCallTrace (fuel : Nat) (loopTrace callTrace : List BzRead) :
    Except Fault (List InvocationCalls) :=
  match CallTraceStreamer.parseForInstructionLists callTrace with
  | .error e => .error e
  | .ok (callList, subInstrList) =>
      match StreamParseCallTrace.parseCallTrace fuel callTrace with
      | .error e => .error e
      | .ok callTraces =>
          (StreamParseLoopRec.forInvocations
            (CallAnalysis.visitInvocation fuel (callList.sort (· ≤ ·))) fuel
            (StreamParseLoopRec.ofFile loopTrace) (CallAnalysis.start callTraces subInstrList)).map
              CallAnalysis.invocations

/-- The elements of a `set`, in the order of its iterator. -/
def inSetOrder (ids : Finset UInt64) : List UInt64 :=
  ids.sort (· ≤ ·)

end CamAlias
