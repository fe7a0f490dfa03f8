import CamAlias.Analyser.StreamParseCallTrace
import CamAlias.Dependence.OverlapIterator
import CamAlias.Dependence.PairMenu
import CamAlias.Lexer.FirstPass
import CamAlias.Lexer.StaticDdg
import CamAlias.Memory.Chunk
import CamAlias.Tracer.BitSetOps

/-!
# LoopAnalysis — the dependences of a loop

`loop_analysis_memeff` of `dependence_analysis.cpp` goes through the invocations with the streamers of
the memory traces, the menus of the pairs that are still to be checked, and the dependences found so
far.  A pair reads the accesses that it needs from their streams, unless an earlier pair of the
invocation has; once a dependence is found, the pair can be erased from its menu.

With `adjacent` no dependence is recorded: a pair stays on its menu as long as every iteration of an
invocation, from the first one up to the last one that has a dependence, has one on a neighbour.

`isAlias` and `std::sort` are parameters.
-/

namespace CamAlias

/-! ## The accesses of an invocation -/

/-- What the traces have of an invocation. -/
structure InvocationTraces where
  invocGroup : InvocationGroupCfc
  invocCallTrace : CallTraceLoopInvocationGroup

namespace InvocationTraces

/-- `getNumInstancesInInvocation`. -/
def getNumInstancesInInvocation (inv : InvocationTraces) (subInstrList : Finset UInt64)
    (id : UInt64) : Nat :=
  if id ∈ subInstrList then inv.invocCallTrace.getNumInstances id
  else inv.invocGroup.getNumInstances id

/-- `subInstrList.find(id) == subInstrList.end() || invocCallTrace.isConstantCallID(id)`. -/
def hasConstantCallID (inv : InvocationTraces) (subInstrList : Finset UInt64) (id : UInt64) :
    Except Fault Bool :=
  if id ∈ subInstrList then inv.invocCallTrace.isConstantCallID id else .ok true

end InvocationTraces

/-- `getNextChunk`, `initialiseSliceIterator` and `getInvocationSliceWithIterTags`. -/
def MemoryTraceStreamer.nextSlice (fuel : Nat) (s : MemoryTraceStreamer) (inv : InvocationTraces)
    (instrID : UInt64) (instances : Nat) : Except Fault (List MemSetEntry × MemoryTraceStreamer) :=
  match s.getNextChunk (BitVec.ofNat 64 instances) false with
  | .error e => .error e
  | .ok (chunk, s) =>
      let slice : MemSet := { entries := chunk, sliceIterator := 0, outstandingInstances := 0 }
      match slice.initialiseSliceIterator.getInvocationSliceWithIterTags instrID inv.invocGroup fuel
          inv.invocCallTrace with
      | .error e => .error e
      | .ok (slice, _) => .ok (slice, s)

/-- `StaticInstRec`: a set that has been built, and the tree of the write set. -/
structure StaticInstRec where
  readSet : Option (List MemSetEntry) := none
  writeSet : Option (List MemSetEntry) := none
  writeTree : Option (IntervalTree Nat MemSetEntry) := none

namespace StaticInstRec

/-- `getReadSet`, `getWriteSet`. -/
def getSet (r : StaticInstRec) : Stream → Option (List MemSetEntry)
  | .read => r.readSet
  | .write => r.writeSet

/-- `setReadSet`, `setWriteSet`. -/
def setSet (r : StaticInstRec) (stream : Stream) (set : List MemSetEntry) : StaticInstRec :=
  match stream with
  | .read => { r with readSet := some set }
  | .write => { r with writeSet := some set }

end StaticInstRec

/-- `MemSetEntry::toInterval`. -/
def MemSetEntry.toInterval (e : MemSetEntry) : Interval Nat MemSetEntry where
  start := e.getLowerExtent.toNat
  stop := e.getUpperExtent.toNat
  value := e

/-- `StaticInstRec::buildIntervalTree`, with the default depth and bucket sizes. -/
def buildIntervalTree (sorter : StartSort Nat MemSetEntry) (memset : List MemSetEntry) :
    Option (IntervalTree Nat MemSetEntry) :=
  IntervalTree.new sorter (memset.map MemSetEntry.toInterval) 16 64 512

/-- The streamers of all memory traces, and the accesses of the invocation that have been read. -/
structure InvocationAccesses where
  memtraceStreamers : UInt64 × Stream → Option MemoryTraceStreamer
  invMemoryTrace : UInt64 → StaticInstRec

namespace InvocationAccesses

variable (fuel : Nat) (subInstrList : Finset UInt64) (inv : InvocationTraces)
  (sorter : StartSort Nat MemSetEntry)

/-- `if(!invMemoryTrace[id].hasReadSet())` or `hasWriteSet`, and what follows it. -/
def buildSet (a : InvocationAccesses) (id : UInt64) (stream : Stream) :
    Except Fault InvocationAccesses :=
  match (a.invMemoryTrace id).getSet stream with
  | some _ => .ok a
  | none =>
      match a.memtraceStreamers (id, stream) with
      | none => .error .outOfRange
      | some s =>
          match s.nextSlice fuel inv id (inv.getNumInstancesInInvocation subInstrList id) with
          | .error e => .error e
          | .ok (slice, s) =>
              .ok {
                memtraceStreamers := Function.update a.memtraceStreamers (id, stream) (some s)
                invMemoryTrace := Function.update a.invMemoryTrace id
                  ((a.invMemoryTrace id).setSet stream slice) }

/-- `if(!invMemoryTrace[id].hasWriteTree())`: the tree. -/
def buildWriteTree (a : InvocationAccesses) (id : UInt64) :
    Except Fault (IntervalTree Nat MemSetEntry × InvocationAccesses) :=
  match (a.invMemoryTrace id).writeTree with
  | some tree => .ok (tree, a)
  | none =>
      match buildIntervalTree sorter ((a.invMemoryTrace id).writeSet.getD []) with
      | none => .error .outOfRange
      | some tree =>
          .ok (tree, { a with
            invMemoryTrace := Function.update a.invMemoryTrace id
              { a.invMemoryTrace id with writeTree := some tree } })

end InvocationAccesses

/-! ## The pairs of an invocation -/

/-- `recordDependencePair`. -/
def recordDependencePair (effectiveAddrA effectiveAddrB : UInt64)
    (dependence_pairs : Finset (UInt64 × UInt64)) (recordReverse : Bool) :
    Finset (UInt64 × UInt64) :=
  if recordReverse then
    insert (effectiveAddrB, effectiveAddrA) (insert (effectiveAddrA, effectiveAddrB) dependence_pairs)
  else insert (effectiveAddrA, effectiveAddrB) dependence_pairs

section Search

variable {σ : Type _} (isAlias : MemSetEntry → MemSetEntry → Option Bool)
  (foundAlias : MemSetEntry → MemSetEntry → σ → Except Fault (σ × Bool))

/-- The loop over the intervals that overlap `memIt`; `foundAlias` says whether it is left. -/
def checkOverlaps (memIt : MemSetEntry) :
    Nat → Option (IntervalTree.OverlapIterator Nat MemSetEntry) → σ → Except Fault (σ × Bool)
  | _, none, st => .ok (st, false)
  | 0, some _, _ => .error .noFuel
  | rounds + 1, some oiter, st =>
      match oiter.interval? with
      | none => .error .outOfRange
      | some ivl =>
          let next := IntervalTree.overlapIteratorNext memIt.getLowerExtent.toNat
            memIt.getUpperExtent.toNat oiter.node oiter.parents oiter.position false
          if ivl.value.iterationNumber = memIt.iterationNumber then
            checkOverlaps memIt rounds next st
          else
            match isAlias ivl.value memIt with
            | none => .error .divisionByZero
            | some false => checkOverlaps memIt rounds next st
            | some true =>
                match foundAlias ivl.value memIt st with
                | .error e => .error e
                | .ok (st, true) => .ok (st, true)
                | .ok (st, false) => checkOverlaps memIt rounds next st

/-- The loop over `readsB`. -/
def checkReads (fuel : Nat) (writeTreeA : IntervalTree Nat MemSetEntry) :
    List MemSetEntry → σ → Except Fault (σ × Bool)
  | [], st => .ok (st, false)
  | memIt :: readsB, st =>
      match checkOverlaps isAlias foundAlias memIt fuel
          (writeTreeA.overlapIteratorBegin memIt.getLowerExtent.toNat memIt.getUpperExtent.toNat)
          st with
      | .error e => .error e
      | .ok (st, true) => .ok (st, true)
      | .ok (st, false) => checkReads fuel writeTreeA readsB st

end Search

/-- The options of `cam` that the analysis looks at. -/
structure AnalysisArgs where
  adjacent : Bool := false
  checkstaticdepsonly : Bool := false
  deriving DecidableEq

/-- What the search for one pair fills. -/
structure PairSearch where
  iterationsWithAdjacentDependence : XanBitWords
  dependence_pairs : Finset (UInt64 × UInt64)

/-- `abs(it1 - it2) < 2`, on `int64_t`. -/
def areAdjacent (it1 it2 : Nat) : Bool :=
  let difference := Int64.ofNat it1 - Int64.ofNat it2
  decide ((if difference < 0 then -difference else difference) < 2)

section Pairs

variable (args : AnalysisArgs) (isAlias : MemSetEntry → MemSetEntry → Option Bool)
  (sorter : StartSort Nat MemSetEntry) (fuel : Nat) (subInstrList : Finset UInt64)
  (inv : InvocationTraces) (WAW : Bool) (instrPair : UInt64 × UInt64)

/-- The condition under which the pair is erased from the menu. -/
def constantCallIDs : Except Fault Bool :=
  match inv.hasConstantCallID subInstrList instrPair.1 with
  | .error e => .error e
  | .ok false => .ok false
  | .ok true => inv.hasConstantCallID subInstrList instrPair.2

/-- What is done with two entries that alias.  The flag is `pairComplete`. -/
def foundAlias (write read : MemSetEntry) (st : PairSearch) : Except Fault (PairSearch × Bool) :=
  if args.adjacent then
    if areAdjacent write.iterationNumber read.iterationNumber then
      .ok ({ st with
        iterationsWithAdjacentDependence :=
          (st.iterationsWithAdjacentDependence.setBit write.iterationNumber).setBit
            read.iterationNumber }, false)
    else .ok (st, false)
  else
    let st := { st with
      dependence_pairs := recordDependencePair write.effectiveInstrID read.effectiveInstrID
        st.dependence_pairs WAW }
    match constantCallIDs subInstrList inv instrPair with
    | .error e => .error e
    | .ok pairComplete => .ok (st, pairComplete)

/-- The search for one pair: the dependences, and whether the pair is erased.  With `adjacent` it is
erased behind the loops, if the iterations with an adjacent dependence have a gap. -/
def searchPair (writeTreeA : IntervalTree Nat MemSetEntry) (readsB : List MemSetEntry)
    (pairs : Finset (UInt64 × UInt64)) : Except Fault (Finset (UInt64 × UInt64) × Bool) :=
  match checkReads isAlias (foundAlias args subInstrList inv WAW instrPair) fuel writeTreeA readsB
      { iterationsWithAdjacentDependence := XanBitWords.new 1, dependence_pairs := pairs } with
  | .error e => .error e
  | .ok (st, pairComplete) =>
      let iterations := st.iterationsWithAdjacentDependence
      -- a gap among the marked iterations
      if args.adjacent ∧ toSize iterations.getCountOfBitsSet ≠ iterations.length then
        .ok (st.dependence_pairs, true)
      else .ok (st.dependence_pairs, pairComplete)

/-- One pair of the menu: the sets that it needs, the tree, and the search. -/
def checkPair (a : InvocationAccesses) (pairs : Finset (UInt64 × UInt64)) :
    Except Fault (InvocationAccesses × Finset (UInt64 × UInt64) × Bool) :=
  let streamB := if WAW then Stream.write else Stream.read
  match a.buildSet fuel subInstrList inv instrPair.1 .write with
  | .error e => .error e
  | .ok a =>
      match a.buildSet fuel subInstrList inv instrPair.2 streamB with
      | .error e => .error e
      | .ok a =>
          match a.buildWriteTree sorter instrPair.1 with
          | .error e => .error e
          | .ok (writeTreeA, a) =>
              let readsB := ((a.invMemoryTrace instrPair.2).getSet streamB).getD []
              match searchPair args isAlias fuel subInstrList inv WAW instrPair writeTreeA readsB
                  pairs with
              | .error e => .error e
              | .ok (pairs, pairComplete) => .ok (a, pairs, pairComplete)

/-- `invocation_analysis_memeff`: the accesses that have been read, the menu and the dependences. -/
def invocation_analysis_memeff :
    List (UInt64 × UInt64) → InvocationAccesses → Finset (UInt64 × UInt64) →
      Except Fault (InvocationAccesses × List (UInt64 × UInt64) × Finset (UInt64 × UInt64))
  | [], a, pairs => .ok (a, [], pairs)
  | instrPair :: pairMenu, a, pairs =>
      -- passed over only if neither instruction has an instance
      if inv.getNumInstancesInInvocation subInstrList instrPair.1 = 0 ∧
          inv.getNumInstancesInInvocation subInstrList instrPair.2 = 0 then
        match invocation_analysis_memeff pairMenu a pairs with
        | .error e => .error e
        | .ok (a, pairMenu, pairs) => .ok (a, instrPair :: pairMenu, pairs)
      else
        match checkPair args isAlias sorter fuel subInstrList inv WAW instrPair a pairs with
        | .error e => .error e
        | .ok (a, pairs, pairComplete) =>
            match invocation_analysis_memeff pairMenu a pairs with
            | .error e => .error e
            | .ok (a, pairMenu, pairs) =>
                .ok (a, if pairComplete then pairMenu else instrPair :: pairMenu, pairs)

end Pairs

/-! ## The loop over the invocations -/

/-- The call trace of an invocation, behind `buildCallTraceCache`. -/
def CallAnalysis.invocCallTrace (st : CallAnalysis) (invocNum : Nat) :
    Except Fault CallTraceLoopInvocationGroup :=
  if st.callTraces.empty then .ok st.emptyCallTrace
  else
    match st.callTraces.getInvocCallTraceFromInvocNumber invocNum with
    | .error e => .error e
    | .ok i =>
        match st.callTraces.invocations[i]? with
        | none => .error .outOfRange
        | some invocCallTrace => .ok invocCallTrace

/-- The body of the loop: the call trace of the invocation, and what is done with its traces. -/
def visitTraces {σ : Type _} (fuel : Nat) (callList : List UInt64)
    (analyse : σ → InvocationTraces → Except Fault σ) (st : CallAnalysis × σ) (invocNum : Nat)
    (invocGroup : InvocationGroupCfc) : Except Fault (CallAnalysis × σ) :=
  match CallAnalysis.visitInvocation fuel callList st.1 invocNum invocGroup with
  | .error e => .error e
  | .ok calls =>
      -- the memory traces are left where they are
      if invocGroup.isEmpty then .ok (calls, st.2)
      else
        match calls.invocCallTrace invocNum with
        | .error e => .error e
        | .ok invocCallTrace =>
            match analyse st.2 { invocGroup, invocCallTrace } with
            | .error e => .error e
            | .ok s => .ok (calls, s)

/-- The variables of the loop. -/
structure LoopAnalysis where
  memtraceStreamers : UInt64 × Stream → Option MemoryTraceStreamer
  pairMenu : InstrPairMenu
  rw_dependence_pairs : Finset (UInt64 × UInt64)
  ww_dependence_pairs : Finset (UInt64 × UInt64)

namespace LoopAnalysis

variable (args : AnalysisArgs) (isAlias : MemSetEntry → MemSetEntry → Option Bool)
  (sorter : StartSort Nat MemSetEntry) (fuel : Nat) (subInstrList : Finset UInt64)

/-- RAW/WAR analysis and WAW analysis of an invocation, in turn. -/
def analyse (st : LoopAnalysis) (inv : InvocationTraces) : Except Fault LoopAnalysis :=
  let a : InvocationAccesses :=
    { memtraceStreamers := st.memtraceStreamers, invMemoryTrace := fun _ => {} }
  match invocation_analysis_memeff args isAlias sorter fuel subInstrList inv false
      st.pairMenu.rw_menu a st.rw_dependence_pairs with
  | .error e => .error e
  | .ok (a, rw_menu, rw_dependence_pairs) =>
      -- the sets that the first pass has read are there for the second one
      match invocation_analysis_memeff args isAlias sorter fuel subInstrList inv true
          st.pairMenu.ww_menu a st.ww_dependence_pairs with
      | .error e => .error e
      | .ok (a, ww_menu, ww_dependence_pairs) =>
          .ok {
            memtraceStreamers := a.memtraceStreamers
            pairMenu := { rw_menu, ww_menu }
            rw_dependence_pairs
            ww_dependence_pairs }

/-- The streamers of the files in `memory_accesses`, each in the reads that it comes in. -/
def openStreams (memtraceInstrIDs : List UInt64 × List UInt64)
    (memoryTraces : UInt64 × Stream → List BzRead) :
    UInt64 × Stream → Option MemoryTraceStreamer
  | (id, .read) =>
      if id ∈ memtraceInstrIDs.1 then some (MemoryTraceStreamer.new (memoryTraces (id, .read))) else none
  | (id, .write) =>
      if id ∈ memtraceInstrIDs.2 then some (MemoryTraceStreamer.new (memoryTraces (id, .write))) else none

/-- The variables in front of the loop. -/
def start (pairMenu : InstrPairMenu) (memtraceInstrIDs : List UInt64 × List UInt64)
    (memoryTraces : UInt64 × Stream → List BzRead) : LoopAnalysis where
  memtraceStreamers := openStreams memtraceInstrIDs memoryTraces
  pairMenu
  rw_dependence_pairs := ∅
  ww_dependence_pairs := ∅

end LoopAnalysis

/-- The graphs that the analysis can start from; `none` where there is no such file. -/
structure DdgFiles where
  static_inst_dependences : Option (List Char) := none
  dynamic_ddg : Option (List Char) := none

/-- The graph that the menu is built from, if any. -/
def AnalysisArgs.ddgfile (args : AnalysisArgs) (ddgs : DdgFiles) : Option (Option (List Char)) :=
  if args.checkstaticdepsonly then some ddgs.static_inst_dependences
  else if args.adjacent then some ddgs.dynamic_ddg
  else none

/-- The menu that the analysis starts with, and the lexer of the graphs behind it. -/
def chooseMenu (args : AnalysisArgs) (ddgs : DdgFiles) (instrList subInstrList : Finset UInt64)
    (memtraceInstrIDs : List UInt64 × List UInt64) :
    Except Fault (StaticDDGLex × InstrPairMenu) :=
  match args.ddgfile ddgs with
  | none => .ok ({}, buildInstrPairMenu instrList subInstrList memtraceInstrIDs)
  | some ddgfile =>
      match parse_ddg {} ddgfile with
      | .error e => .error e
      | .ok (sdl, static_ddg) =>
          .ok (sdl, buildInstrPairMenuFromDDG instrList subInstrList memtraceInstrIDs static_ddg)

/-- What `loop_analysis_memeff` has in the end. -/
structure Findings where
  pairMenu : InstrPairMenu
  rw_dependence_pairs : Finset (UInt64 × UInt64)
  ww_dependence_pairs : Finset (UInt64 × UInt64)

/-- `loop_analysis_memeff`, up to its output, on the menu that it starts with.  The loop counts the
invocations for the `assert` behind it. -/
def loop_analysis_memeff (args : AnalysisArgs) (isAlias : MemSetEntry → MemSetEntry → Option Bool)
    (sorter : StartSort Nat MemSetEntry) (fuel : Nat) (sloop : StreamParseLoopRec)
    (callTraces : StreamParseCallTrace) (pairMenu : InstrPairMenu)
    (callList subInstrList : Finset UInt64) (numInvocations : Nat)
    (memtraceInstrIDs : List UInt64 × List UInt64) (memoryTraces : UInt64 × Stream → List BzRead) :
    Except Fault Findings :=
  let visit := visitTraces fuel (inSetOrder callList)
    (LoopAnalysis.analyse args isAlias sorter fuel subInstrList)
  match StreamParseLoopRec.forInvocations (fun st invocNum invocGroup =>
      (visit st.1 invocNum invocGroup).map fun st => (st, invocNum)) fuel sloop
      ((CallAnalysis.start callTraces subInstrList,
        LoopAnalysis.start pairMenu memtraceInstrIDs memoryTraces), 2 ^ 64 - 1) with
  | .error e => .error e
  | .ok ((_, st), invocNum) =>
      if (invocNum + 1) % 2 ^ 64 = numInvocations then
        .ok {
          pairMenu := st.pairMenu
          rw_dependence_pairs := st.rw_dependence_pairs
          ww_dependence_pairs := st.ww_dependence_pairs }
      else .error .assertFailed

/-- `dependence_analysis`, with the passes over the traces that `main` makes for it. -/
def dependence_analysis (args : AnalysisArgs) (isAlias : MemSetEntry → MemSetEntry → Option Bool)
    (sorter : StartSort Nat MemSetEntry) (fuel : Nat) (loopTrace callTrace : List BzRead)
    (ddgs : DdgFiles) (memtraceInstrIDs : List UInt64 × List UInt64)
    (memoryTraces : UInt64 × Stream → List BzRead) : Except Fault (StaticDDGLex × Findings) :=
  match LoopTraceStreamer.parseForInstructionList loopTrace with
  | .error e => .error e
  | .ok (instrList, numInvocations) =>
      match CallTraceStreamer.parseForInstructionLists callTrace with
      | .error e => .error e
      | .ok (callList, subInstrList) =>
          match StreamParseCallTrace.parseCallTrace fuel callTrace with
          | .error e => .error e
          | .ok callTraces =>
              match chooseMenu args ddgs instrList subInstrList memtraceInstrIDs with
              | .error e => .error e
              | .ok (sdl, pairMenu) =>
                  (loop_analysis_memeff args isAlias sorter fuel
                    (StreamParseLoopRec.ofFile loopTrace) callTraces pairMenu callList subInstrList
                    numInvocations memtraceInstrIDs memoryTraces).map fun findings => (sdl, findings)

end CamAlias
