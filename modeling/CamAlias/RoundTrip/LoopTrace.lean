import CamAlias.Analyser.StreamParse
import CamAlias.Tracer.Simulation

/-!
# LoopTrace — what is read back from a loop trace

`readLoopTrace` is the loop over all invocations and their iterations that the analyser and the
tests run.  `loopTrace_roundTrip`: on the file that the tracer writes for an execution it finds each
invocation and each iteration, with the number of times every instruction was seen in it.
-/

namespace CamAlias

open Lib

/-! ## Reading -/

/-- `getNumInstancesFromII` of every iteration of an invocation. -/
def readIterations (fuel : Nat) (invGroup : InvocationGroupCfc) :
    Except Fault (List (UInt64 → Nat)) :=
  (invGroup.collectIterations fuel).map fun iterations =>
    iterations.map fun i => i.2.getNumberOfInstancesInSingleIteration

/-- The counts of every iteration of every invocation of the file. -/
def readLoopTrace (fuel : Nat) (loopTrace : List BzRead) :
    Except Fault (List (List (UInt64 → Nat))) :=
  StreamParseLoopRec.forInvocations
    (fun output _ invGroup => (readIterations fuel invGroup).map fun counts => output ++ [counts])
    fuel (StreamParseLoopRec.ofFile loopTrace) []

/-- How often each instruction is seen in each iteration. -/
def iterationCounts (iterations : List (List UInt64)) : List (UInt64 → Nat) :=
  iterations.map fun symbols id => symbols.count id

/-- The iterations of an invocation are read with their counts. -/
theorem readIterations_eq {inv : InvocationGroupCfc} {content : List (List UInt64)}
    (h : Describes 0 content inv.iterations) (hsmall : ∀ symbols ∈ content, symbols.length < 2 ^ 64)
    {fuel : Nat} (hfuel : content.length ≤ fuel) :
    readIterations fuel inv.precomputeDataStructures = .ok (iterationCounts content) := by
  rcases InvocationGroupCfc.collect_iterations h hfuel with ⟨iterations, hcollect, hnumbers, hcounts⟩
  have hsame : iterations.map (fun i => i.2.getNumberOfInstancesInSingleIteration)
      = iterationCounts content := by
    refine List.ext_getElem? ?_
    intro k
    have hlen : iterations.length = content.length := by
      simpa using congrArg List.length hnumbers
    by_cases hk : k < content.length
    · have hk' : k < iterations.length := hlen ▸ hk
      have hnum : (iterations[k]).1 = k := by
        have hget : (iterations.map Prod.fst)[k]? = (List.range content.length)[k]? := by
          rw [hnumbers]
        simpa [List.getElem?_eq_getElem hk', List.getElem?_range hk] using hget
      have hmem : (k, (iterations[k]).2) ∈ iterations := by
        have hpair : (k, (iterations[k]).2) = iterations[k] := Prod.ext hnum.symm rfl
        rw [hpair]
        exact List.getElem_mem hk'
      rcases hcounts k _ hmem with ⟨symbols, hsymbols, hcount⟩
      simp only [iterationCounts, List.getElem?_map, List.getElem?_eq_getElem hk', hsymbols,
        Option.map_some]
      congr 1
      funext id
      exact hcount.getD_eq (hsmall symbols (List.mem_of_getElem? hsymbols)) id
    · rw [List.getElem?_eq_none (by simp; omega),
        List.getElem?_eq_none (by simp [iterationCounts]; omega)]
  simp only [readIterations, hcollect, Except.map, hsame]

/-- The counts of a file whose entries stand for the iterations of all invocations. -/
theorem readLoopTrace_eq {loopTrace : List BzRead} {es : List LoopTraceEntry}
    {invocations : List (List (List UInt64))}
    (hserves : LoopTraceStreamer.entryStream.Serves (LoopTraceStreamer.ofFile loopTrace) es)
    (hgroups : Groups LoopTraceEntry.Stands 0 invocations (loopPieces.tag es))
    (hseen : FirstSeen 0 (fun _ => False) (loopPieces.tag es))
    (hsmall : ∀ its ∈ invocations, ∀ symbols ∈ its, symbols.length < 2 ^ 64) {fuel : Nat}
    (hfuel : invocations.length ≤ fuel) (hfuel' : ∀ its ∈ invocations, its.length ≤ fuel) :
    readLoopTrace fuel loopTrace = .ok (invocations.map iterationCounts) := by
  let body : List (List (UInt64 → Nat)) → Nat → InvocationGroupCfc →
      Except Fault (List (List (UInt64 → Nat))) :=
    fun output _ invGroup => (readIterations fuel invGroup).map fun counts => output ++ [counts]
  have hvisit : ∀ (m n : Nat) (output : List (List (UInt64 → Nat))), n + m = invocations.length →
      StreamParseLoopRec.visitAll body output
          ((List.range' n m).map fun k => (k, StreamParseLoopRec.groupOf es k))
        = .ok (output ++ (invocations.drop n).map iterationCounts) := by
    intro m
    -- on the number of invocations that are left
    induction m with
    | zero =>
        intro n output hn
        rw [List.drop_eq_nil_of_le (by omega)]
        simp [StreamParseLoopRec.visitAll]
    | succ m ih =>
        intro n output hn
        have hlt : n < invocations.length := by omega
        have hget : invocations[n]? = some invocations[n] := List.getElem?_eq_getElem hlt
        have hmem : invocations[n] ∈ invocations := List.getElem_mem hlt
        rcases StreamParseLoopRec.exists_groupOf hgroups hget with ⟨inv, hgroup, hdescribes⟩
        have hread := readIterations_eq hdescribes (hsmall _ hmem) (hfuel' _ hmem)
        have hrest := ih (n + 1) (output ++ [iterationCounts invocations[n]]) (by omega)
        rw [List.range'_succ, List.map_cons, List.drop_eq_getElem_cons hlt]
        simp only [StreamParseLoopRec.visitAll, body, hgroup, hread, Except.map]
        simp only [body, Except.map] at hrest
        rw [hrest]
        simp only [List.map_cons, List.append_assoc, List.singleton_append]
  have hall := hvisit invocations.length 0 [] (by omega)
  have hloop := StreamParseLoopRec.forInvocations_eq body hserves hgroups hseen hfuel []
  rw [List.range_eq_range', hall] at hloop
  simpa [readLoopTrace, StreamParseLoopRec.ofFile] using hloop

/-! ## The round trip -/

/-- What is asked of an execution: where something has been traced, reading the loop trace gives the
counts of every iteration of every invocation, in whatever reads the file comes. -/
def LoopTraceRoundTrip (loopID : UInt64) (invs : List LoopInvocation) : Prop :=
  match LoopTracer.record (LoopTracer.inTime (executionCalls loopID invs)) with
  | none => False
  | some none => invs = []
  | some (some files) => ∀ loopTrace, Delivered files.loopTrace loopTrace →
      ∀ fuel, invs.length ≤ fuel → (∀ inv ∈ invs, inv.iterations.length ≤ fuel) →
        readLoopTrace fuel loopTrace
          = .ok (invs.map fun inv => iterationCounts inv.iterationSymbols)

/-- An execution makes a call for every symbol that it sees. -/
theorem length_iterationSymbols_le {inv : LoopInvocation} (loopID : UInt64) :
    ∀ symbols ∈ inv.iterationSymbols, symbols.length ≤ (inv.apiCalls loopID).length := by
  have hevent : ∀ e : IterationEvent, e.symbols.length ≤ e.apiCalls.length := by
    intro e
    cases e <;> simp [IterationEvent.symbols, IterationEvent.apiCalls]
  have hevents : ∀ es : List IterationEvent,
      (es.flatMap IterationEvent.symbols).length ≤ (es.flatMap IterationEvent.apiCalls).length := by
    intro es
    induction es with
    | nil => simp
    | cons e es ih =>
        have := hevent e
        simp only [List.flatMap_cons, List.length_append]
        omega
  intro symbols hsymbols
  rcases List.mem_map.1 hsymbols with ⟨it, hit, rfl⟩
  have hle : (it.flatMap IterationEvent.apiCalls).length ≤ (inv.iterations.flatMap fun it =>
      ApiCall.loopIterationStart :: it.flatMap IterationEvent.apiCalls).length := by
    rcases List.append_of_mem hit with ⟨as, bs, heq⟩
    rw [heq]
    simp only [List.flatMap_append, List.flatMap_cons, List.length_append, List.length_cons]
    omega
  have := hevents it
  simp only [LoopInvocation.apiCalls, List.length_cons, List.length_append]
  omega

/-- Below `2 ^ 64` calls, an execution whose writes fit is read back: the same number of
invocations, each with the same number of iterations, and the count of every instruction. -/
theorem loopTrace_roundTrip (loopID : UInt64) (invs : List LoopInvocation)
    (hlen : (executionCalls loopID invs).length < 2 ^ 64)
    (hfits : LoopTracer.init.Fits (LoopTracer.inTime (executionCalls loopID invs))) :
    LoopTraceRoundTrip loopID invs := by
  rcases LoopTracer.record_execution loopID invs hlen hfits with
    ⟨hnil, hrecord⟩ | ⟨files, hrecord, hloop, -⟩
  · simpa only [LoopTraceRoundTrip, hrecord] using hnil
  · simp only [LoopTraceRoundTrip, hrecord]
    intro loopTrace hloopTrace fuel hfuel hfuel'
    rcases hloop.exists_entries with ⟨es, hserves, hgroups, hseen⟩
    rw [List.map_map] at hgroups
    have hread := readLoopTrace_eq (hserves loopTrace hloopTrace) hgroups hseen ?_
      (by simpa using hfuel) ?_
    · rw [hread, List.map_map]
      rfl
    · intro its hits symbols hsymbols
      rcases List.mem_map.1 hits with ⟨inv, hinv, rfl⟩
      have hle := length_iterationSymbols_le loopID symbols hsymbols
      have hpart : (inv.apiCalls loopID).length ≤ (executionCalls loopID invs).length := by
        rcases List.append_of_mem hinv with ⟨as, bs, rfl⟩
        simp only [executionCalls, List.flatMap_append, List.flatMap_cons, List.length_append]
        omega
      omega
    · intro its hits
      rcases List.mem_map.1 hits with ⟨inv, hinv, rfl⟩
      have hle := hfuel' inv hinv
      simpa [LoopInvocation.recorded, LoopInvocation.iterationSymbols] using hle

/-- Two invocations, one of them cut before its first iteration and inside an iteration, the other
inside a call. -/
theorem loopTrace_roundTrip_cut :
    LoopTraceRoundTrip 1 [⟨1, [[.seen 3, .dump, .seen 3], []]⟩, ⟨0, [[.call 5 [.seen 7, .dump]]]⟩] :=
  loopTrace_roundTrip 1 _ (by decide) (by decide +kernel)

/-! ## Where the bit sets do not fit -/

/-- The sharers `0, …, m` of one group, marked one after the other. -/
def sharersUpTo : Nat → XanBitSet
  | 0 => XanBitSet.new.setBit 0
  | m + 1 => (sharersUpTo m).setBit (m + 1)

theorem testBit_sharersUpTo (m k : Nat) : (sharersUpTo m).bits.testBit k = decide (k ≤ m) := by
  induction m with
  | zero =>
      have hnew : XanBitSet.new.bits.testBit k = false := by simp [XanBitSet.new]
      rw [sharersUpTo, XanBitSet.testBit_setBit, hnew, Bool.false_or, decide_eq_decide]
      omega
  | succ m ih =>
      rw [sharersUpTo, XanBitSet.testBit_setBit, ih, ← Bool.decide_or, decide_eq_decide]
      omega

theorem length_sharersUpTo (m : Nat) : (sharersUpTo m).length = max 64 (m + 1) := by
  induction m with
  | zero => rfl
  | succ m ih =>
      have hset : (sharersUpTo (m + 1)).length = max (sharersUpTo m).length (m + 1 + 1) := rfl
      rw [hset, ih]
      omega

/-- One empty iteration group with the iterations `0, …, m`. -/
def emptyIterations (m : Nat) : IterationInfo :=
  ⟨newCFC, 0, sharersUpTo m, false⟩

/-- The library after a loop start and `k` iteration starts in which nothing is seen. -/
def afterEmptyIterations (k : Nat) : LoopTracer where
  globals := { PassGlobals.new with
    loopTraces := [(0, ⟨ShareTable.empty, 1⟩)]
    runningStack := some ({
      loopID := 0
      invocationNum := 0
      iterationNum := (k : Int) - 1
      partiallyDumped := false
      currCFC := newCFC
      iterationInfos := match k with
        | 0 | 1 => ShareTable.empty
        | m + 2 => ⟨[emptyIterations m], [0]⟩ }, []) }
  timeoutCounter := { timedOut := false, numOperations := k + 1 }

/-- The iterations that have been recorded are in one group. -/
theorem share_emptyIterations (m : Nat) :
    ShareTable.share ControlFlowCompressor.beq ⟨[emptyIterations m], [0]⟩ newCFC (m + 1) true
      = some (⟨[emptyIterations (m + 1)], [0]⟩, true) := rfl

theorem step_afterEmptyIterations (k : Nat) :
    (afterEmptyIterations k).step .loopIterationStart false = some (afterEmptyIterations (k + 1)) := by
  have hcounter : (afterEmptyIterations k).timeoutCounter.recordOperation false
      = ((afterEmptyIterations (k + 1)).timeoutCounter, false) := by
    simp [afterEmptyIterations, TimeoutCounter.recordOperation]
  have hglobals : (afterEmptyIterations k).globals.loopIterationStart
      = some (afterEmptyIterations (k + 1)).globals := by
    obtain _ | _ | m := k
    · rfl
    · rfl
    · have hnum : (((m + 2 : Nat) : Int) - 1).toNat = m + 1 := by omega
      have hrunning : ¬ ((m + 2 : Nat) : Int) - 1 = -1 := by omega
      have hnext : ((m + 2 : Nat) : Int) - 1 + 1 = ((m + 2 + 1 : Nat) : Int) - 1 := by omega
      simp only [afterEmptyIterations, PassGlobals.loopIterationStart,
        RunningLoop.recordInstsSeenOnIteration, if_neg hrunning, hnum, share_emptyIterations,
        Option.map_some, if_true, hnext]
      rfl
  have hop : (afterEmptyIterations k).globals.isOperation .loopIterationStart = true := rfl
  simp only [LoopTracer.step, hop, if_true, hcounter, PassGlobals.step, hglobals, Option.map_some]
  rfl

theorem run_afterEmptyIterations (n : Nat) : ∀ (k : Nat) (cs : List ApiCall),
    (afterEmptyIterations k).run
        (LoopTracer.inTime (List.replicate n .loopIterationStart ++ cs))
      = (afterEmptyIterations (k + n)).run (LoopTracer.inTime cs) := by
  induction n with
  | zero =>
      intro k cs
      rfl
  | succ n ih =>
      intro k cs
      rw [List.replicate_succ, List.cons_append]
      have hcons : LoopTracer.inTime
            (ApiCall.loopIterationStart :: (List.replicate n .loopIterationStart ++ cs))
          = (.loopIterationStart, false) ::
            LoopTracer.inTime (List.replicate n .loopIterationStart ++ cs) := rfl
      rw [hcons, LoopTracer.run, step_afterEmptyIterations]
      simp only [ih]
      rw [Nat.add_assoc, Nat.add_comm 1 n]

/-- The library after the end of the invocation with the iterations `0, …, m + 1`. -/
def afterEmptyInvocation (m : Nat) : LoopTracer where
  globals := { PassGlobals.new with
    loopInvCallInfos := ⟨[SharedInfo.new [] 0 false], [0]⟩
    loopTraces := [(0, ⟨⟨[SharedInfo.new [emptyIterations (m + 1)] 0 false], [0]⟩, 1⟩)]
    runningLoopPool := [newCFC] }
  timeoutCounter := { timedOut := false, numOperations := m + 4 }

theorem step_afterEmptyInvocation (m : Nat) :
    (afterEmptyIterations (m + 2)).step .loopInvocationEnd false
      = some (afterEmptyInvocation m) := by
  have hcounter : (afterEmptyIterations (m + 2)).timeoutCounter.recordOperation false
      = ({ timedOut := false, numOperations := m + 4 }, false) := by
    simp [afterEmptyIterations, TimeoutCounter.recordOperation]
  have hop : (afterEmptyIterations (m + 2)).globals.isOperation .loopInvocationEnd = true := rfl
  have hnum : (((m + 2 : Nat) : Int) - 1).toNat = m + 1 := by omega
  have hrunning : ¬ ((m + 2 : Nat) : Int) - 1 = -1 := by omega
  have hglobals : (afterEmptyIterations (m + 2)).globals.loopInvocationEnd
      = some (afterEmptyInvocation m).globals := by
    simp only [PassGlobals.loopInvocationEnd, afterEmptyIterations, PassGlobals.finishLoop,
      RunningLoop.recordInstsSeenOnIteration, if_neg hrunning, hnum, share_emptyIterations]
    rfl
  simp only [LoopTracer.step, hop, if_true, hcounter, PassGlobals.step, hglobals, Option.map_some]
  rfl

/-- With `2 ^ 31` iterations in one group, `loop_trace_shutdown` fails an assertion. -/
theorem shutdown_afterEmptyInvocation {m : Nat} (h : m + 2 = 2 ^ 31) :
    (afterEmptyInvocation m).shutdown = none := by
  have hlen : (sharersUpTo (m + 1)).length = 2 ^ 31 := by
    rw [length_sharersUpTo]
    omega
  have hbits : ∀ k, k < (sharersUpTo (m + 1)).length →
      (sharersUpTo (m + 1)).bits.testBit k = true := by
    intro k hk
    rw [testBit_sharersUpTo, decide_eq_true_eq]
    omega
  have hiteration : IterationInfo.write (emptyIterations (m + 1)) = none := by
    simp only [IterationInfo.write, emptyIterations, writeRange,
      XanBitSet.writtenRanges_eq_none hlen hbits, Option.map_none]
  have hinvocation : LoopTrace.writeInvocation [emptyIterations (m + 1)] = none := by
    simp only [LoopTrace.writeInvocation, writeAll, hiteration, Option.map_none]
  have hloops : writeLoopTraces (afterEmptyInvocation m).globals.loopTraces false = none := by
    simp [writeLoopTraces, afterEmptyInvocation, writeTracesToFile, HashTable.walk_singleton,
      writeAll, LoopTrace.write, ExecTrace.write, writeGroups, SharedInfo.write, SharedInfo.new,
      hinvocation]
  have hpos : 0 < (afterEmptyInvocation m).timeoutCounter.numOperations := by
    simp [afterEmptyInvocation]
  have hidle : (afterEmptyInvocation m).globals.loopRunning = false := rfl
  simp only [LoopTracer.shutdown, if_pos hpos, PassGlobals.writeTraces, hidle, hloops]

/-- One invocation with `2 ^ 31` iterations in which nothing is seen cannot be written. -/
theorem loopTrace_roundTrip_two_pow_31 :
    ¬ LoopTraceRoundTrip 0 [⟨0, List.replicate (2 ^ 31) []⟩] := by
  obtain ⟨m, hm⟩ : ∃ m, m + 2 = 2 ^ 31 := ⟨2 ^ 31 - 2, by omega⟩
  rw [← hm]
  have hcalls : executionCalls 0 [⟨0, List.replicate (m + 2) []⟩]
      = .loopInvocationStart 0 ::
        (List.replicate (m + 2) .loopIterationStart ++ [.loopInvocationEnd]) := by
    have hiterations : ∀ n : Nat, (List.replicate n ([] : List IterationEvent)).flatMap
          (fun it => ApiCall.loopIterationStart :: it.flatMap IterationEvent.apiCalls)
        = List.replicate n .loopIterationStart := by
      intro n
      induction n with
      | zero => rfl
      | succ n ih => rw [List.replicate_succ, List.flatMap_cons, ih]; rfl
    simp only [executionCalls, LoopInvocation.apiCalls, hiterations, List.replicate_zero,
      List.nil_append, List.flatMap_cons, List.flatMap_nil, List.append_nil]
  have hstart : LoopTracer.init.step (.loopInvocationStart 0) false
      = some (afterEmptyIterations 0) := rfl
  have hcons : ∀ cs, LoopTracer.inTime (.loopInvocationStart 0 :: cs)
      = (.loopInvocationStart 0, false) :: LoopTracer.inTime cs := fun _ => rfl
  have hlast : LoopTracer.inTime [.loopInvocationEnd] = [(.loopInvocationEnd, false)] := rfl
  have hrecord : LoopTracer.record (LoopTracer.inTime
      (executionCalls 0 [⟨0, List.replicate (m + 2) []⟩])) = none := by
    rw [hcalls, hcons]
    simp only [LoopTracer.record, LoopTracer.run, hstart, run_afterEmptyIterations, Nat.zero_add,
      hlast, step_afterEmptyInvocation, shutdown_afterEmptyInvocation hm]
  simp only [LoopTraceRoundTrip, hrecord, not_false_eq_true]

end CamAlias
