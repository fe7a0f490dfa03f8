import CamAlias.Tracer.Running

/-!
# Iterations — what is recorded for the iterations of an invocation

Runs of any number of loops without calls and without dumps: none is forced, and `memUsed` stays within
the limit of `checkDumpTraces`.  `RunningLoop` structures come from a pool and keep their compressor.

`recordsIterations_run`: where nothing is seen before the first iteration of an invocation, every
invocation has its iterations split into groups, each with the control flow of its members, and
nothing else is recorded.  What is seen before the first iteration goes into that iteration.
-/

namespace CamAlias

open Lib ControlFlowCompressor TracerCompressionPattern

/-! ## Runs -/

namespace PassGlobals

/-- A sequence of calls, without the timeout. -/
def run (globals : PassGlobals) : List ApiCall → Option PassGlobals
  | [] => some globals
  | c :: cs =>
      match globals.step c with
      | none => none
      | some globals => PassGlobals.run globals cs

theorem run_append (globals : PassGlobals) (cs ds : List ApiCall) :
    globals.run (cs ++ ds) = (globals.run cs).bind fun globals => globals.run ds := by
  induction cs generalizing globals with
  | nil => rfl
  | cons c cs ih =>
      simp only [List.cons_append, run]
      cases globals.step c with
      | none => rfl
      | some globals => exact ih globals

theorem run_append_of_eq {globals globals' : PassGlobals} {cs : List ApiCall}
    (h : globals.run cs = some globals') (ds : List ApiCall) :
    globals.run (cs ++ ds) = globals'.run ds := by
  rw [run_append, h, Option.bind_some]

end PassGlobals

/-- An invocation of a loop: what is seen since the invocation before it ended, what is seen before
its first iteration, and what is seen in each iteration. -/
structure LoopRun where
  loopID : UInt64
  outside : List UInt64
  before : List UInt64
  iterations : List (List UInt64)

namespace LoopRun

def iterationCalls (symbols : List UInt64) : List ApiCall :=
  .loopIterationStart :: symbols.map .seenInstruction

def apiCalls (r : LoopRun) : List ApiCall :=
  r.outside.map .seenInstruction ++ (.loopInvocationStart r.loopID :: (r.before.map .seenInstruction
    ++ (r.iterations.flatMap iterationCalls ++ [.loopInvocationEnd])))

/-- The iterations of every invocation of a loop. -/
def iterationsOf (id : UInt64) (runs : List LoopRun) : List (List (List UInt64)) :=
  (runs.filter fun r => r.loopID = id).map iterations

end LoopRun

/-! ## What is recorded -/

/-- `decompress` gives the symbols. -/
def Decompresses (c : ControlFlowCompressor) (symbols : List UInt64) : Prop :=
  c.decompress = some symbols

/-- The sharer sets split the iteration numbers, and the control flow of each set is what is seen in
each of its iterations. -/
def RecordsIterations (infos : List IterationInfo) (iterations : List (List UInt64)) : Prop :=
  Groups Decompresses 0 iterations (infos.map SharedInfo.group)

/-- The invocation groups of a loop. -/
def PassGlobals.groupsOf (globals : PassGlobals) (id : UInt64) :
    List (List Nat × List IterationInfo) :=
  ((globals.loopTraces.lookup id).map fun trace => trace.groups.groups).getD []

/-- The invocation groups of every loop split its invocation numbers, and record the iterations of
their members. -/
def PassGlobals.RecordsRuns (globals : PassGlobals) (runs : List LoopRun) : Prop :=
  ∀ id, Groups RecordsIterations 0 (LoopRun.iterationsOf id runs) (globals.groupsOf id)

/-! ## The invariant between two invocations -/

/-- All invocations share one table without calls. -/
inductive NoCalls : ShareTable CallTraces → List LoopRun → Prop
  | empty : NoCalls ShareTable.empty []
  | shared (info : LoopInvocationCallInfo) (runs : List LoopRun) (hoffset : info.sharersOffset = 0)
      (hpayload : info.payload = []) (hdumped : info.partiallyDumped = false) :
      NoCalls { infos := [info], recent := [0] } runs

/-- The trace of a loop stands for its invocations. -/
structure TraceFollows (trace : Option LoopTrace) (invocations : List (List (List UInt64))) :
    Prop where
  groups : Groups (fun infos iterations => SymbolGroups infos { first := 0, values := iterations }) 0
    invocations ((trace.map fun trace => trace.groups.groups).getD [])
  count : ((trace.map fun trace => trace.numInvocations).getD 0) = invocations.length

/-- No loop runs, and `runs` have been recorded. -/
structure PassGlobals.Idle (globals : PassGlobals) (runs : List LoopRun) : Prop where
  loopTraces : ∀ id, TraceFollows (globals.loopTraces.lookup id) (LoopRun.iterationsOf id runs)
  runningStack : globals.runningStack = none
  pool : ∀ c ∈ globals.runningLoopPool, Compresses c.contents []
  callTraces : globals.callTraces = []
  waiting : globals.waitingForInvocCompletion = false
  callInfos : NoCalls globals.loopInvCallInfos runs

theorem PassGlobals.Idle.new : PassGlobals.new.Idle [] where
  loopTraces := fun _ => ⟨Groups.nil, rfl⟩
  runningStack := rfl
  pool := by simp [PassGlobals.new]
  callTraces := rfl
  waiting := rfl
  callInfos := NoCalls.empty

/-- What the invariant says about the groups, if the loop of `decompress` ends. -/
theorem PassGlobals.Idle.recordsRuns {globals : PassGlobals} {runs : List LoopRun}
    (h : globals.Idle runs)
    (hlen : ∀ r ∈ runs, ∀ symbols ∈ r.iterations, symbols.length < 2 ^ 32) :
    globals.RecordsRuns runs := by
  intro id
  have hgroups := (h.loopTraces id).groups
  refine ⟨hgroups.perm, hgroups.nonempty, ?_⟩
  intro g hg k hk
  rcases hgroups.value g hg k hk with ⟨iterations, hget, hsymbols⟩
  rcases List.mem_map.1 (List.mem_of_getElem? hget) with ⟨r, hr, rfl⟩
  refine ⟨r.iterations, hget, Groups.image hsymbols (fun _ _ => rfl) ?_⟩
  intro info _ symbols hmem hcompresses
  exact hcompresses.decompress_eq (hlen r (List.mem_filter.1 hr).1 symbols hmem)

/-! ## One invocation -/

/-- Without calls, every invocation joins the first one's call traces. -/
theorem NoCalls.share {t : ShareTable CallTraces} {runs : List LoopRun} (h : NoCalls t runs) {num : Nat}
    (hnum : runs = [] → num = 0) (r : LoopRun) :
    ∃ t' found, t.share CallTraces.isEqual [] num true = some (t', found) ∧
      NoCalls t' (runs ++ [r]) := by
  cases h with
  | empty =>
      rw [hnum rfl]
      exact ⟨_, _, rfl, NoCalls.shared (SharedInfo.new [] 0 false) _ rfl rfl rfl⟩
  | shared info runs hoffset hpayload hdumped =>
      have hfind : (ShareTable.findRecent CallTraces.isEqual ⟨[info], [0]⟩ []) = some 0 := by
        simp [ShareTable.findRecent, hpayload, hdumped, CallTraces.isEqual]
      refine ⟨⟨[{ info with sharers := info.sharers.setBit (num - info.sharersOffset) }], [0]⟩, true,
        ?_, NoCalls.shared _ _ hoffset hpayload hdumped⟩
      simp [ShareTable.share, hfind, SharedInfo.markSharer, hoffset]

namespace PassGlobals

variable {globals : PassGlobals} {runs : List LoopRun}

/-- With no loop running, instructions are not recorded. -/
theorem run_seen_outside (h : globals.runningStack = none) (symbols : List UInt64) :
    globals.run (symbols.map .seenInstruction) = some globals := by
  induction symbols with
  | nil => rfl
  | cons instID symbols ih =>
      have hstep : globals.step (.seenInstruction instID) = some globals := by
        simp only [step, seenInstruction, h]
      simp only [List.map_cons, run, hstep, ih]

/-- The instructions of the running iteration. -/
theorem run_seen {id : UInt64} {number : Nat} (symbols : List UInt64) :
    ∀ (globals : PassGlobals) {loop : RunningLoop} {p : Progress} {x : List UInt64},
      globals.runningStack = some (loop, []) → loop.Follows id number false p →
      p.current = some x → x.length + symbols.length < 2 ^ 64 →
      ∃ loop', globals.run (symbols.map .seenInstruction)
          = some { globals with runningStack := some (loop', []) } ∧
        loop'.Follows id number false { p with current := some (x ++ symbols) } := by
  induction symbols with
  | nil =>
      intro globals loop p x hstack hloop hx _
      have hsame : { p with current := some (x ++ []) } = p := by
        rw [List.append_nil, ← hx]
      refine ⟨loop, ?_, by rwa [hsame]⟩
      simp only [List.map_nil, run, ← hstack]
  | cons instID symbols ih =>
      intro globals loop p x hstack hloop hx hlen
      rw [List.length_cons] at hlen
      let loop₁ : RunningLoop := { loop with currCFC := loop.currCFC.insertSymbol instID }
      have hstep : globals.step (.seenInstruction instID)
          = some { globals with runningStack := some (loop₁, []) } := by
        simp only [step, seenInstruction, hstack, loop₁]
      have hnext := hloop.seen (by rw [hx]; rfl) instID (by
        rw [hx]
        simp only [Option.getD_some]
        omega)
      have hrecord : (p.record instID).current = some (x ++ [instID]) := by
        simp [Progress.record, hx]
      rcases ih { globals with runningStack := some (loop₁, []) } rfl hnext hrecord
          (by simp only [List.length_append, List.length_singleton]; omega) with
        ⟨loop', hrun, hfollows⟩
      refine ⟨loop', ?_, ?_⟩
      · simp only [List.map_cons, run, hstep, hrun]
      · have hsame : { p.record instID with current := some (x ++ [instID] ++ symbols) }
            = { p with current := some (x ++ instID :: symbols) } := by
          rw [List.append_assoc]
          rfl
        rwa [hsame] at hfollows

/-- The iterations of the running invocation. -/
theorem run_iterations {id : UInt64} {number : Nat} {iterations : List (List UInt64)} :
    ∀ (globals : PassGlobals) {loop : RunningLoop} {p : Progress},
      globals.runningStack = some (loop, []) → loop.Follows id number false p →
      (p.current = none → p = Progress.new) → (∀ symbols ∈ iterations, symbols.length < 2 ^ 64) →
      ∃ loop' p', globals.run (iterations.flatMap LoopRun.iterationCalls)
          = some { globals with runningStack := some (loop', []) } ∧
        loop'.Follows id number false p' ∧
        p'.part = { first := p.part.first, values := p.part.values ++ iterations } := by
  induction iterations with
  | nil =>
      intro globals loop p hstack hloop _ _
      refine ⟨loop, p, ?_, hloop, by simp⟩
      simp only [List.flatMap_nil, run, ← hstack]
  | cons symbols iterations ih =>
      intro globals loop p hstack hloop hstarted hlen
      rcases hloop.loopIterationStart hstarted with ⟨loop₁, hrecord, hfollows₁⟩
      let loop₂ : RunningLoop := { loop₁ with iterationNum := loop₁.iterationNum + 1 }
      let globals₁ : PassGlobals := { globals with runningStack := some (loop₂, []) }
      have hstep : globals.step .loopIterationStart = some globals₁ := by
        simp only [step, loopIterationStart, hstack, hrecord, Option.map_some, globals₁, loop₂]
      rcases run_seen symbols globals₁ rfl hfollows₁ rfl
          (by simpa using hlen symbols (by simp)) with ⟨loop₃, hseen, hfollows₃⟩
      have hstarted₃ : ({ p.next with current := some ([] ++ symbols) } : Progress).current = none →
          { p.next with current := some ([] ++ symbols) } = Progress.new := by simp
      rcases ih { globals₁ with runningStack := some (loop₃, []) } rfl hfollows₃ hstarted₃
          (fun s hs => hlen s (List.mem_cons_of_mem _ hs)) with ⟨loop', p', hrun, hfollows', hpart⟩
      refine ⟨loop', p', ?_, hfollows', ?_⟩
      · have hcons : (symbols :: iterations).flatMap LoopRun.iterationCalls
            = .loopIterationStart :: (symbols.map .seenInstruction
              ++ iterations.flatMap LoopRun.iterationCalls) := rfl
        rw [hcons]
        simp only [run, hstep]
        rw [run_append_of_eq hseen, hrun]
      · rw [hpart]
        simp [Progress.part, Progress.next, Progress.finish]

/-- A loop starts with an empty compressor, new or from the pool. -/
theorem Idle.loopInvocationStart (h : globals.Idle runs) (id : UInt64) :
    ∃ globals' loop trace, globals.loopInvocationStart id = some globals' ∧
      globals'.runningStack = some (loop, []) ∧
      loop.Follows id (LoopRun.iterationsOf id runs).length false Progress.new ∧
      globals'.loopTraces = HashTable.set globals.loopTraces id trace ∧
      trace.numInvocations = (LoopRun.iterationsOf id runs).length + 1 ∧
      trace.groups = (((globals.loopTraces.lookup id).getD ExecTrace.new).groups) ∧
      (∀ c ∈ globals'.runningLoopPool, Compresses c.contents []) ∧
      globals'.callTraces = [] ∧ globals'.waitingForInvocCompletion = false ∧
      globals'.loopInvCallInfos = globals.loopInvCallInfos := by
  let trace := (globals.loopTraces.lookup id).getD ExecTrace.new
  have hcount : trace.numInvocations = (LoopRun.iterationsOf id runs).length := by
    have hsame : trace.numInvocations
        = ((globals.loopTraces.lookup id).map fun trace => trace.numInvocations).getD 0 := by
      simp only [trace]
      cases globals.loopTraces.lookup id <;> rfl
    rw [hsame, (h.loopTraces id).count]
  have hloop : ∀ c : ControlFlowCompressor, Compresses c.contents [] →
      RunningLoop.Follows ⟨id, trace.numInvocations, -1, false, c, ShareTable.empty⟩ id
        (LoopRun.iterationsOf id runs).length false Progress.new := fun c hc =>
    ⟨rfl, hcount, rfl, rfl, Groups.nil, hc⟩
  let next : LoopTrace := { trace with numInvocations := trace.numInvocations + 1 }
  let started (c : ControlFlowCompressor) (pool : List ControlFlowCompressor) : PassGlobals :=
    { globals with
      loopTraces := HashTable.set globals.loopTraces id next
      runningLoopPool := pool
      runningStack := some (⟨id, trace.numInvocations, -1, false, c, ShareTable.empty⟩, []) }
  have hnext : next.numInvocations = (LoopRun.iterationsOf id runs).length + 1 := by
    rw [← hcount]
  -- a compressor of the pool has been cleared, and is as good as a new one
  cases hpool : globals.runningLoopPool with
  | nil =>
      refine ⟨started newCFC [], _, next, ?_, rfl, hloop newCFC compresses_newCFC, rfl, hnext, rfl,
        by simp [started], h.callTraces, h.waiting, rfl⟩
      simp only [PassGlobals.loopInvocationStart, h.runningStack, hpool]
      rfl
  | cons c pool =>
      refine ⟨started c pool, _, next, ?_, rfl, hloop c (h.pool c (by simp [hpool])), rfl, hnext, rfl,
        ?_, h.callTraces, h.waiting, rfl⟩
      · simp only [PassGlobals.loopInvocationStart, h.runningStack, hpool]
        rfl
      · intro c' hc'
        exact h.pool c' (by
          rw [hpool]
          exact List.mem_cons_of_mem _ hc')

/-- `CAM_profileLoopInvocationEnd` without calls and dumps. -/
theorem Idle.loopInvocationEnd (h : globals.Idle runs) {r : LoopRun} (globals' : PassGlobals)
    {loop : RunningLoop} {trace : LoopTrace} {p : Progress}
    (hstack : globals'.runningStack = some (loop, []))
    (hloop : loop.Follows r.loopID (LoopRun.iterationsOf r.loopID runs).length false p)
    (hpart : p.part = { first := 0, values := r.iterations })
    (htable : globals'.loopTraces = HashTable.set globals.loopTraces r.loopID trace)
    (hcount : trace.numInvocations = (LoopRun.iterationsOf r.loopID runs).length + 1)
    (hgroups : trace.groups = ((globals.loopTraces.lookup r.loopID).getD ExecTrace.new).groups)
    (hpool : ∀ c ∈ globals'.runningLoopPool, Compresses c.contents [])
    (hcallTraces : globals'.callTraces = []) (hwaiting : globals'.waitingForInvocCompletion = false)
    (hinfos : globals'.loopInvCallInfos = globals.loopInvCallInfos) :
    ∃ globals'', globals'.loopInvocationEnd = some globals'' ∧ globals''.Idle (runs ++ [r]) := by
  rcases hloop.recordInstsSeenOnIteration with ⟨iterationInfos, currCFC, hrecord, hsymbols, hcurrent⟩
  rw [hpart] at hsymbols
  have hold : Groups (fun infos iterations => SymbolGroups infos { first := 0, values := iterations })
      0 (LoopRun.iterationsOf r.loopID runs) trace.groups.groups := by
    have := (h.loopTraces r.loopID).groups
    rw [hgroups]
    cases hlookup : globals.loopTraces.lookup r.loopID with
    | none => rwa [hlookup] at this
    | some trace' => rwa [hlookup] at this
  have hmatch : ∀ info ∈ trace.groups.infos, info.partiallyDumped = false →
      LoopTrace.invocationsMatch iterationInfos.infos info.payload = true →
      SymbolGroups info.payload { first := 0, values := r.iterations } := fun info _ _ hm =>
    LoopTrace.symbolGroups_of_invocationsMatch hsymbols hm
  rcases ShareTable.share_groups hold hsymbols hmatch true with
    ⟨groups, found, hshare, hgroups', -⟩
  rw [Nat.zero_add, ← hloop.number] at hshare
  have hlookup : globals'.loopTraces.lookup loop.loopID = some trace := by
    rw [htable, hloop.loopID, HashTable.lookup_set, if_pos rfl]
  have hnum : runs = [] → loop.invocationNum = 0 := by
    rintro rfl
    rw [hloop.number]
    rfl
  rcases h.callInfos.share hnum r with ⟨callInfos, found', hshare', hnocalls⟩
  -- the invocation is shared in the trace of its loop, and its empty call traces in one table
  refine ⟨{ globals' with
      loopInvCallInfos := callInfos
      loopTraces := HashTable.set globals'.loopTraces loop.loopID { trace with groups := groups }
      callTraces := []
      runningStack := none
      runningLoopPool := currCFC :: globals'.runningLoopPool
      waitingForInvocCompletion := false }, ?_, ?_⟩
  · simp only [PassGlobals.loopInvocationEnd, hstack, finishLoop, hrecord, hlookup,
      ExecTrace.processInvocation, hloop.partiallyDumped, Bool.not_false, hshare, Option.map_some,
      recordCallTracesForInvocation, hwaiting, hcallTraces, hinfos, hshare']
  · refine ⟨?_, rfl, ?_, rfl, rfl, hnocalls⟩
    · intro id
      rw [htable, hloop.loopID, HashTable.set_set, HashTable.lookup_set]
      -- the traces of the other loops stay as they are
      by_cases hid : id = r.loopID
      · subst hid
        have hmine : LoopRun.iterationsOf r.loopID (runs ++ [r])
            = LoopRun.iterationsOf r.loopID runs ++ [r.iterations] := by
          simp [LoopRun.iterationsOf]
        rw [hmine, if_pos rfl]
        exact ⟨hgroups', by simp [hcount]⟩
      · have hother : LoopRun.iterationsOf id (runs ++ [r]) = LoopRun.iterationsOf id runs := by
          simp [LoopRun.iterationsOf, Ne.symm hid]
        rw [hother, if_neg hid]
        exact h.loopTraces id
    · intro c hc
      rcases List.mem_cons.1 hc with rfl | hc
      · exact hcurrent
      · exact hpool c hc

/-- One invocation in which nothing is seen before the first iteration. -/
theorem Idle.run_apiCalls (h : globals.Idle runs) {r : LoopRun} (hbefore : r.before = [])
    (hlen : ∀ symbols ∈ r.iterations, symbols.length < 2 ^ 64) :
    ∃ globals', globals.run r.apiCalls = some globals' ∧ globals'.Idle (runs ++ [r]) := by
  rcases h.loopInvocationStart r.loopID with ⟨globals₁, loop, trace, hstart, hstack, hloop, htable,
    hcount, hgroups, hpool, hcallTraces, hwaiting, hinfos⟩
  rcases run_iterations globals₁ hstack hloop (fun _ => rfl) hlen with
    ⟨loop', p', hrun, hfollows, hpart⟩
  rcases h.loopInvocationEnd { globals₁ with runningStack := some (loop', []) } rfl
      hfollows (by simpa using hpart) htable hcount hgroups hpool hcallTraces hwaiting hinfos with
    ⟨globals', hend, hidle⟩
  refine ⟨globals', ?_, hidle⟩
  rw [LoopRun.apiCalls, hbefore, run_append_of_eq (run_seen_outside h.runningStack _)]
  simp only [run, step, hstart, List.map_nil, List.nil_append]
  rw [run_append_of_eq hrun]
  simp only [run, step, hend]

theorem Idle.run_runs (h : globals.Idle runs) {runs' : List LoopRun}
    (hbefore : ∀ r ∈ runs', r.before = [])
    (hlen : ∀ r ∈ runs', ∀ symbols ∈ r.iterations, symbols.length < 2 ^ 64) :
    ∃ globals', globals.run (runs'.flatMap LoopRun.apiCalls) = some globals' ∧
      globals'.Idle (runs ++ runs') := by
  induction runs' generalizing globals runs with
  | nil => exact ⟨globals, rfl, by simpa using h⟩
  | cons r runs' ih =>
      rcases h.run_apiCalls (hbefore r (by simp)) (hlen r (by simp)) with ⟨next, hnext, hidle⟩
      rcases ih hidle (fun r' hr' => hbefore r' (List.mem_cons_of_mem _ hr'))
          (fun r' hr' => hlen r' (List.mem_cons_of_mem _ hr')) with ⟨last, hlast, hidle'⟩
      refine ⟨last, ?_, by simpa using hidle'⟩
      rw [List.flatMap_cons, run_append_of_eq hnext, hlast]

end PassGlobals

/-! ## Whole runs -/

/-- Where nothing is seen between the start of an invocation and its first iteration, every iteration
is recorded as what is seen in it, and nothing else is recorded. -/
theorem recordsIterations_run (runs : List LoopRun) (hbefore : ∀ r ∈ runs, r.before = [])
    (hlen : ∀ r ∈ runs, ∀ symbols ∈ r.iterations, symbols.length < 2 ^ 32) :
    ∃ globals, PassGlobals.new.run (runs.flatMap LoopRun.apiCalls) = some globals ∧
      globals.RecordsRuns runs := by
  have hbound : ∀ r ∈ runs, ∀ symbols ∈ r.iterations, symbols.length < 2 ^ 64 :=
    fun r hr symbols hsymbols => Nat.lt_trans (hlen r hr symbols hsymbols) (by decide)
  rcases PassGlobals.Idle.new.run_runs hbefore hbound with ⟨globals, hrun, hidle⟩
  rw [List.nil_append] at hidle
  exact ⟨globals, hrun, hidle.recordsRuns hlen⟩

/-- Two loops, an invocation without iterations and instructions outside all loops. -/
theorem recordsIterations_run_two_loops :
    ∃ globals, PassGlobals.new.run ([⟨1, [9], [], [[3, 3], []]⟩, ⟨2, [], [], []⟩,
        ⟨1, [4], [], [[3, 3], []]⟩].flatMap LoopRun.apiCalls) = some globals ∧
      globals.RecordsRuns [⟨1, [9], [], [[3, 3], []]⟩, ⟨2, [], [], []⟩,
        ⟨1, [4], [], [[3, 3], []]⟩] := by
  refine recordsIterations_run _ ?_ ?_
  · intro r hr
    rcases List.mem_cons.1 hr with rfl | hr
    · rfl
    · rcases List.mem_cons.1 hr with rfl | hr
      · rfl
      · rw [List.mem_singleton.1 hr]
  · intro r hr symbols hsymbols
    have hsmall : ∀ r' ∈ ([⟨1, [9], [], [[3, 3], []]⟩, ⟨2, [], [], []⟩,
        ⟨1, [4], [], [[3, 3], []]⟩] : List LoopRun), ∀ s ∈ r'.iterations, s.length ≤ 2 := by
      simp
    have := hsmall r hr symbols hsymbols
    omega

/-- An instruction seen before the first iteration is recorded in it. -/
theorem recordsIterations_run_before :
    ¬ ∃ globals, PassGlobals.new.run ([⟨0, [], [7], [[]]⟩].flatMap LoopRun.apiCalls) = some globals ∧
      globals.RecordsRuns [⟨0, [], [7], [[]]⟩] := by
  rintro ⟨globals, hrun, hrecords⟩
  have hrecorded : (PassGlobals.new.run ([⟨0, [], [7], [[]]⟩].flatMap LoopRun.apiCalls)).map
      (fun globals => (globals.groupsOf 0).map fun g => g.2.map fun info =>
        (info.members, info.payload.decompress)) = some [[([0], some [7])]] := by
    decide +kernel
  rw [hrun, Option.map_some, Option.some.injEq] at hrecorded
  have hgroups := hrecords 0
  generalize globals.groupsOf 0 = gs at hgroups hrecorded
  cases gs with
  | nil => simp at hrecorded
  | cons g gs =>
      simp only [List.map_cons, List.cons.injEq] at hrecorded
      rcases List.exists_mem_of_ne_nil _ (hgroups.nonempty g (by simp)) with ⟨k, hk⟩
      rcases hgroups.value g (by simp) k hk with ⟨iterations, hiterations, hinfos⟩
      have hempty : iterations = [[]] := by
        have hmem := List.mem_of_getElem? hiterations
        simpa [LoopRun.iterationsOf] using hmem
      subst hempty
      have hone := hrecorded.1
      cases hpayload : g.2 with
      | nil => simp [hpayload] at hone
      | cons info infos =>
          simp only [hpayload, List.map_cons, List.cons.injEq, Prod.mk.injEq] at hone
          rw [hpayload] at hinfos
          have hmem : info.group ∈ (info :: infos).map SharedInfo.group := by simp
          rcases List.exists_mem_of_ne_nil _ (Groups.nonempty hinfos _ hmem) with ⟨j, hj⟩
          rcases Groups.value hinfos _ hmem j hj with ⟨symbols, hsymbols, hdecompresses⟩
          have hnil : symbols = [] := by
            have hmem' := List.mem_of_getElem? hsymbols
            simpa using hmem'
          rw [Decompresses, hnil, SharedInfo.group_snd] at hdecompresses
          have hseven := hone.1.2
          rw [hdecompresses] at hseven
          simp at hseven

end CamAlias
