import CamAlias.Tracer.Simulation

/-!
# LoopRuns — the loop trace in every run of the library

`Follows` asks for calls that keep to the form of an execution.  Here the calls come in any order
that the library takes: dumps between invocations, instructions before the first iteration, nested
calls, and operations after the timeout.  `PassGlobals.LoopFollows` is what remains of the relation:
the loop trace follows a recorder that keeps the iterations of one loop and no calls.
-/

namespace CamAlias

open Lib ControlFlowCompressor

/-! ## The running loop -/

/-- The running loop stands for the iterations of the running invocation.  What has been seen before
the first of them is in the compressor, and will be taken into it. -/
structure RunningLoop.Keeps (running : RunningLoop) (loopID : UInt64) (number : Nat) (cut : Bool)
    (p : Progress) (n : Nat) : Prop where
  loopID : running.loopID = loopID
  number : running.invocationNum = number
  partiallyDumped : running.partiallyDumped = cut
  iterationNum : running.iterationNum
    = if p.current.isSome then ((p.first + p.values.length : Nat) : Int) else -1
  iterations : SymbolGroups running.iterationInfos.infos p.ended
  current : ∃ symbols, Compresses running.currCFC.contents symbols ∧ symbols.length ≤ n ∧
    (p.current.isSome → p.current = some symbols)

namespace RunningLoop.Keeps

variable {running : RunningLoop} {loopID : UInt64} {number n : Nat} {cut : Bool} {p : Progress}

theorem mono (h : running.Keeps loopID number cut p n) {m : Nat} (hle : n ≤ m) :
    running.Keeps loopID number cut p m := by
  rcases h.current with ⟨symbols, hcompresses, hlen, hcurrent⟩
  exact ⟨h.loopID, h.number, h.partiallyDumped, h.iterationNum, h.iterations,
    symbols, hcompresses, Nat.le_trans hlen hle, hcurrent⟩

/-- A new invocation, with a compressor that may hold what another one has left. -/
theorem start {currCFC : ControlFlowCompressor} {symbols : List UInt64}
    (hcompresses : Compresses currCFC.contents symbols) (hlen : symbols.length ≤ n)
    (loopID : UInt64) (number : Nat) :
    RunningLoop.Keeps {
      loopID
      invocationNum := number
      iterationNum := -1
      partiallyDumped := false
      currCFC
      iterationInfos := ShareTable.empty } loopID number false Progress.new n :=
  ⟨rfl, rfl, rfl, rfl, Groups.nil, symbols, hcompresses, hlen, by simp [Progress.new]⟩

/-- The running iteration, if there is one, joins the others. -/
theorem recordInstsSeenOnIteration (h : running.Keeps loopID number cut p n) :
    ∃ iterationInfos currCFC symbols, running.recordInstsSeenOnIteration
        = some { running with iterationInfos, currCFC } ∧
      SymbolGroups iterationInfos.infos p.part ∧ Compresses currCFC.contents symbols ∧
      symbols.length ≤ n ∧ (p.current.isSome → symbols = []) := by
  rcases h.current with ⟨symbols, hcompresses, hlen, hcurrent⟩
  cases hc : p.current with
  | none =>
      have hnum : running.iterationNum = -1 := by rw [h.iterationNum, hc]; rfl
      refine ⟨running.iterationInfos, running.currCFC, symbols, ?_, ?_, hcompresses, hlen, by simp⟩
      · rw [RunningLoop.recordInstsSeenOnIteration, if_pos hnum]
      · rw [Progress.part_of_idle hc]
        exact h.iterations
  | some x =>
      have hfollows : running.Follows loopID number cut p := by
        refine ⟨h.loopID, h.number, h.partiallyDumped, h.iterationNum, h.iterations, ?_⟩
        rw [hcurrent (by simp [hc])]
        exact hcompresses
      rcases hfollows.recordInstsSeenOnIteration with
        ⟨iterationInfos, currCFC, hrecord, hgroups, hempty⟩
      exact ⟨iterationInfos, currCFC, [], hrecord, hgroups, hempty, Nat.zero_le n, fun _ => rfl⟩

/-- The next iteration begins. -/
theorem loopIterationStart (h : running.Keeps loopID number cut p n)
    (hstarted : p.current = none → p = Progress.new) :
    ∃ running' symbols, running.recordInstsSeenOnIteration = some running' ∧ symbols.length ≤ n ∧
      RunningLoop.Keeps { running' with iterationNum := running'.iterationNum + 1 } loopID number
        cut (p.nextWith symbols) n := by
  rcases h.recordInstsSeenOnIteration with
    ⟨iterationInfos, currCFC, symbols, hrecord, hgroups, hcompresses, hlen, -⟩
  refine ⟨_, symbols, hrecord, hlen, h.loopID, h.number, h.partiallyDumped, ?_, hgroups, symbols,
    hcompresses, hlen, fun _ => rfl⟩
  simp only [h.iterationNum, Progress.nextWith, Progress.finish, Option.isSome_some, if_true]
  cases hc : p.current with
  | none => simp [hstarted hc, Progress.new]
  | some x => simp [Int.add_assoc]

/-- An instruction is seen. -/
theorem seen (h : running.Keeps loopID number cut p n) {instID : UInt64} (hn : n + 1 < 2 ^ 64) :
    RunningLoop.Keeps { running with currCFC := running.currCFC.insertSymbol instID } loopID number
      cut (p.record instID) (n + 1) := by
  rcases h.current with ⟨symbols, hcompresses, hlen, hcurrent⟩
  refine ⟨h.loopID, h.number, h.partiallyDumped, ?_, h.iterations, symbols ++ [instID],
    hcompresses.insertSymbol (count_snoc_lt (by omega)), by simpa using hlen, ?_⟩
  · rw [h.iterationNum]
    simp [Progress.record]
  · intro hsome
    have hx : p.current = some symbols := hcurrent (by simpa [Progress.record] using hsome)
    simp [Progress.record, hx]

/-- After a dump the running iteration goes on in a part of its own. -/
theorem restart (h : running.Keeps loopID number cut p n) {currCFC : ControlFlowCompressor}
    {symbols : List UInt64} (hcompresses : Compresses currCFC.contents symbols)
    (hlen : symbols.length ≤ n) (hempty : p.current.isSome → symbols = []) :
    RunningLoop.Keeps { running with
        partiallyDumped := true
        currCFC
        iterationInfos := ShareTable.empty } loopID number true p.restart n := by
  refine ⟨h.loopID, h.number, rfl, ?_, Groups.nil, symbols, hcompresses, hlen, ?_⟩
  · rw [h.iterationNum]
    simp [Progress.restart]
  · intro hsome
    have hcurrent : p.current.isSome := by simpa [Progress.restart] using hsome
    rcases Option.isSome_iff_exists.1 hcurrent with ⟨x, hx⟩
    simp [Progress.restart, hx, hempty hcurrent]

end RunningLoop.Keeps

/-! ## The recorder -/

/-- The running invocation without its calls. -/
def RunningInvocation.ofIterations (iterations : Progress) : RunningInvocation where
  iterations := iterations
  calls := fun _ => Progress.new
  call := none

namespace Recorder

/-- A dump between two invocations. -/
def flush (r : Recorder) : Recorder where
  done := r.recorded
  resumed := none
  pending := []
  running := none

variable {r : Recorder} {iterations : Progress} {n : Nat}

@[simp] theorem recorded_flush (r : Recorder) : r.flush.recorded = r.recorded := by
  simp [flush, recorded, resume]

theorem Sound.flush (r : Recorder) : r.flush.Sound where
  inside := by simp [Recorder.flush]
  resumed := by simp [Recorder.flush]
  continued := by simp [Recorder.flush]
  uncut := by simp [Recorder.flush]

theorem Within.flush (h : r.Within n) : r.flush.Within n where
  ended := by
    have hlen := r.length_recorded
    have := h.ended
    simp only [Recorder.flush, hlen, numEnded, Option.toList, List.length_nil]
    omega
  pending := by simp [Recorder.flush]
  running := by simp [Recorder.flush]
  current := by simp [Recorder.flush]

/-- The iterations go on. -/
theorem Inside.ofIterations (h : r.Inside (.ofIterations iterations)) {iterations' : Progress}
    (hfollows : iterations'.Follows r.begun.iterations)
    (hstarted : iterations'.current = none → iterations' = iterations) :
    Inside { r with running := some (.ofIterations iterations') } (.ofIterations iterations') := by
  refine ⟨rfl, hfollows, h.calls, ?_, h.call_iff⟩
  intro hnone
  have hsame := hstarted hnone
  subst hsame
  exact h.started hnone

theorem Within.ofIterations (h : r.Within n) (hrunning : r.running = some (.ofIterations iterations))
    {iterations' : Progress} (hcount : iterations'.count ≤ n)
    (hlen : (iterations'.current.getD []).length ≤ n) :
    Within { r with running := some (.ofIterations iterations') } n :=
  h.withRunning_of_le hrunning ⟨hcount, fun _ => Nat.zero_le n⟩ ⟨hlen, fun _ => Nat.zero_le n⟩

end Recorder

/-! ## What the other operations leave alone -/

/-- The loop trace is made from the same parts. -/
structure PassGlobals.SameLoop (globals globals' : PassGlobals) : Prop where
  loopTraces : globals'.loopTraces = globals.loopTraces
  running : globals'.runningStack.map Prod.fst = globals.runningStack.map Prod.fst
  pool : globals'.runningLoopPool = globals.runningLoopPool
  loopFile : globals'.loopCompressedFile = globals.loopCompressedFile

namespace PassGlobals

variable {globals globals' : PassGlobals}

theorem finishCall_eq_some {running running' : RunningCall} {attemptMatch : Bool}
    (h : globals.finishCall running attemptMatch = some (globals', running')) :
    ∃ callTraces, globals' = { globals with callTraces } := by
  simp only [finishCall] at h
  split at h
  · simp at h
  · split at h
    · simp at h
    · rcases Prod.mk.inj (Option.some.inj h) with ⟨rfl, -⟩
      exact ⟨_, rfl⟩

theorem dumpCalls_eq_some {calls : List RunningCall} :
    ∀ {globals globals' : PassGlobals} {calls' : List RunningCall},
      globals.dumpCalls calls = some (globals', calls') →
        ∃ callTraces, globals' = { globals with callTraces } := by
  induction calls with
  | nil =>
      intro globals globals' calls' h
      rcases Prod.mk.inj (Option.some.inj h) with ⟨rfl, -⟩
      exact ⟨globals.callTraces, rfl⟩
  | cons call calls ih =>
      intro globals globals' calls' h
      simp only [dumpCalls] at h
      split at h
      · simp at h
      · rename_i globals₁ running hfinish
        rcases finishCall_eq_some hfinish with ⟨callTraces, rfl⟩
        rcases Option.map_eq_some_iff.1 h with ⟨⟨globals₂, calls₂⟩, hrest, heq⟩
        rcases Prod.mk.inj heq with ⟨rfl, -⟩
        rcases ih hrest with ⟨callTraces', rfl⟩
        exact ⟨callTraces', rfl⟩

theorem recordCallTracesForInvocation_eq_some {invNum : Nat} {attemptMatch : Bool}
    (h : globals.recordCallTracesForInvocation invNum attemptMatch = some globals') :
    ∃ infos, globals' = { globals with loopInvCallInfos := infos } := by
  rcases Option.map_eq_some_iff.1 h with ⟨r, -, rfl⟩
  exact ⟨r.1, rfl⟩

theorem sameLoop_callInvocationStart (globals : PassGlobals) (instID : UInt64) :
    globals.SameLoop (globals.callInvocationStart instID) := by
  cases hstack : globals.runningStack with
  | none => exact ⟨by simp [callInvocationStart, hstack], by simp [callInvocationStart, hstack],
      by simp [callInvocationStart, hstack], by simp [callInvocationStart, hstack]⟩
  | some stack => exact ⟨by simp [callInvocationStart, hstack], by simp [callInvocationStart, hstack],
      by simp [callInvocationStart, hstack], by simp [callInvocationStart, hstack]⟩

theorem sameLoop_callInvocationEnd (h : globals.callInvocationEnd = some globals') :
    globals.SameLoop globals' := by
  simp only [callInvocationEnd] at h
  split at h
  · rcases Option.some.inj h with rfl
    exact ⟨rfl, rfl, rfl, rfl⟩
  · simp at h
  · rename_i loop call calls hstack
    rcases Option.map_eq_some_iff.1 h with ⟨⟨globals₁, call'⟩, hfinish, rfl⟩
    rcases finishCall_eq_some hfinish with ⟨callTraces, rfl⟩
    exact ⟨rfl, by simp [hstack], rfl, rfl⟩

end PassGlobals

namespace PassGlobals

/-- Every loop trace has something to write, and it fits. -/
def LoopReady (globals : PassGlobals) : Prop :=
  ∀ item ∈ globals.loopTraces, item.2.groups.infos ≠ [] ∧ LoopTrace.Fits item.2

instance (globals : PassGlobals) : Decidable globals.LoopReady :=
  inferInstanceAs (Decidable (∀ item ∈ globals.loopTraces,
    item.2.groups.infos ≠ [] ∧ LoopTrace.Fits item.2))

/-- What a write does to the loop trace. -/
theorem writeTraces_eq_some {globals globals' : PassGlobals} (h : globals.writeTraces = some globals') :
    ∃ loopText callText, writeLoopTraces globals.loopTraces globals.loopRunning = some loopText ∧
      globals' = { globals with
        loopCompressedFile := globals.loopCompressedFile ++ loopText
        callCompressedFile := globals.callCompressedFile ++ callText } := by
  simp only [writeTraces] at h
  split at h
  · rename_i loopText callText hloop _
    exact ⟨loopText, callText, hloop, (Option.some.inj h).symm⟩
  · simp at h

end PassGlobals

/-- The loop that the call starts. -/
def ApiCall.startedLoop : ApiCall → Option UInt64
  | .loopInvocationStart loopID => some loopID
  | _ => none

/-! ## The relation -/

/-- The loop traces and the file follow the recorder. -/
structure PassGlobals.LoopFollows (globals : PassGlobals) (loopID : UInt64) (r : Recorder) (n : Nat) :
    Prop where
  sound : r.Sound
  within : r.Within n
  loopTraces : (globals.loopTraces = [] ∧ r = Recorder.new) ∨
    ∃ trace : LoopTrace, globals.loopTraces = [(loopID, trace)] ∧ trace.Follows r
  idle : r.running = none → globals.runningStack.map Prod.fst = none
  running : ∀ run, r.running = some run → ∃ loop iterations,
    globals.runningStack.map Prod.fst = some loop ∧ run = .ofIterations iterations ∧
    loop.Keeps loopID r.numEnded r.cut iterations n
  pool : ∀ c ∈ globals.runningLoopPool, ∃ symbols, Compresses c.contents symbols ∧ symbols.length ≤ n
  loopFile : LoopFileFollows globals.loopCompressedFile r.done r.resumed

namespace PassGlobals.LoopFollows

variable {globals globals' : PassGlobals} {loopID : UInt64} {r : Recorder} {n : Nat}

theorem new (loopID : UInt64) : PassGlobals.new.LoopFollows loopID Recorder.new 0 where
  sound := Recorder.Sound.new
  within := Recorder.Within.new
  loopTraces := Or.inl ⟨rfl, rfl⟩
  idle := fun _ => rfl
  running := by simp [Recorder.new]
  pool := by simp [PassGlobals.new]
  loopFile := ⟨[], by simp, PrintsLines.nil, PieceModel.ReadsTo.nil⟩

theorem mono (h : globals.LoopFollows loopID r n) {m : Nat} (hle : n ≤ m) :
    globals.LoopFollows loopID r m where
  sound := h.sound
  within := h.within.mono hle
  loopTraces := h.loopTraces
  idle := h.idle
  running := by
    intro run hrun
    rcases h.running run hrun with ⟨loop, iterations, hstack, hrun', hloop⟩
    exact ⟨loop, iterations, hstack, hrun', hloop.mono hle⟩
  pool := by
    intro c hc
    rcases h.pool c hc with ⟨symbols, hcompresses, hlen⟩
    exact ⟨symbols, hcompresses, Nat.le_trans hlen hle⟩
  loopFile := h.loopFile

/-- Where the loop trace is made from the same parts, it follows the same recorder. -/
theorem of_sameLoop (h : globals.LoopFollows loopID r n) (hsame : globals.SameLoop globals') :
    globals'.LoopFollows loopID r n where
  sound := h.sound
  within := h.within
  loopTraces := by
    rw [hsame.loopTraces]
    exact h.loopTraces
  idle := by
    rw [hsame.running]
    exact h.idle
  running := by
    rw [hsame.running]
    exact h.running
  pool := by
    rw [hsame.pool]
    exact h.pool
  loopFile := by
    rw [hsame.loopFile]
    exact h.loopFile

/-- What runs, as the tracer has it. -/
theorem of_runningStack (h : globals.LoopFollows loopID r n) (loop : RunningLoop)
    (hstack : globals.runningStack.map Prod.fst = some loop) :
    ∃ iterations, r.running = some (.ofIterations iterations) ∧
      loop.Keeps loopID r.numEnded r.cut iterations n := by
  cases hrunning : r.running with
  | none =>
      rw [h.idle hrunning] at hstack
      simp at hstack
  | some run =>
      rcases h.running run hrunning with ⟨loop', iterations, hstack', rfl, hloop⟩
      have hsame : loop' = loop := by
        rw [hstack'] at hstack
        exact Option.some.inj hstack
      exact ⟨iterations, rfl, hsame ▸ hloop⟩

theorem of_idle (h : globals.LoopFollows loopID r n) (hstack : globals.runningStack = none) :
    r.running = none := by
  cases hrunning : r.running with
  | none => rfl
  | some run =>
      rcases h.running run hrunning with ⟨loop, iterations, hstack', -⟩
      simp [hstack] at hstack'

/-- Where a loop runs, its trace is there. -/
theorem exists_trace (h : globals.LoopFollows loopID r n) {run : RunningInvocation}
    (hrunning : r.running = some run) :
    ∃ trace : LoopTrace, globals.loopTraces = [(loopID, trace)] ∧ trace.Follows r := by
  rcases h.loopTraces with ⟨-, rfl⟩ | htrace
  · simp [Recorder.new] at hrunning
  · exact htrace

/-! ### Any call but a dump -/

/-- `CAM_profileLoopInvocationStart`. -/
theorem loopInvocationStart (h : globals.LoopFollows loopID r n)
    (hstart : globals.loopInvocationStart loopID = some globals') :
    globals'.LoopFollows loopID { r with running := some RunningInvocation.new } (n + 1) := by
  have hstack : globals.runningStack = none := by
    cases hstack : globals.runningStack with
    | none => rfl
    | some stack => simp [PassGlobals.loopInvocationStart, hstack] at hstart
  have hrunning := h.of_idle hstack
  have hresumed := h.sound.resumed hrunning
  have hcut := Recorder.cut_eq_false hresumed
  let trace : LoopTrace := (globals.loopTraces.lookup loopID).getD ExecTrace.new
  rcases globals.loopInvocationStart_eq hstack loopID with ⟨currCFC, pool, hstart', hpool⟩
  rw [hstart] at hstart'
  rcases set_loopTraces h.loopTraces with ⟨hset, hfollows⟩
  have hnum := hfollows.numInvocations
  rw [hrunning] at hnum
  -- a compressor comes from the pool, where they are used again, or is new
  have hcurrent : (∃ symbols, Compresses currCFC.contents symbols ∧ symbols.length ≤ n + 1) ∧
      ∀ c ∈ pool, ∃ symbols, Compresses c.contents symbols ∧ symbols.length ≤ n + 1 := by
    have hold := (h.mono (Nat.le_succ n)).pool
    rcases hpool with ⟨-, rfl, rfl⟩ | hpool
    · exact ⟨⟨[], compresses_newCFC, Nat.zero_le _⟩, by simp⟩
    · exact ⟨hold _ (by simp [hpool]), fun c hc => hold c (by simp [hpool, hc])⟩
  rcases hcurrent with ⟨⟨symbols, hcompresses, hlen⟩, hpool'⟩
  rcases Option.some.inj hstart' with rfl
  refine ⟨h.sound.withRunning (Recorder.Inside.new hresumed).1, h.within.start hrunning,
    Or.inr ⟨_, hset, ?_, hfollows.groups⟩, by simp, ?_, hpool', h.loopFile⟩
  · simpa [Recorder.numEnded] using hnum
  · intro run hrun
    rcases Option.some.inj hrun with rfl
    have hnumber : trace.numInvocations = r.numEnded := by simpa using hnum
    have hloop := RunningLoop.Keeps.start hcompresses hlen loopID trace.numInvocations
    rw [hnumber] at hloop
    have hcut' : Recorder.cut { r with running := some RunningInvocation.new } = false := hcut
    refine ⟨_, Progress.new, rfl, rfl, ?_⟩
    rw [hcut', hnumber]
    exact hloop

/-- Only the running loop changes. -/
theorem withRunning (h : globals.LoopFollows loopID r n) {iterations iterations' : Progress}
    (hrunning : r.running = some (.ofIterations iterations))
    {loop : RunningLoop} {stack : List RunningCall}
    (hloop : loop.Keeps loopID r.numEnded r.cut iterations' n)
    (hfollows : iterations'.Follows r.begun.iterations)
    (hstarted : iterations'.current = none → iterations' = iterations)
    (hcount : iterations'.count ≤ n) (hlen : (iterations'.current.getD []).length ≤ n) :
    PassGlobals.LoopFollows { globals with runningStack := some (loop, stack) } loopID
      { r with running := some (.ofIterations iterations') } n := by
  rcases h.exists_trace hrunning with ⟨trace, htable, htrace⟩
  have hinside := h.sound.inside _ hrunning
  refine ⟨h.sound.withRunning (hinside.ofIterations hfollows hstarted),
    h.within.ofIterations hrunning hcount hlen, Or.inr ⟨trace, htable, ?_, htrace.groups⟩, by simp, ?_,
    h.pool, h.loopFile⟩
  · have hnum := htrace.numInvocations
    rwa [hrunning] at hnum
  · intro run hrun
    rcases Option.some.inj hrun with rfl
    exact ⟨loop, iterations', rfl, rfl, hloop⟩

/-- `CAM_profileLoopIterationStart`. -/
theorem loopIterationStart (h : globals.LoopFollows loopID r n)
    (hstart : globals.loopIterationStart = some globals') :
    ∃ r', globals'.LoopFollows loopID r' (n + 1) := by
  simp only [PassGlobals.loopIterationStart] at hstart
  split at hstart
  · rename_i running hstack
    rcases h.of_runningStack running (by simp [hstack]) with ⟨iterations, hrunning, hloop⟩
    have hinside := h.sound.inside _ hrunning
    rcases hloop.loopIterationStart fun hnone => (hinside.started hnone).1 with
      ⟨running', symbols, hrecord, hlen, hloop'⟩
    rcases Option.map_eq_some_iff.1 hstart with ⟨running₁, hrecord₁, rfl⟩
    rcases Option.some.inj (hrecord.symm.trans hrecord₁) with rfl
    refine ⟨_, (h.mono (Nat.le_succ n)).withRunning hrunning (hloop'.mono (Nat.le_succ n))
      (hinside.iterations.nextWith symbols) (by simp [Progress.nextWith]) ?_ ?_⟩
    · have hcount := (h.within.running _ hrunning).1
      rw [Progress.count_nextWith]
      exact Nat.succ_le_succ hcount
    · simpa [Progress.nextWith] using Nat.le_succ_of_le hlen
  · simp at hstart

/-- `CAM_profileLoopSeenInstruction`. -/
theorem seenInstruction (h : globals.LoopFollows loopID r n) (instID : UInt64)
    (hn : n + 1 < 2 ^ 64) :
    ∃ r', (globals.seenInstruction instID).LoopFollows loopID r' (n + 1) := by
  have hmono := h.mono (Nat.le_succ n)
  cases hstack : globals.runningStack with
  | none => exact ⟨r, by simpa only [PassGlobals.seenInstruction, hstack] using hmono⟩
  | some stack =>
      rcases stack with ⟨loop, calls⟩
      cases calls with
      | cons call calls =>
          refine ⟨r, hmono.of_sameLoop ⟨?_, ?_, ?_, ?_⟩⟩
          all_goals simp [PassGlobals.seenInstruction, hstack]
      | nil =>
          rcases h.of_runningStack loop (by simp [hstack]) with ⟨iterations, hrunning, hloop⟩
          have hinside := h.sound.inside _ hrunning
          have hwithin := h.within
          refine ⟨{ r with running := some (.ofIterations (iterations.record instID)) }, ?_⟩
          simp only [PassGlobals.seenInstruction, hstack]
          refine hmono.withRunning hrunning (hloop.seen hn) (hinside.iterations.record instID) ?_ ?_ ?_
          · intro hnone
            have hnone' : iterations.current = none := by simpa [Progress.record] using hnone
            rcases iterations with ⟨first, values, current⟩
            simp only at hnone'
            subst hnone'
            rfl
          · rw [Progress.count_record]
            exact Nat.le_succ_of_le (hwithin.running _ hrunning).1
          · have hlen := (hwithin.current _ hrunning).1
            cases hc : iterations.current with
            | none => simp [Progress.record, hc]
            | some x =>
                have hx : x.length ≤ n := by simpa [RunningInvocation.ofIterations, hc] using hlen
                simpa [Progress.record, hc] using hx

/-- `CAM_profileLoopInvocationEnd`. -/
theorem loopInvocationEnd (h : globals.LoopFollows loopID r n)
    (hend : globals.loopInvocationEnd = some globals') :
    ∃ run, r.running = some run ∧
      globals'.LoopFollows loopID { r with pending := r.pending ++ [run.part], running := none } n := by
  simp only [PassGlobals.loopInvocationEnd] at hend
  split at hend
  · rename_i running hstack
    rcases h.of_runningStack running (by simp [hstack]) with ⟨iterations, hrunning, hloop⟩
    rcases h.exists_trace hrunning with ⟨trace, htable, htrace⟩
    have hinside := h.sound.inside _ hrunning
    rcases hloop.recordInstsSeenOnIteration with
      ⟨iterationInfos, currCFC, symbols, hrecord, hpayload, hcompresses, hlen, -⟩
    let globals₁ : PassGlobals := { globals with runningStack := none }
    have htable₁ : globals₁.loopTraces = [(loopID, trace)] := htable
    -- an invocation that a dump has cut is not compared with the groups before
    have hattempt : r.cut = true → (!running.partiallyDumped) = false := by
      intro hcut
      rw [hloop.partiallyDumped, hcut]
      rfl
    rcases PassGlobals.Follows.finishLoop htable₁ htrace.groups hinside hloop.loopID hloop.number
      hrecord hpayload hattempt with ⟨groups, -, hfinish, hgroups, -⟩
    simp only [globals₁] at hfinish
    simp only [hfinish] at hend
    rcases Option.map_eq_some_iff.1 hend with ⟨globals₂, hcalls, rfl⟩
    rcases recordCallTracesForInvocation_eq_some hcalls with ⟨infos, rfl⟩
    refine ⟨_, hrunning, h.sound.finish hinside, h.within.finish hrunning,
      Or.inr ⟨_, rfl, ?_, hgroups⟩, fun _ => rfl, by simp, ?_, h.loopFile⟩
    · have hnum := htrace.numInvocations
      rw [hrunning] at hnum
      simp only [hnum, Recorder.numEnded, Option.toList, List.length_append, List.length_singleton,
        List.length_nil]
      omega
    · intro c hc
      rcases List.mem_cons.1 hc with rfl | hc
      · exact ⟨symbols, hcompresses, hlen⟩
      · exact h.pool c hc
  · simp at hend

/-! ### Dumps -/

/-- The first half of `dumpTraces`: the running invocation is the last group of its trace. -/
theorem saveRunning (h : globals.LoopFollows loopID r n) {saved : PassGlobals} {loop : RunningLoop}
    {calls : List RunningCall} (hstack : globals.runningStack = some (loop, calls))
    (hsave : globals.saveRunning = some saved) :
    ∃ iterations trace loop', r.running = some (.ofIterations iterations) ∧
      saved.runningStack.map Prod.fst = some loop' ∧
      loop'.Keeps loopID r.numEnded true iterations.restart n ∧
      saved.loopTraces = [(loopID, trace)] ∧ trace.numInvocations = r.numEnded + 1 ∧
      trace.groups.Holds SymbolGroups loopPieces.Uncut r.done.length r.resumed.isSome
        ((r.pending ++ [(RunningInvocation.ofIterations iterations).part]).map
          InvocationPart.iterations) ∧
      (∃ init info, trace.groups.infos = init ++ [info] ∧ info.members = [r.numEnded]) ∧
      saved.runningLoopPool = globals.runningLoopPool ∧
      saved.loopCompressedFile = globals.loopCompressedFile := by
  rcases h.of_runningStack loop (by simp [hstack]) with ⟨iterations, hrunning, hloop⟩
  rcases h.exists_trace hrunning with ⟨trace, htable, htrace⟩
  have hinside := h.sound.inside _ hrunning
  simp only [PassGlobals.saveRunning, hstack] at hsave
  split at hsave
  · simp at hsave
  · rename_i globals₁ calls' hdump
    rcases dumpCalls_eq_some hdump with ⟨callTraces, rfl⟩
    -- the loop is marked as dumped before its iteration is recorded
    have hloop₁ : RunningLoop.Keeps { loop with partiallyDumped := true } loopID r.numEnded true
        iterations n :=
      { hloop with partiallyDumped := rfl }
    rcases hloop₁.recordInstsSeenOnIteration with
      ⟨iterationInfos, currCFC, symbols, hrecord, hpayload, hcompresses, hlen, hempty⟩
    let globals₁ : PassGlobals := { globals with callTraces }
    have htable₁ : globals₁.loopTraces = [(loopID, trace)] := htable
    rcases PassGlobals.Follows.finishLoop htable₁ htrace.groups hinside hloop₁.loopID hloop₁.number
      hrecord hpayload (fun _ => rfl) with ⟨groups, payload, hfinish, hgroups, hlast⟩
    simp only [globals₁] at hfinish
    simp only [hfinish] at hsave
    rcases recordCallTracesForInvocation_eq_some hsave with ⟨infos, rfl⟩
    refine ⟨iterations, _, _, hrunning, rfl, hloop₁.restart hcompresses hlen hempty, rfl, ?_, hgroups,
      ⟨_, _, hlast rfl, by simp⟩, rfl, rfl⟩
    have hnum := htrace.numInvocations
    rw [hrunning] at hnum
    exact hnum

/-- What is pending is written. -/
theorem writeLoopTraces_idle (h : globals.LoopFollows loopID r n) (hn : n < 2 ^ 64)
    (hrunning : r.running = none) (hready : globals.LoopReady) {text : List Char}
    (hwrite : writeLoopTraces globals.loopTraces false = some text) :
    LoopFileFollows (globals.loopCompressedFile ++ text) r.recorded none := by
  rcases h.loopTraces with ⟨hnil, rfl⟩ | ⟨trace, htable, htrace⟩
  · rw [hnil] at hwrite
    rcases Option.some.inj hwrite with rfl
    rw [List.append_nil]
    exact h.loopFile
  · have hitem := hready (loopID, trace) (by simp [htable])
    have hpending : r.pending ≠ [] := by
      intro hnil
      have hgroups := htrace.groups
      rw [hnil] at hgroups
      exact hitem.1 hgroups.infos_eq_nil
    rcases h.loopFile.append false loopID hpending htrace.groups
      h.sound.continued hitem.2 (h.within.smallParts hn) (by simp) with ⟨text', hwrite', hfile⟩
    rw [htable, hwrite'] at hwrite
    rcases Option.some.inj hwrite with rfl
    exact hfile

/-- `CAM_forceLoopTraceDump`. -/
theorem dumpTraces (h : globals.LoopFollows loopID r n) (hn : n < 2 ^ 64)
    (hready : ∀ saved, globals.saveRunning = some saved → saved.LoopReady)
    (hdump : globals.dumpTraces = some globals') : ∃ r', globals'.LoopFollows loopID r' n := by
  simp only [PassGlobals.dumpTraces] at hdump
  split at hdump
  · simp at hdump
  · rename_i saved hsave
    rcases Option.map_eq_some_iff.1 hdump with ⟨written, hwrite, rfl⟩
    rcases writeTraces_eq_some hwrite with ⟨loopText, callText, hloopText, rfl⟩
    -- between two invocations the recorder is flushed, in an invocation it is cut
    cases hstack : globals.runningStack with
    | none =>
        have hsame : globals = saved := by simpa [PassGlobals.saveRunning, hstack] using hsave
        subst hsame
        have hidle : globals.loopRunning = false := by simp [PassGlobals.loopRunning, hstack]
        have hrunning := h.of_idle hstack
        rw [hidle] at hloopText
        have hfile := h.writeLoopTraces_idle hn hrunning (hready _ hsave) hloopText
        refine ⟨r.flush, Recorder.Sound.flush r, h.within.flush, ?_, ?_, by simp [Recorder.flush],
          h.pool, hfile⟩
        · rcases h.loopTraces with ⟨hnil, rfl⟩ | ⟨trace, htable, htrace⟩
          · exact Or.inl ⟨by simp [clearDumped, hnil, clearTraces], rfl⟩
          · refine Or.inr ⟨trace.clearTrace, by simp [clearDumped, htable, clearTraces], ?_,
              ShareTable.Holds.empty _ _⟩
            have hnum := htrace.numInvocations
            rw [hrunning] at hnum
            have hended : r.flush.numEnded = r.numEnded := by
              rw [← Recorder.length_recorded, ← Recorder.length_recorded, Recorder.recorded_flush]
            rw [hended]
            exact hnum
        · intro _
          simp [clearDumped, hstack]
    | some stack =>
        rcases stack with ⟨loop, calls⟩
        rcases h.saveRunning hstack hsave with ⟨iterations, trace, loop', hrunning, hstack', hloop,
          htable, hnum, hgroups, hlast, hpool, hfile⟩
        have hinside := h.sound.inside _ hrunning
        have hrunningSaved : saved.loopRunning = true := by
          cases hnone : saved.runningStack with
          | none => simp [hnone] at hstack'
          | some _ => simp [PassGlobals.loopRunning, hnone]
        have hitem := hready saved hsave (loopID, trace) (by simp [htable])
        have hne : r.pending ++ [(RunningInvocation.ofIterations iterations).part] ≠ [] := by simp
        have hlen : r.done.length
            + ((r.pending ++ [(RunningInvocation.ofIterations iterations).part]).length - 1)
              = r.numEnded := by
          simp [Recorder.numEnded]
        rcases h.loopFile.append true loopID hne hgroups
          (h.sound.finish hinside).continued hitem.2 (h.within.smallParts_snoc hn hrunning)
          (fun _ => by rwa [hlen]) with ⟨text, htext, hfollows⟩
        rw [htable, hrunningSaved, htext] at hloopText
        rcases Option.some.inj hloopText with rfl
        -- what has been seen of the running invocation is written as a part of it
        rw [Recorder.settled_snoc, Recorder.unsettled_snoc] at hfollows
        let run := RunningInvocation.ofIterations iterations
        have hnumber : (r.dump run).numEnded = r.numEnded := by
          rw [← Recorder.length_recorded, ← Recorder.length_recorded, Recorder.recorded_dump]
        have hcut : (r.dump run).cut = true := by simp [Recorder.cut, Recorder.dump]
        refine ⟨r.dump run, Recorder.Sound.dump hinside, h.within.dump hrunning,
          Or.inr ⟨trace.clearTrace, by simp [clearDumped, htable, clearTraces], ?_,
            ShareTable.Holds.empty _ _⟩, by simp [Recorder.dump], ?_, ?_, ?_⟩
        · rw [hnumber]
          exact hnum
        · intro run' hrun
          rcases Option.some.inj hrun with rfl
          rw [hnumber, hcut]
          exact ⟨loop', iterations.restart, hstack', rfl, hloop⟩
        · have hpool' : saved.runningLoopPool = globals.runningLoopPool := hpool
          intro c hc
          exact h.pool c (hpool' ▸ hc)
        · simp only [clearDumped, hfile]
          exact hfollows

/-- Any call of the interface that the tracer takes. -/
theorem step (h : globals.LoopFollows loopID r n) (hn : n + 1 < 2 ^ 64) {c : ApiCall}
    (hloop : c.startedLoop = none ∨ c.startedLoop = some loopID)
    (hready : c = .forceLoopTraceDump →
      ∀ saved, globals.saveRunning = some saved → saved.LoopReady)
    (hstep : globals.step c = some globals') : ∃ r', globals'.LoopFollows loopID r' (n + 1) := by
  have hmono := h.mono (Nat.le_succ n)
  cases c with
  | loopInvocationStart id =>
      obtain rfl : id = loopID := by simpa [ApiCall.startedLoop] using hloop
      exact ⟨_, h.loopInvocationStart hstep⟩
  | loopInvocationEnd =>
      rcases hmono.loopInvocationEnd hstep with ⟨run, -, hend⟩
      exact ⟨_, hend⟩
  | loopIterationStart => exact h.loopIterationStart hstep
  | seenInstruction instID =>
      rcases Option.some.inj hstep with rfl
      exact h.seenInstruction instID hn
  | callInvocationStart instID =>
      rcases Option.some.inj hstep with rfl
      exact ⟨r, hmono.of_sameLoop (sameLoop_callInvocationStart globals instID)⟩
  | callInvocationEnd => exact ⟨r, hmono.of_sameLoop (sameLoop_callInvocationEnd hstep)⟩
  | forceLoopTraceDump => exact hmono.dumpTraces hn (hready rfl) hstep

end PassGlobals.LoopFollows

/-! ## Runs of the library -/

namespace LoopTracer

variable {t t' : LoopTracer} {loopID : UInt64} {r : Recorder} {n : Nat}

/-- The calls before the clock is asked and those after the timeout are calls of the tracer, or do
nothing. -/
theorem step_eq_some {c : ApiCall} {late : Bool} (h : t.step c late = some t') :
    t'.globals = t.globals ∨ t.globals.step c = some t'.globals := by
  simp only [step] at h
  split at h
  · split at h
    · rcases Option.some.inj h with rfl
      exact Or.inl rfl
    · rcases Option.map_eq_some_iff.1 h with ⟨globals, hglobals, rfl⟩
      exact Or.inr hglobals
  · rcases Option.map_eq_some_iff.1 h with ⟨globals, hglobals, rfl⟩
    exact Or.inr hglobals

/-- The predicate holds at every dump, once all that is running has been put into the traces. -/
def AtDumps (P : PassGlobals → Prop) (t : LoopTracer) : List (ApiCall × Bool) → Prop
  | [] => True
  | c :: cs => (c.1 = .forceLoopTraceDump → ∀ saved, t.globals.saveRunning = some saved → P saved) ∧
      ∀ t', t.step c.1 c.2 = some t' → AtDumps P t' cs

def decidableAtDumps (P : PassGlobals → Prop) [DecidablePred P] :
    ∀ (cs : List (ApiCall × Bool)) (t : LoopTracer), Decidable (t.AtDumps P cs)
  | [], _ => isTrue trivial
  | c :: cs, t =>
      haveI : DecidablePred fun t' : LoopTracer => t'.AtDumps P cs := decidableAtDumps P cs
      haveI := decidableOfOption t.globals.saveRunning P
      haveI := decidableOfOption (t.step c.1 c.2) fun t' => t'.AtDumps P cs
      inferInstanceAs (Decidable ((c.1 = .forceLoopTraceDump →
        ∀ saved, t.globals.saveRunning = some saved → P saved) ∧
          ∀ t', t.step c.1 c.2 = some t' → t'.AtDumps P cs))

instance (P : PassGlobals → Prop) [DecidablePred P] (t : LoopTracer) (cs : List (ApiCall × Bool)) :
    Decidable (t.AtDumps P cs) :=
  decidableAtDumps P cs t

/-- A run whose loop trace can be read: one loop, something to write at every dump and at the end,
and no loop running at the end. -/
structure LoopReady (t : LoopTracer) (loopID : UInt64) (cs : List (ApiCall × Bool)) : Prop where
  loop : ∀ c ∈ cs, c.1.startedLoop = none ∨ c.1.startedLoop = some loopID
  dumps : t.AtDumps PassGlobals.LoopReady cs
  shutdown : ∀ t', t.run cs = some t' → t'.globals.loopRunning = false ∧ t'.globals.LoopReady

instance (t : LoopTracer) (loopID : UInt64) (cs : List (ApiCall × Bool)) :
    Decidable (t.LoopReady loopID cs) :=
  haveI := decidableOfOption (t.run cs) fun t' =>
    t'.globals.loopRunning = false ∧ t'.globals.LoopReady
  decidable_of_iff ((∀ c ∈ cs, c.1.startedLoop = none ∨ c.1.startedLoop = some loopID) ∧
      t.AtDumps PassGlobals.LoopReady cs ∧
      ∀ t', t.run cs = some t' → t'.globals.loopRunning = false ∧ t'.globals.LoopReady)
    ⟨fun h => ⟨h.1, h.2.1, h.2.2⟩, fun h => ⟨h.loop, h.dumps, h.shutdown⟩⟩

/-- The number of invocations of a loop. -/
def numInvocations (t : LoopTracer) (loopID : UInt64) : Nat :=
  ((t.globals.loopTraces.lookup loopID).map fun trace => trace.numInvocations).getD 0

/-- In every run the loop trace follows a recorder. -/
theorem loopFollows_run {cs : List (ApiCall × Bool)} :
    ∀ {t : LoopTracer} {r : Recorder} {n : Nat}, t.globals.LoopFollows loopID r n →
      n + cs.length < 2 ^ 64 →
      (∀ c ∈ cs, c.1.startedLoop = none ∨ c.1.startedLoop = some loopID) →
      t.AtDumps PassGlobals.LoopReady cs → t.run cs = some t' →
      ∃ r', t'.globals.LoopFollows loopID r' (n + cs.length) := by
  induction cs with
  | nil =>
      intro t r n h _ _ _ hrun
      rcases Option.some.inj hrun with rfl
      exact ⟨r, h⟩
  | cons c cs ih =>
      intro t r n h hn hloop hdumps hrun
      rw [List.length_cons] at hn
      simp only [run] at hrun
      split at hrun
      · simp at hrun
      · rename_i t₁ hstep
        have hfollows : ∃ r₁, t₁.globals.LoopFollows loopID r₁ (n + 1) := by
          rcases step_eq_some hstep with hsame | hstep'
          · rw [hsame]
            exact ⟨r, h.mono (Nat.le_succ n)⟩
          · exact h.step (by omega) (hloop c (by simp)) hdumps.1 hstep'
        rcases hfollows with ⟨r₁, h₁⟩
        rcases ih h₁ (by omega) (fun c' hc' => hloop c' (List.mem_cons_of_mem _ hc'))
          (hdumps.2 t₁ hstep) hrun with ⟨r', h'⟩
        refine ⟨r', ?_⟩
        rw [List.length_cons]
        have hsum : n + (cs.length + 1) = n + 1 + cs.length := by omega
        rwa [hsum]

/-- `loop_trace_shutdown` writes what is left. -/
theorem loopFollows_shutdown (h : t.globals.LoopFollows loopID r n) (hn : n < 2 ^ 64)
    (hidle : t.globals.loopRunning = false) (hready : t.globals.LoopReady) {files : Files}
    (hshutdown : t.shutdown = some (some files)) :
    LoopFileFollows files.loopTrace r.recorded none ∧
      t.numInvocations loopID = r.recorded.length := by
  have hrunning : r.running = none := by
    refine h.of_idle ?_
    simpa [PassGlobals.loopRunning] using hidle
  refine ⟨?_, ?_⟩
  · simp only [shutdown] at hshutdown
    split at hshutdown
    · split at hshutdown
      · simp at hshutdown
      · rename_i globals hwrite
        rcases PassGlobals.writeTraces_eq_some hwrite with ⟨loopText, callText, hloopText, rfl⟩
        rw [hidle] at hloopText
        split at hshutdown
        · simp at hshutdown
        · rcases Option.some.inj (Option.some.inj hshutdown) with rfl
          exact h.writeLoopTraces_idle hn hrunning hready hloopText
    · simp at hshutdown
  · rcases h.loopTraces with ⟨hnil, rfl⟩ | ⟨trace, htable, htrace⟩
    · simp [numInvocations, hnil, Recorder.recorded, Recorder.new, Recorder.resume]
    · have hnum := htrace.numInvocations
      rw [hrunning] at hnum
      rw [Recorder.length_recorded]
      simpa [numInvocations, htable, HashTable.lookup_cons] using hnum

/-- What the library leaves in the loop trace, where it can be read. -/
theorem exists_loopFileFollows {cs : List (ApiCall × Bool)} (hlen : cs.length < 2 ^ 64)
    (hready : init.LoopReady loopID cs) {files : Files} (hrun : init.run cs = some t)
    (hshutdown : t.shutdown = some (some files)) :
    ∃ invocations : List Invocation, LoopFileFollows files.loopTrace invocations none ∧
      t.numInvocations loopID = invocations.length := by
  rcases loopFollows_run (PassGlobals.LoopFollows.new loopID) (by omega) hready.loop hready.dumps hrun
    with ⟨r, h⟩
  have hend := hready.shutdown t hrun
  exact ⟨r.recorded, loopFollows_shutdown h (by omega) hend.1 hend.2 hshutdown⟩

end LoopTracer
end CamAlias
