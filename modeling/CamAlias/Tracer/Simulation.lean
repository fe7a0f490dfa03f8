import CamAlias.Tracer.Execution
import CamAlias.Tracer.Running
import CamAlias.Tracer.Written

/-!
# Simulation — the tracer follows the recorder

The groups that the tracer keeps in memory, and what it has written to its two files, stand for
what a `Recorder` keeps: `PassGlobals.Follows` is the relation between the two, and
`PassGlobals.Follows.step` says that a call which the recorder takes is taken by the tracer and
keeps the relation, as long as what a dump writes fits the widths of the writer.
-/

namespace CamAlias

open Lib ControlFlowCompressor

/-! ## The whole tracer -/

namespace Recorder

/-- The number of invocations that have ended. -/
def numEnded (r : Recorder) : Nat :=
  r.done.length + r.pending.length

/-- A dump has cut the running invocation, and no invocation has ended since. -/
def cut (r : Recorder) : Bool :=
  r.resumed.isSome && r.pending.isEmpty

/-- What an earlier dump has cut has been finished. -/
theorem cut_eq_false {r : Recorder} (h : r.resumed.isSome → r.pending ≠ []) : r.cut = false := by
  cases hresumed : r.resumed with
  | none => simp [cut, hresumed]
  | some x =>
      have hne := h (by simp [hresumed])
      simpa [cut, hresumed, List.isEmpty_iff] using hne

theorem length_recorded (r : Recorder) : r.recorded.length = r.numEnded := by
  rw [recorded, List.length_append, length_resume]
  rfl

/-- All pending parts but the running one are complete. -/
theorem settled_snoc (r : Recorder) (run : RunningInvocation) :
    PieceModel.settled true (resume r.resumed (r.pending ++ [run.part]))
      = resume r.resumed r.pending := by
  simp [PieceModel.settled, resume_snoc]

theorem unsettled_snoc (r : Recorder) (run : RunningInvocation) :
    PieceModel.unsettled true (resume r.resumed (r.pending ++ [run.part]))
      = some (r.invocation run) := by
  simp [PieceModel.unsettled, resume_snoc, invocation]

theorem Within.smallParts {r : Recorder} {n : Nat} (h : r.Within n) (hn : n < 2 ^ 64) :
    SmallParts r.done r.pending where
  numbers := by
    have := h.ended
    omega
  parts := fun p hp => ⟨Nat.lt_of_le_of_lt (h.pending p hp).1 hn,
    fun id => Nat.lt_of_le_of_lt ((h.pending p hp).2 id) hn⟩

/-- The part of the running invocation is small, too. -/
theorem Within.smallParts_snoc {r : Recorder} {n : Nat} (h : r.Within n) (hn : n < 2 ^ 64)
    {run : RunningInvocation} (hrunning : r.running = some run) :
    SmallParts r.done (r.pending ++ [run.part]) :=
  (h.finish hrunning).smallParts hn

end Recorder

/-- The trace of the loop holds the pending parts of the iterations. -/
structure LoopTrace.Follows (trace : LoopTrace) (r : Recorder) : Prop where
  numInvocations : trace.numInvocations = r.numEnded + r.running.toList.length
  groups : trace.groups.Holds SymbolGroups loopPieces.Uncut r.done.length r.resumed.isSome
    (r.pending.map InvocationPart.iterations)

/-- The tracer keeps and has written what the recorder keeps. -/
structure PassGlobals.Follows (globals : PassGlobals) (loopID : UInt64) (r : Recorder) : Prop where
  loopTraces : (globals.loopTraces = [] ∧ r = Recorder.new) ∨
    ∃ trace : LoopTrace, globals.loopTraces = [(loopID, trace)] ∧ trace.Follows r
  callInfos : globals.loopInvCallInfos.Holds CallTraces.Stands callPieces.Uncut r.done.length
    r.resumed.isSome (r.pending.map InvocationPart.calls)
  idle : r.running = none → globals.runningStack = none ∧ globals.callTraces = [] ∧
    globals.waitingForInvocCompletion = false
  running : ∀ run, r.running = some run → ∃ loop stack,
    globals.runningStack = some (loop, stack) ∧ loop.Follows loopID r.numEnded r.cut run.iterations ∧
    CallsFollow stack globals.callTraces run ∧ globals.waitingForInvocCompletion = r.cut
  pool : ∀ c ∈ globals.runningLoopPool, Compresses c.contents []
  loopFile : LoopFileFollows globals.loopCompressedFile r.done r.resumed
  callFile : CallFileFollows globals.callCompressedFile r.done r.resumed

/-- The trace of the only loop, or a new one, counts one invocation more. -/
theorem PassGlobals.set_loopTraces {globals : PassGlobals} {loopID : UInt64} {r : Recorder}
    (h : (globals.loopTraces = [] ∧ r = Recorder.new) ∨
      ∃ trace : LoopTrace, globals.loopTraces = [(loopID, trace)] ∧ trace.Follows r) :
    let trace : LoopTrace := (globals.loopTraces.lookup loopID).getD ExecTrace.new
    HashTable.set globals.loopTraces loopID { trace with numInvocations := trace.numInvocations + 1 }
        = [(loopID, { trace with numInvocations := trace.numInvocations + 1 })] ∧
      trace.Follows r := by
  intro trace
  rcases h with ⟨hnil, rfl⟩ | ⟨trace', htable, hfollows⟩
  · have hnew : trace = ExecTrace.new := by simp [trace, hnil]
    refine ⟨by rw [hnil]; rfl, ?_⟩
    rw [hnew]
    exact ⟨rfl, ShareTable.Holds.empty _ _⟩
  · have hsame : trace = trace' := by
      simp only [trace, htable, HashTable.lookup_cons, if_true, Option.getD_some]
    refine ⟨by rw [htable]; simp [HashTable.set], hsame ▸ hfollows⟩

/-- An invocation starts with a compressor of the pool, or with a new one. -/
theorem PassGlobals.loopInvocationStart_eq {globals : PassGlobals}
    (hstack : globals.runningStack = none) (loopID : UInt64) :
    let trace : LoopTrace := (globals.loopTraces.lookup loopID).getD ExecTrace.new
    ∃ currCFC pool, globals.loopInvocationStart loopID = some { globals with
        loopTraces := HashTable.set globals.loopTraces loopID
          { trace with numInvocations := trace.numInvocations + 1 }
        runningLoopPool := pool
        runningStack := some ({
          loopID
          invocationNum := trace.numInvocations
          iterationNum := -1
          partiallyDumped := false
          currCFC
          iterationInfos := ShareTable.empty }, []) } ∧
      ((globals.runningLoopPool = [] ∧ currCFC = newCFC ∧ pool = []) ∨
        globals.runningLoopPool = currCFC :: pool) := by
  intro trace
  cases hpool : globals.runningLoopPool with
  | nil =>
      refine ⟨newCFC, [], ?_, Or.inl ⟨rfl, rfl, rfl⟩⟩
      simp only [PassGlobals.loopInvocationStart, hstack, hpool, trace]
  | cons currCFC pool =>
      refine ⟨currCFC, pool, ?_, Or.inr rfl⟩
      simp only [PassGlobals.loopInvocationStart, hstack, hpool, trace]

namespace PassGlobals.Follows

variable {globals : PassGlobals} {loopID : UInt64} {r : Recorder}

theorem new (loopID : UInt64) : PassGlobals.new.Follows loopID Recorder.new where
  loopTraces := Or.inl ⟨rfl, rfl⟩
  callInfos := ShareTable.Holds.empty _ _
  idle := fun _ => ⟨rfl, rfl, rfl⟩
  running := by simp [Recorder.new]
  pool := by simp [PassGlobals.new]
  loopFile := ⟨[], by simp, PrintsLines.nil, PieceModel.ReadsTo.nil⟩
  callFile := ⟨[], by simp, PrintsLines.nil, PieceModel.ReadsTo.nil⟩

/-- Where a loop has been run, its trace is there. -/
theorem exists_trace (h : globals.Follows loopID r) {run : RunningInvocation}
    (hrunning : r.running = some run) :
    ∃ trace : LoopTrace, globals.loopTraces = [(loopID, trace)] ∧ trace.Follows r := by
  rcases h.loopTraces with ⟨-, rfl⟩ | htrace
  · simp [Recorder.new] at hrunning
  · exact htrace

/-! ### The calls that begin something -/

/-- `CAM_profileLoopInvocationStart`. -/
theorem loopInvocationStart (h : globals.Follows loopID r) (hvalid : r.Valid)
    (hrunning : r.running = none) :
    ∃ globals', globals.loopInvocationStart loopID = some globals' ∧
      globals'.Follows loopID { r with running := some RunningInvocation.new } := by
  rcases h.idle hrunning with ⟨hstack, hcalls, hwaiting⟩
  have hcut := Recorder.cut_eq_false (hvalid.resumed hrunning)
  let trace : LoopTrace := (globals.loopTraces.lookup loopID).getD ExecTrace.new
  rcases set_loopTraces h.loopTraces with ⟨hset, hfollows⟩
  have hnum := hfollows.numInvocations
  rw [hrunning] at hnum
  rcases globals.loopInvocationStart_eq hstack loopID with ⟨currCFC, pool, hstart, hpool⟩
  have hcurrent : Compresses currCFC.contents [] ∧ ∀ c ∈ pool, Compresses c.contents [] := by
    rcases hpool with ⟨-, rfl, rfl⟩ | hpool
    · exact ⟨compresses_newCFC, by simp⟩
    · exact ⟨h.pool _ (by simp [hpool]), fun c hc => h.pool c (by simp [hpool, hc])⟩
  refine ⟨_, hstart, ?_⟩
  refine ⟨Or.inr ⟨{ trace with numInvocations := trace.numInvocations + 1 }, hset, ?_, hfollows.groups⟩,
    h.callInfos, by simp, ?_, hcurrent.2, h.loopFile, h.callFile⟩
  · simpa [Recorder.numEnded] using hnum
  · intro run hrun
    rcases Option.some.inj hrun with rfl
    refine ⟨_, [], rfl, ⟨rfl, ?_, hcut.symm, rfl, Groups.nil, hcurrent.1⟩, ?_, ?_⟩
    · simpa [Recorder.numEnded] using hnum
    · rw [hcalls]
      exact CallsFollow.new
    · rw [hwaiting]
      exact hcut.symm

/-- Only the running invocation changes. -/
theorem withRunning (h : globals.Follows loopID r) {run run' : RunningInvocation}
    (hrunning : r.running = some run) {loop : RunningLoop} {stack : List RunningCall}
    {callTraces : CallTraces} (hloop : loop.Follows loopID r.numEnded r.cut run'.iterations)
    (hcalls : CallsFollow stack callTraces run') :
    PassGlobals.Follows { globals with runningStack := some (loop, stack), callTraces } loopID
      { r with running := some run' } := by
  rcases h.exists_trace hrunning with ⟨trace, htable, htrace⟩
  rcases h.running run hrunning with ⟨-, -, -, -, -, hwaiting⟩
  refine ⟨Or.inr ⟨trace, htable, ?_, htrace.groups⟩, h.callInfos, by simp, ?_, h.pool, h.loopFile,
    h.callFile⟩
  · have hnum := htrace.numInvocations
    rwa [hrunning] at hnum
  · intro run'' hrun
    rcases Option.some.inj hrun with rfl
    exact ⟨loop, stack, rfl, hloop, hcalls, hwaiting⟩

/-- `CAM_profileLoopIterationStart`. -/
theorem loopIterationStart (h : globals.Follows loopID r) (hvalid : r.Valid)
    {iterations : Progress} {calls : UInt64 → Progress}
    (hrunning : r.running = some { iterations, calls, call := none }) :
    ∃ globals', globals.loopIterationStart = some globals' ∧ globals'.Follows loopID
      { r with running := some { iterations := iterations.next, calls, call := none } } := by
  rcases h.running _ hrunning with ⟨loop, stack, hstack, hloop, hcalls, -⟩
  have hidle := hcalls.idle rfl
  subst hidle
  have hinside := hvalid.inside _ hrunning
  rcases hloop.loopIterationStart fun hnone => (hinside.started hnone).1 with
    ⟨loop', hrecord, hloop'⟩
  refine ⟨_, by simp only [PassGlobals.loopIterationStart, hstack, hrecord, Option.map_some]; rfl, ?_⟩
  exact h.withRunning hrunning hloop'
    ⟨hcalls.stands, hcalls.numOf, fun _ => rfl, by simp⟩

/-- `CAM_profileLoopSeenInstruction` in an iteration. -/
theorem seenInstruction (h : globals.Follows loopID r) {iterations : Progress}
    {calls : UInt64 → Progress} {instID : UInt64} {n : Nat}
    (hrunning : r.running = some { iterations, calls, call := none })
    (hcurrent : iterations.current.isSome) (hwithin : r.Within n) (hn : n + 1 < 2 ^ 64) :
    (globals.seenInstruction instID).Follows loopID
      { r with running := some { iterations := iterations.record instID, calls, call := none } } := by
  rcases h.running _ hrunning with ⟨loop, stack, hstack, hloop, hcalls, -⟩
  have hidle := hcalls.idle rfl
  subst hidle
  have hlen := (hwithin.current _ hrunning).1
  have hloop' := hloop.seen hcurrent instID (by simp only at hlen ⊢; omega)
  have heq : globals.seenInstruction instID = { globals with
      runningStack := some ({ loop with currCFC := loop.currCFC.insertSymbol instID }, []) } := by
    simp only [PassGlobals.seenInstruction, hstack]
  rw [heq]
  exact h.withRunning hrunning hloop' ⟨hcalls.stands, hcalls.numOf, fun _ => rfl, by simp⟩

/-- `CAM_profileLoopSeenInstruction` in a call. -/
theorem seenInstruction_call (h : globals.Follows loopID r) (hvalid : r.Valid)
    {iterations : Progress} {calls : UInt64 → Progress} {id instID : UInt64} {n : Nat}
    (hrunning : r.running = some { iterations, calls, call := some id }) (hwithin : r.Within n)
    (hn : n + 1 < 2 ^ 64) :
    (globals.seenInstruction instID).Follows loopID { r with running := some {
      iterations
      calls := Function.update calls id ((calls id).record instID)
      call := some id } } := by
  rcases h.running _ hrunning with ⟨loop, stack, hstack, hloop, hcalls, -⟩
  rcases hcalls.running id rfl with ⟨call, rfl, -⟩
  have hcurrent := ((hvalid.inside _ hrunning).call_iff id).2 rfl
  have hlen := (hwithin.current _ hrunning).2 id
  have hcalls' := hcalls.seen hcurrent instID (by simp only at hlen ⊢; omega)
  have heq : globals.seenInstruction instID = { globals with
      runningStack := some (loop,
        [{ call with currCFC := call.currCFC.insertSymbol instID }]) } := by
    simp only [PassGlobals.seenInstruction, hstack]
  rw [heq]
  exact h.withRunning hrunning hloop hcalls'

/-- `CAM_profileCallInvocationStart`. -/
theorem callInvocationStart (h : globals.Follows loopID r) (hvalid : r.Valid)
    {iterations : Progress} {calls : UInt64 → Progress} {id : UInt64}
    (hrunning : r.running = some { iterations, calls, call := none }) :
    (globals.callInvocationStart id).Follows loopID { r with running := some {
      iterations
      calls := Function.update calls id (calls id).next
      call := some id } } := by
  rcases h.running _ hrunning with ⟨loop, stack, hstack, hloop, hcalls, -⟩
  have hidle := hcalls.idle rfl
  subst hidle
  have hnone : (calls id).current = none := by
    have hiff := (hvalid.inside _ hrunning).call_iff id
    simpa using hiff
  simp only [PassGlobals.callInvocationStart, hstack]
  exact h.withRunning hrunning hloop (hcalls.callInvocationStart hnone)

/-- `CAM_profileCallInvocationEnd`. -/
theorem callInvocationEnd (h : globals.Follows loopID r) (hvalid : r.Valid)
    {iterations : Progress} {calls : UInt64 → Progress} {id : UInt64}
    (hrunning : r.running = some { iterations, calls, call := some id }) :
    ∃ globals', globals.callInvocationEnd = some globals' ∧ globals'.Follows loopID
      { r with running := some {
        iterations
        calls := Function.update calls id (calls id).finish
        call := none } } := by
  rcases h.running _ hrunning with ⟨loop, stack, hstack, hloop, hcalls, -⟩
  rcases hcalls.running id rfl with ⟨call, rfl, -⟩
  have hcurrent := ((hvalid.inside _ hrunning).call_iff id).2 rfl
  let globals₁ : PassGlobals := { globals with runningStack := some (loop, []) }
  have hcalls₁ : CallsFollow [call] globals₁.callTraces { iterations, calls, call := some id } :=
    hcalls
  rcases hcalls₁.finishCall hcurrent call.partiallyDumped (!call.partiallyDumped) with
    ⟨callTraces, currCFC, hfinish, hstands, hnumOf, -⟩
  refine ⟨{ globals₁ with callTraces }, ?_, ?_⟩
  · simp only [PassGlobals.callInvocationEnd, hstack]
    exact congrArg (Option.map fun r => r.1) hfinish
  · refine h.withRunning hrunning hloop ⟨?_, ?_, fun _ => rfl, by simp⟩
    · convert hstands using 1
      funext id'
      by_cases heq : id' = id
      · subst heq
        simp [Progress.finish, Progress.part, Progress.ended]
      · simp [Function.update_of_ne heq]
    · intro id'
      rw [hnumOf id']
      by_cases heq : id' = id
      · subst heq
        simp
      · simp [Function.update_of_ne heq]

/-! ### The calls that end something -/

/-- The running invocation is put into the trace of its loop. -/
theorem finishLoop {globals : PassGlobals} {trace : LoopTrace}
    (htable : globals.loopTraces = [(loopID, trace)])
    (htrace : trace.groups.Holds SymbolGroups loopPieces.Uncut r.done.length r.resumed.isSome
      (r.pending.map InvocationPart.iterations)) {run : RunningInvocation} (hinside : r.Inside run)
    {loop : RunningLoop} (hloopID : loop.loopID = loopID) (hnumber : loop.invocationNum = r.numEnded)
    {iterationInfos : ShareTable ControlFlowCompressor} {currCFC : ControlFlowCompressor}
    (hrecord : loop.recordInstsSeenOnIteration = some { loop with iterationInfos, currCFC })
    (hpayload : SymbolGroups iterationInfos.infos run.iterations.part) {attemptMatch : Bool}
    (hattempt : r.cut = true → attemptMatch = false) :
    ∃ groups payload,
      globals.finishLoop loop attemptMatch
        = some ({ globals with loopTraces := [(loopID, { trace with groups })] },
            { loop with iterationInfos := ShareTable.empty, currCFC }) ∧
      groups.Holds SymbolGroups loopPieces.Uncut r.done.length r.resumed.isSome
        ((r.pending ++ [run.part]).map InvocationPart.iterations) ∧
      (attemptMatch = false →
        groups.infos = trace.groups.infos ++ [SharedInfo.new payload r.numEnded true]) := by
  have huncut : (r.resumed.isSome = true → r.pending.map InvocationPart.iterations ≠ []) →
      loopPieces.Uncut run.iterations.part := by
    intro hne
    exact (hinside.uncut fun hresumed hnil => hne hresumed (by simp [hnil])).1
  -- where a dump has cut the invocation nothing is compared, and the part is a group of its own
  rcases htrace.share hpayload
    (fun hresumed hpending => hattempt (by
      have hnil : r.pending = [] := by simpa using hpending
      simp [Recorder.cut, hresumed, hnil]))
    huncut
    (fun inv q _ _ _ hmatch => LoopTrace.symbolGroups_of_invocationsMatch hpayload hmatch) with
    ⟨groups, found, hshare, hholds, hlast⟩
  have hended : r.done.length + (r.pending.map InvocationPart.iterations).length = r.numEnded := by
    rw [List.length_map]
    rfl
  rw [hended] at hshare hlast
  refine ⟨groups, iterationInfos.infos, ?_, ?_, hlast⟩
  · have hlookup : globals.loopTraces.lookup loop.loopID = some trace := by
      rw [htable, hloopID, HashTable.lookup_cons, if_pos rfl]
    have hset : HashTable.set globals.loopTraces loop.loopID { trace with groups }
        = [(loopID, { trace with groups })] := by
      rw [htable, hloopID, HashTable.set, if_pos rfl]
    rw [← hnumber] at hshare
    simp only [PassGlobals.finishLoop, hrecord, hlookup, ExecTrace.processInvocation, hshare,
      Option.map_some, hset]
  · rw [List.map_append]
    exact hholds

/-- The call traces of the running invocation join those of the others. -/
theorem recordCallTraces {globals : PassGlobals}
    (hinfos : globals.loopInvCallInfos.Holds CallTraces.Stands callPieces.Uncut r.done.length
      r.resumed.isSome (r.pending.map InvocationPart.calls)) {run : RunningInvocation}
    (hinside : r.Inside run) (hstands : globals.callTraces.Stands run.part.calls)
    {attemptMatch : Bool} (hattempt : r.cut = true → attemptMatch = false) :
    ∃ infos, globals.recordCallTracesForInvocation r.numEnded attemptMatch
        = some { globals with loopInvCallInfos := infos } ∧
      infos.Holds CallTraces.Stands callPieces.Uncut r.done.length r.resumed.isSome
        ((r.pending ++ [run.part]).map InvocationPart.calls) ∧
      (attemptMatch = false → infos.infos = globals.loopInvCallInfos.infos
        ++ [SharedInfo.new globals.callTraces r.numEnded true]) := by
  have huncut : (r.resumed.isSome = true → r.pending.map InvocationPart.calls ≠ []) →
      callPieces.Uncut run.part.calls := by
    intro hne
    exact (hinside.uncut fun hresumed hnil => hne hresumed (by simp [hnil])).2
  rcases hinfos.share hstands
    (fun hresumed hpending => hattempt (by
      have hnil : r.pending = [] := by simpa using hpending
      simp [Recorder.cut, hresumed, hnil]))
    huncut
    (fun callTraces q hq hcut hcut' hmatch =>
      CallTraces.stands_of_isEqual hstands hq hcut' hcut hmatch) with
    ⟨infos, found, hshare, hholds, hlast⟩
  have hnumber : r.done.length + (r.pending.map InvocationPart.calls).length = r.numEnded := by
    rw [List.length_map]
    rfl
  rw [hnumber] at hshare hlast
  refine ⟨infos, ?_, ?_, hlast⟩
  · simp only [PassGlobals.recordCallTracesForInvocation, hshare, Option.map_some]
  · rw [List.map_append]
    exact hholds

/-- `CAM_profileLoopInvocationEnd`. -/
theorem loopInvocationEnd (h : globals.Follows loopID r) (hvalid : r.Valid)
    {run : RunningInvocation} (hrunning : r.running = some run) (hcall : run.call = none) :
    ∃ globals', globals.loopInvocationEnd = some globals' ∧ globals'.Follows loopID
      { r with pending := r.pending ++ [run.part], running := none } := by
  rcases h.exists_trace hrunning with ⟨trace, htable, htrace⟩
  rcases h.running run hrunning with ⟨loop, stack, hstack, hloop, hcalls, hwaiting⟩
  have hidle := hcalls.idle hcall
  subst hidle
  have hinside := hvalid.inside run hrunning
  let globals₁ : PassGlobals := { globals with runningStack := none }
  -- an invocation that a dump has cut is not compared with the groups before
  have hattempt : r.cut = true → (!loop.partiallyDumped) = false := by
    intro hcut
    rw [hloop.partiallyDumped, hcut]
    rfl
  have htable₁ : globals₁.loopTraces = [(loopID, trace)] := htable
  rcases hloop.recordInstsSeenOnIteration with
    ⟨iterationInfos, currCFC, hsaved, hpayload, hcurrent⟩
  rcases finishLoop htable₁ htrace.groups hinside hloop.loopID hloop.number hsaved hpayload hattempt
    with ⟨groups, -, hfinish, hgroups, -⟩
  let globals₂ : PassGlobals := { globals₁ with
    loopTraces := [(loopID, { trace with groups })]
    runningLoopPool := currCFC :: globals₁.runningLoopPool }
  have hstands : globals₂.callTraces.Stands run.part.calls := by
    have hstands := hcalls.stands
    convert hstands using 1
    funext id
    refine Progress.part_of_idle ?_
    have hiff := hinside.call_iff id
    simpa [hcall] using hiff
  have hinfos₂ : globals₂.loopInvCallInfos.Holds CallTraces.Stands callPieces.Uncut r.done.length
      r.resumed.isSome (r.pending.map InvocationPart.calls) := h.callInfos
  have hattempt' : r.cut = true → (!globals.waitingForInvocCompletion) = false := by
    intro hcut
    rw [hwaiting, hcut]
    rfl
  rcases recordCallTraces hinfos₂ hinside hstands hattempt' with ⟨infos, hrecord, hinfos, -⟩
  refine ⟨{ globals₂ with
    loopInvCallInfos := infos
    callTraces := []
    waitingForInvocCompletion := false }, ?_, ?_⟩
  · simp only [PassGlobals.loopInvocationEnd, hstack]
    simp only [globals₁] at hfinish
    simp only [hfinish, hloop.number]
    exact congrArg (Option.map _) hrecord
  · refine ⟨Or.inr ⟨_, rfl, ?_, hgroups⟩, hinfos, fun _ => ⟨rfl, rfl, rfl⟩, by simp, ?_, h.loopFile,
      h.callFile⟩
    · have hnum := htrace.numInvocations
      rw [hrunning] at hnum
      simp only [hnum, Recorder.numEnded, Option.toList, List.length_append, List.length_singleton,
        List.length_nil]
      omega
    · intro c hc
      rcases List.mem_cons.1 hc with rfl | hc
      · exact hcurrent
      · exact h.pool c hc

/-! ### Dumps -/

/-- All that is running has been put into the traces, as the last group of each. -/
structure Saved (globals saved : PassGlobals) (loopID : UInt64) (r : Recorder)
    (run : RunningInvocation) : Prop where
  saveRunning : globals.saveRunning = some saved
  loopTraces : ∃ trace : LoopTrace, saved.loopTraces = [(loopID, trace)] ∧
    trace.numInvocations = r.numEnded + 1 ∧
    trace.groups.Holds SymbolGroups loopPieces.Uncut r.done.length r.resumed.isSome
      ((r.pending ++ [run.part]).map InvocationPart.iterations) ∧
    ∃ init info, trace.groups.infos = init ++ [info] ∧ info.members = [r.numEnded]
  callInfos : saved.loopInvCallInfos.Holds CallTraces.Stands callPieces.Uncut r.done.length
    r.resumed.isSome ((r.pending ++ [run.part]).map InvocationPart.calls)
  lastInfo : ∃ init info, saved.loopInvCallInfos.infos = init ++ [info] ∧
    info.members = [r.numEnded]
  running : ∃ loop stack, saved.runningStack = some (loop, stack) ∧
    loop.Follows loopID r.numEnded true run.iterations.restart ∧
    CallsFollow stack (clearTraces saved.callTraces) run.restart
  pool : saved.runningLoopPool = globals.runningLoopPool
  files : saved.loopCompressedFile = globals.loopCompressedFile ∧
    saved.callCompressedFile = globals.callCompressedFile

theorem saveRunning_eq {globals₁ globals₂ globals₃ : PassGlobals} {loop loop' : RunningLoop}
    {stack stack' : List RunningCall} (hstack : globals.runningStack = some (loop, stack))
    (hdump : globals.dumpCalls stack = some (globals₁, stack'))
    (hfinish : globals₁.finishLoop { loop with partiallyDumped := true } false
      = some (globals₂, loop'))
    (hrecord : PassGlobals.recordCallTracesForInvocation
      { globals₂ with runningStack := some (loop', stack') } loop'.invocationNum false
      = some globals₃) : globals.saveRunning = some globals₃ := by
  simp only [PassGlobals.saveRunning, hstack, hdump, hfinish, hrecord]

/-- The first half of `dumpTraces`. -/
theorem saveRunning (h : globals.Follows loopID r) (hvalid : r.Valid) {run : RunningInvocation}
    (hrunning : r.running = some run) : ∃ saved, Saved globals saved loopID r run := by
  rcases h.exists_trace hrunning with ⟨trace, htable, htrace⟩
  rcases h.running run hrunning with ⟨loop, stack, hstack, hloop, hcalls, -⟩
  have hinside := hvalid.inside run hrunning
  rcases hcalls.dumpCalls hinside with ⟨callTraces, stack', hdump, hstands, hcalls'⟩
  let globals₁ : PassGlobals := { globals with callTraces }
  have hloop₁ : RunningLoop.Follows { loop with partiallyDumped := true } loopID r.numEnded true
      run.iterations :=
    { hloop with partiallyDumped := rfl }
  have htable₁ : globals₁.loopTraces = [(loopID, trace)] := htable
  rcases hloop₁.recordInstsSeenOnIteration with
    ⟨iterationInfos, currCFC, hsaved, hpayload, hcurrent⟩
  rcases finishLoop htable₁ htrace.groups hinside hloop₁.loopID hloop₁.number hsaved hpayload
    (fun _ => rfl) with ⟨groups, payload, hfinish, hgroups, hlast⟩
  let globals₂ : PassGlobals := { globals₁ with
    loopTraces := [(loopID, { trace with groups })]
    runningStack := some ({ loop with
      partiallyDumped := true, iterationInfos := ShareTable.empty, currCFC }, stack') }
  have hinfos₂ : globals₂.loopInvCallInfos.Holds CallTraces.Stands callPieces.Uncut r.done.length
      r.resumed.isSome (r.pending.map InvocationPart.calls) := h.callInfos
  have hstands₂ : globals₂.callTraces.Stands run.part.calls := hstands
  rcases recordCallTraces hinfos₂ hinside hstands₂ (fun _ => rfl) with
    ⟨infos, hrecord, hinfos, hlastInfo⟩
  refine ⟨{ globals₂ with loopInvCallInfos := infos }, ?_, ⟨_, rfl, ?_, hgroups, ?_⟩, hinfos, ?_,
    ⟨_, stack', rfl, ?_, hcalls'⟩, rfl, rfl, rfl⟩
  · refine saveRunning_eq hstack hdump hfinish ?_
    rw [← hloop.number] at hrecord
    exact hrecord
  · have hnum := htrace.numInvocations
    rw [hrunning] at hnum
    exact hnum
  · exact ⟨_, _, hlast rfl, by simp⟩
  · exact ⟨_, _, hlastInfo rfl, by simp⟩
  · exact hloop₁.restart rfl hcurrent

/-- `CAM_forceLoopTraceDump`. -/
theorem dumpTraces (h : globals.Follows loopID r) (hvalid : r.Valid) {run : RunningInvocation}
    {n : Nat} (hrunning : r.running = some run) (hwithin : r.Within n) (hn : n < 2 ^ 64)
    (hfits : ∀ saved, globals.saveRunning = some saved → saved.Fits) :
    ∃ globals', globals.dumpTraces = some globals' ∧ globals'.Follows loopID (r.dump run) := by
  rcases h.saveRunning hvalid hrunning with ⟨saved, hsaved⟩
  rcases hsaved.loopTraces with ⟨trace, htable, hnum, hgroups, hlast⟩
  rcases hsaved.running with ⟨loop, stack, hstack, hloop, hcalls⟩
  have hfit := hfits saved hsaved.saveRunning
  have hinside := hvalid.inside run hrunning
  have hfinished := hvalid.finish hinside
  have hsmall := hwithin.smallParts_snoc hn hrunning
  have hne : r.pending ++ [run.part] ≠ [] := by simp
  have hlen : r.done.length + ((r.pending ++ [run.part]).length - 1) = r.numEnded := by
    simp [Recorder.numEnded]
  rcases h.loopFile.append true loopID hne hgroups hfinished.continued
    (hfit.loopTraces (loopID, trace) (by rw [htable]; simp)) hsmall (fun _ => by rwa [hlen]) with
    ⟨loopText, hloopText, hloopFile⟩
  rcases h.callFile.append true hne hsaved.callInfos hfinished.continued
    hfit.callInfos hfit.callTraces hsmall (fun _ => by rw [hlen]; exact hsaved.lastInfo) with
    ⟨callText, hcallText, hcallFile⟩
  rw [Recorder.settled_snoc, Recorder.unsettled_snoc] at hloopFile hcallFile
  let written : PassGlobals := { saved with
    loopCompressedFile := saved.loopCompressedFile ++ loopText
    callCompressedFile := saved.callCompressedFile ++ callText }
  refine ⟨written.clearDumped, ?_, ?_⟩
  · have hrunningSaved : saved.loopRunning = true := by simp [PassGlobals.loopRunning, hstack]
    have hwrite : saved.writeTraces = some written := by
      simp only [PassGlobals.writeTraces, htable, hrunningSaved, hloopText, hcallText, written]
    simp only [PassGlobals.dumpTraces, hsaved.saveRunning, hwrite, Option.map_some]
  · -- the running invocation goes on as a part that has been cut, under its number
    have hnumber : (r.dump run).numEnded = r.numEnded := by
      rw [← Recorder.length_recorded, ← Recorder.length_recorded, Recorder.recorded_dump]
    have hcut : (r.dump run).cut = true := by simp [Recorder.cut, Recorder.dump]
    refine ⟨Or.inr ⟨trace.clearTrace, ?_, ?_, ShareTable.Holds.empty _ _⟩,
      ShareTable.Holds.empty _ _, by simp [Recorder.dump], ?_, ?_, ?_, ?_⟩
    · simp [PassGlobals.clearDumped, written, htable, clearTraces]
    · rw [hnumber]
      exact hnum
    · intro run' hrun
      rcases Option.some.inj hrun with rfl
      rw [hnumber, hcut]
      exact ⟨loop, stack, hstack, hloop, hcalls, rfl⟩
    · have hpool : written.clearDumped.runningLoopPool = globals.runningLoopPool := hsaved.pool
      rw [hpool]
      exact h.pool
    · have hfile : written.clearDumped.loopCompressedFile = globals.loopCompressedFile ++ loopText := by
        simp [PassGlobals.clearDumped, written, hsaved.files.1]
      rw [hfile]
      exact hloopFile
    · have hfile : written.clearDumped.callCompressedFile = globals.callCompressedFile ++ callText := by
        simp [PassGlobals.clearDumped, written, hsaved.files.2]
      rw [hfile]
      exact hcallFile

/-! ### Any call -/

/-- A call that the recorder takes is taken by the tracer. -/
theorem step (h : globals.Follows loopID r) (hvalid : r.Valid) {c : ApiCall} {r' : Recorder}
    (hstep : Recorder.Step loopID r c r') {n : Nat} (hwithin : r.Within n) (hn : n + 1 < 2 ^ 64)
    (hfits : c = .forceLoopTraceDump → ∀ saved, globals.saveRunning = some saved → saved.Fits) :
    ∃ globals', globals.step c = some globals' ∧ globals'.Follows loopID r' := by
  cases hstep with
  | loopStart hrunning => exact h.loopInvocationStart hvalid hrunning
  | loopEnd hrunning hcall => exact h.loopInvocationEnd hvalid hrunning hcall
  | iterationStart hrunning => exact h.loopIterationStart hvalid hrunning
  | seen hrunning hcurrent => exact ⟨_, rfl, h.seenInstruction hrunning hcurrent hwithin hn⟩
  | seenInCall hrunning => exact ⟨_, rfl, h.seenInstruction_call hvalid hrunning hwithin hn⟩
  | callStart hrunning => exact ⟨_, rfl, h.callInvocationStart hvalid hrunning⟩
  | callEnd hrunning => exact h.callInvocationEnd hvalid hrunning
  | dump hrunning => exact h.dumpTraces hvalid hrunning hwithin (by omega) (hfits rfl)

end PassGlobals.Follows

/-! ## Runs of the library -/

namespace LoopTracer

/-- What a dump writes fits, at every dump. -/
def DumpsFit (t : LoopTracer) : List (ApiCall × Bool) → Prop
  | [] => True
  | c :: cs => (c.1 = .forceLoopTraceDump →
      ∀ saved, t.globals.saveRunning = some saved → saved.Fits) ∧
      ∀ t', t.step c.1 c.2 = some t' → DumpsFit t' cs

/-- Everything that is written fits: at every dump, once all that is running has been put into the
traces, and at the end. -/
structure Fits (t : LoopTracer) (cs : List (ApiCall × Bool)) : Prop where
  dumps : t.DumpsFit cs
  shutdown : ∀ t', t.run cs = some t' → t'.globals.Fits

/-- What holds of the value, if there is one. -/
def decidableOfOption {α : Type} (o : Option α) (p : α → Prop) [DecidablePred p] :
    Decidable (∀ a, o = some a → p a) :=
  match o with
  | none => isTrue (by simp)
  | some a => decidable_of_iff (p a) (by simp)

def decidableDumpsFit : ∀ (cs : List (ApiCall × Bool)) (t : LoopTracer), Decidable (t.DumpsFit cs)
  | [], _ => isTrue trivial
  | c :: cs, t =>
      haveI : DecidablePred fun t' : LoopTracer => t'.DumpsFit cs := decidableDumpsFit cs
      haveI := decidableOfOption t.globals.saveRunning PassGlobals.Fits
      haveI := decidableOfOption (t.step c.1 c.2) fun t' => t'.DumpsFit cs
      inferInstanceAs (Decidable ((c.1 = .forceLoopTraceDump →
        ∀ saved, t.globals.saveRunning = some saved → saved.Fits) ∧
          ∀ t', t.step c.1 c.2 = some t' → t'.DumpsFit cs))

instance (t : LoopTracer) (cs : List (ApiCall × Bool)) : Decidable (t.Fits cs) :=
  haveI := decidableDumpsFit cs t
  haveI := decidableOfOption (t.run cs) fun t' => t'.globals.Fits
  decidable_of_iff (t.DumpsFit cs ∧ ∀ t', t.run cs = some t' → t'.globals.Fits)
    ⟨fun h => ⟨h.1, h.2⟩, fun h => ⟨h.dumps, h.shutdown⟩⟩

/-- A sequence of calls before the timeout. -/
def inTime (cs : List ApiCall) : List (ApiCall × Bool) :=
  cs.map fun c => (c, false)

/-- The library, not timed out, keeps and has written what the recorder keeps. -/
structure Follows (t : LoopTracer) (loopID : UInt64) (r : Recorder) : Prop where
  globals : t.globals.Follows loopID r
  timedOut : t.timeoutCounter.timedOut = false
  used : t.timeoutCounter.numOperations = 0 ↔ r = Recorder.new

variable {t : LoopTracer} {loopID : UInt64} {r r' : Recorder}

theorem follows_init (loopID : UInt64) : init.Follows loopID Recorder.new where
  globals := PassGlobals.Follows.new loopID
  timedOut := rfl
  used := ⟨fun _ => rfl, fun _ => rfl⟩

/-- Before the timeout every call that the recorder takes is an operation, or a dump inside an
invocation. -/
theorem Follows.step (h : t.Follows loopID r) (hvalid : r.Valid) {c : ApiCall}
    (hstep : Recorder.Step loopID r c r') {n : Nat} (hwithin : r.Within n) (hn : n + 1 < 2 ^ 64)
    (hfits : c = .forceLoopTraceDump → ∀ saved, t.globals.saveRunning = some saved → saved.Fits) :
    ∃ t', t.step c false = some t' ∧ t'.Follows loopID r' := by
  rcases h.globals.step hvalid hstep hwithin hn hfits with ⟨globals', hglobals, hfollows⟩
  have hcount : t.globals.isOperation c = false → t.timeoutCounter.numOperations ≠ 0 := by
    intro hoperation hzero
    have hnew := h.used.1 hzero
    subst hnew
    cases hstep <;> simp_all [PassGlobals.isOperation, Recorder.new]
  by_cases hoperation : t.globals.isOperation c = true
  · refine ⟨{ globals := globals', timeoutCounter := {
      timedOut := false, numOperations := t.timeoutCounter.numOperations + 1 } }, ?_, hfollows, rfl, ?_⟩
    · simp [LoopTracer.step, hoperation, TimeoutCounter.recordOperation, h.timedOut, hglobals]
    · simpa using hstep.ne_new
  · refine ⟨{ t with globals := globals' }, ?_, hfollows, h.timedOut, ?_⟩
    · simp [LoopTracer.step, hoperation, hglobals]
    · have hne := hcount (by simpa using hoperation)
      simpa [hne] using hstep.ne_new

/-- So is a sequence of calls. -/
theorem Follows.run {cs : List ApiCall} (hrun : Recorder.Run loopID r cs r') :
    ∀ {t : LoopTracer} {n : Nat}, t.Follows loopID r → r.Valid → r.Within n →
      n + cs.length < 2 ^ 64 → t.DumpsFit (inTime cs) →
      ∃ t', t.run (inTime cs) = some t' ∧ t'.Follows loopID r' ∧ r'.Valid ∧
        r'.Within (n + cs.length) := by
  induction hrun with
  | nil =>
      intro t n h hvalid hwithin _ _
      exact ⟨t, rfl, h, hvalid, hwithin⟩
  | @cons r r₁ r' c cs hstep _ ih =>
      intro t n h hvalid hwithin hn hfits
      rw [List.length_cons] at hn
      rcases h.step hvalid hstep hwithin (by omega) hfits.1 with ⟨t₁, ht₁, hfollows⟩
      rcases ih hfollows (hvalid.step hstep) (hwithin.step hstep) (by omega) (hfits.2 t₁ ht₁) with
        ⟨t', ht', hfollows', hvalid', hwithin'⟩
      refine ⟨t', ?_, hfollows', hvalid', ?_⟩
      · have hcons : inTime (c :: cs) = (c, false) :: inTime cs := rfl
        simp only [hcons, LoopTracer.run, ht₁, ht']
      · rw [List.length_cons]
        have hsum : n + (cs.length + 1) = n + 1 + cs.length := by omega
        rwa [hsum]

/-- The library has never been used. -/
theorem Follows.shutdown_new (h : t.Follows loopID Recorder.new) : t.shutdown = some none := by
  have hzero := h.used.2 rfl
  simp [shutdown, hzero]

/-- `loop_trace_shutdown` writes what is left. -/
theorem Follows.shutdown (h : t.Follows loopID r) (hvalid : r.Valid) {n : Nat}
    (hwithin : r.Within n) (hn : n < 2 ^ 64) (hrunning : r.running = none) (hne : r ≠ Recorder.new)
    (hfits : t.globals.Fits) :
    ∃ files, t.shutdown = some (some files) ∧ LoopFileFollows files.loopTrace r.recorded none ∧
      CallFileFollows files.callTrace r.recorded none := by
  rcases h.globals.loopTraces with ⟨-, hnew⟩ | ⟨trace, htable, htrace⟩
  · exact absurd hnew hne
  have hstack := (h.globals.idle hrunning).1
  have hpending := hvalid.pending_ne_nil hrunning hne
  have hsmall := hwithin.smallParts hn
  rcases h.globals.loopFile.append false loopID hpending htrace.groups
    hvalid.continued (hfits.loopTraces (loopID, trace) (by rw [htable]; simp)) hsmall (by simp) with
    ⟨loopText, hloopText, hloopFile⟩
  rcases h.globals.callFile.append false hpending h.globals.callInfos
    hvalid.continued hfits.callInfos hfits.callTraces hsmall (by simp) with
    ⟨callText, hcallText, hcallFile⟩
  have hpos : 0 < t.timeoutCounter.numOperations := by
    have hzero : t.timeoutCounter.numOperations ≠ 0 := fun hzero => hne (h.used.1 hzero)
    omega
  have hloopRunning : t.globals.loopRunning = false := by simp [PassGlobals.loopRunning, hstack]
  have hwrite : t.globals.writeTraces = some { t.globals with
      loopCompressedFile := t.globals.loopCompressedFile ++ loopText
      callCompressedFile := t.globals.callCompressedFile ++ callText } := by
    simp only [PassGlobals.writeTraces, htable, hloopRunning, hloopText, hcallText]
  refine ⟨{
    loopTrace := t.globals.loopCompressedFile ++ loopText
    callTrace := t.globals.callCompressedFile ++ callText }, ?_, hloopFile, hcallFile⟩
  simp [LoopTracer.shutdown, hpos, hwrite, PassGlobals.loopRunning, hstack]

end LoopTracer

namespace LoopTracer

/-- `loop_trace_init`, a sequence of calls and `loop_trace_shutdown`. -/
def record (cs : List (ApiCall × Bool)) : Option (Option Files) :=
  match init.run cs with
  | none => none
  | some t => t.shutdown

/-- An execution whose writes fit is recorded in two files, which say what it does. -/
theorem record_execution (loopID : UInt64) (invs : List LoopInvocation)
    (hlen : (executionCalls loopID invs).length < 2 ^ 64)
    (hfits : init.Fits (inTime (executionCalls loopID invs))) :
    (invs = [] ∧ record (inTime (executionCalls loopID invs)) = some none) ∨
    ∃ files, record (inTime (executionCalls loopID invs)) = some (some files) ∧
      LoopFileFollows files.loopTrace (invs.map LoopInvocation.recorded) none ∧
      CallFileFollows files.callTrace (invs.map LoopInvocation.recorded) none := by
  rcases Recorder.run_invocations invs Recorder.Valid.new rfl with
    ⟨r, hrun, -, hrunning, hrecorded⟩
  have hrecorded' : r.recorded = invs.map LoopInvocation.recorded := by
    rw [hrecorded]
    rfl
  rcases Follows.run hrun (follows_init loopID) Recorder.Valid.new Recorder.Within.new (by omega)
    hfits.dumps with ⟨t, ht, hfollows, hvalid, hwithin⟩
  have hfit := hfits.shutdown t ht
  by_cases hnew : r = Recorder.new
  · subst hnew
    have hnil : invs = [] := by simpa [Recorder.recorded, Recorder.new, Recorder.resume] using hrecorded'
    exact Or.inl ⟨hnil, by simp only [record, ht, hfollows.shutdown_new]⟩
  · rcases hfollows.shutdown hvalid hwithin (by omega) hrunning hnew hfit with
      ⟨files, hshutdown, hloop, hcall⟩
    rw [hrecorded'] at hloop hcall
    exact Or.inr ⟨files, by simp only [record, ht, hshutdown], hloop, hcall⟩

end LoopTracer

/-! ## Reading the loop trace -/

theorem LoopFileFollows.lines {file : List Char} {done : List Invocation} {last : Option Invocation}
    (h : LoopFileFollows file done last) : Lines file := by
  rcases h with ⟨chunks, -, hprints, -⟩
  exact hprints.lines

theorem CallFileFollows.lines {file : List Char} {done : List Invocation} {last : Option Invocation}
    (h : CallFileFollows file done last) : Lines file := by
  rcases h with ⟨chunks, -, hprints, -⟩
  exact hprints.lines

/-- The loop trace is read as the iterations of all invocations, in whatever reads it comes. -/
theorem LoopFileFollows.exists_entries {file : List Char} {done : List Invocation}
    (h : LoopFileFollows file done none) :
    ∃ es, (∀ reads, Delivered file reads →
        LoopTraceStreamer.entryStream.Serves (LoopTraceStreamer.ofFile reads) es) ∧
      Groups LoopTraceEntry.Stands 0 (done.map Invocation.iterations) (loopPieces.tag es) ∧
      FirstSeen 0 (fun _ => False) (loopPieces.tag es) := by
  rcases h with ⟨chunks, hvalid, hprints, es, o, hjoin, hgroups, hseen, hincomplete⟩
  cases o with
  | some o => exact absurd hincomplete id
  | none =>
      exact ⟨es, fun reads hreads =>
        LoopTraceStreamer.serves_ofFile hvalid ⟨file, hprints, hreads⟩ hjoin, hgroups, hseen⟩

end CamAlias
