import CamAlias.Tracer.Recorder

/-!
# Execution — what an instrumented loop does

A `LoopInvocation` is one run of the loop with the dumps taken while it runs: its iterations, the
instructions seen in them, and the calls made in them.  `apiCalls` are the calls of the interface it
makes, `recorded` what it is to be recorded as; `Recorder.run_invocations` says that the recorder
records it as that.
-/

namespace CamAlias

/-! ## Executions -/

/-- What happens inside a call. -/
inductive CallEvent
  | seen (instID : UInt64)
  | dump
  deriving DecidableEq, Repr

/-- What happens in an iteration. -/
inductive IterationEvent
  | seen (instID : UInt64)
  | dump
  | call (callID : UInt64) (body : List CallEvent)
  deriving DecidableEq, Repr

/-- One invocation of the loop.  `dumps` is the number of dumps before its first iteration. -/
structure LoopInvocation where
  dumps : Nat
  iterations : List (List IterationEvent)
  deriving DecidableEq, Repr

namespace CallEvent

def apiCall : CallEvent → ApiCall
  | seen instID => .seenInstruction instID
  | dump => .forceLoopTraceDump

/-- The instruction that is seen, if any. -/
def symbols : CallEvent → List UInt64
  | seen instID => [instID]
  | dump => []

end CallEvent

namespace IterationEvent

/-- A call is announced by its ID. -/
def apiCalls : IterationEvent → List ApiCall
  | seen instID => [.seenInstruction instID]
  | dump => [.forceLoopTraceDump]
  | call callID body =>
      .seenInstruction callID :: .callInvocationStart callID :: (body.map CallEvent.apiCall
        ++ [.callInvocationEnd])

/-- The instructions that are seen in the iteration itself. -/
def symbols : IterationEvent → List UInt64
  | seen instID => [instID]
  | dump => []
  | call callID _ => [callID]

/-- What is seen in the calls with the ID `id`. -/
def instances (id : UInt64) : IterationEvent → List (List UInt64)
  | call callID body => if id = callID then [body.flatMap CallEvent.symbols] else []
  | _ => []

end IterationEvent

namespace LoopInvocation

def apiCalls (loopID : UInt64) (inv : LoopInvocation) : List ApiCall :=
  .loopInvocationStart loopID :: (List.replicate inv.dumps .forceLoopTraceDump
    ++ (inv.iterations.flatMap fun it => .loopIterationStart :: it.flatMap IterationEvent.apiCalls)
    ++ [.loopInvocationEnd])

/-- What is seen in each iteration. -/
def iterationSymbols (inv : LoopInvocation) : List (List UInt64) :=
  inv.iterations.map fun it => it.flatMap IterationEvent.symbols

/-- What is seen in each instance of a call. -/
def instances (inv : LoopInvocation) (id : UInt64) : List (List UInt64) :=
  inv.iterations.flatMap fun it => it.flatMap (IterationEvent.instances id)

/-- What is to be recorded. -/
def recorded (inv : LoopInvocation) : Invocation where
  iterations := inv.iterationSymbols
  calls := inv.instances

end LoopInvocation

/-- The calls of an execution: one invocation after the other. -/
def executionCalls (loopID : UInt64) (invs : List LoopInvocation) : List ApiCall :=
  invs.flatMap (LoopInvocation.apiCalls loopID)

/-! ## Recording an execution -/

namespace Recorder

variable {loopID : UInt64} {r : Recorder} {before : List Invocation} {inv : Invocation}
  {call : Option UInt64}

/-- The recorder is in the invocation `inv`, behind the invocations `before`. -/
structure At (r : Recorder) (before : List Invocation) (inv : Invocation) (call : Option UInt64) :
    Prop where
  valid : r.Valid
  recorded : r.recorded = before
  running : ∃ run, r.running = some run ∧ run.call = call ∧ r.invocation run = inv

theorem Valid.start (h : r.Valid) (hrunning : r.running = none) :
    ∃ r', Step loopID r (.loopInvocationStart loopID) r' ∧
      r'.At r.recorded Invocation.empty none :=
  have hstep : Step loopID r (.loopInvocationStart loopID) _ := Step.loopStart hrunning
  ⟨_, hstep, h.step hstep, rfl, _, rfl, rfl, (Inside.new (h.resumed hrunning)).2⟩

namespace At

theorem dump (h : r.At before inv call) :
    ∃ r', Step loopID r .forceLoopTraceDump r' ∧ r'.At before inv call := by
  rcases h.running with ⟨run, hrunning, hcall, hinv⟩
  have hstep : Step loopID r .forceLoopTraceDump _ := Step.dump hrunning
  refine ⟨_, hstep, h.valid.step hstep, ?_, _, rfl, hcall, ?_⟩
  · rw [recorded_dump, h.recorded]
  · rw [(h.valid.inside run hrunning).dump.2, hinv]

theorem iterationStart (h : r.At before inv none) :
    ∃ r', Step loopID r .loopIterationStart r' ∧
      r'.At before { inv with iterations := inv.iterations ++ [[]] } none := by
  rcases h.running with ⟨⟨iterations, calls, call⟩, hrunning, hcall, hinv⟩
  simp only at hcall
  subst hcall
  have hinside := h.valid.inside _ hrunning
  have hstep : Step loopID r .loopIterationStart _ := Step.iterationStart hrunning
  refine ⟨_, hstep, h.valid.step hstep, h.recorded, _, rfl, rfl, ?_⟩
  rw [← hinv]
  ext1
  · exact Progress.join_next hinside.iterations
  · rfl

/-- An instruction is seen in the last iteration. -/
theorem seen {its : List (List UInt64)} {x : List UInt64} {calls : UInt64 → List (List UInt64)}
    (h : r.At before { iterations := its ++ [x], calls } none) (instID : UInt64) :
    ∃ r', Step loopID r (.seenInstruction instID) r' ∧
      r'.At before { iterations := its ++ [x ++ [instID]], calls } none := by
  rcases h.running with ⟨⟨iterations, progress, call⟩, hrunning, hcall, hinv⟩
  simp only at hcall
  subst hcall
  have hinside := h.valid.inside _ hrunning
  have hiterations : iterations.part.join r.begun.iterations = its ++ [x] :=
    congrArg Invocation.iterations hinv
  have hcalls := congrArg Invocation.calls hinv
  have hcurrent : iterations.current ≠ none := by
    intro hnone
    rcases hinside.started hnone with ⟨hnew, hempty⟩
    simp only at hnew
    rw [hnew, hempty] at hiterations
    simp at hiterations
  rcases Option.ne_none_iff_exists'.1 hcurrent with ⟨y, hy⟩
  rcases Progress.exists_join hinside.iterations hy with ⟨ys, z, hjoin, hrecord⟩
  have hsplit : ys = its ∧ z = x := by
    have heq : ys ++ [z] = its ++ [x] := hjoin.symm.trans hiterations
    simpa using List.append_inj' heq rfl
  rcases hsplit with ⟨rfl, rfl⟩
  have hstep : Step loopID r (.seenInstruction instID) _ := Step.seen hrunning (by simp [hy])
  refine ⟨_, hstep, h.valid.step hstep, h.recorded, _, rfl, rfl, ?_⟩
  ext1
  · exact hrecord instID
  · exact hcalls

/-- A call begins. -/
theorem callStart (h : r.At before inv none) (id : UInt64) :
    ∃ r', Step loopID r (.callInvocationStart id) r' ∧
      r'.At before { inv with calls := Function.update inv.calls id (inv.calls id ++ [[]]) }
        (some id) := by
  rcases h.running with ⟨⟨iterations, calls, call⟩, hrunning, hcall, hinv⟩
  simp only at hcall
  subst hcall
  have hinside := h.valid.inside _ hrunning
  have hstep : Step loopID r (.callInvocationStart id) _ := Step.callStart hrunning
  refine ⟨_, hstep, h.valid.step hstep, h.recorded, _, rfl, rfl, ?_⟩
  have hinvocation := invocation_update r iterations calls none id (calls id).next (some id)
  rw [hinv, Progress.join_next (hinside.calls id)] at hinvocation
  rw [← hinv] at hinvocation ⊢
  exact hinvocation

/-- An instruction is seen in the running call. -/
theorem seenInCall {id : UInt64} {xs : List (List UInt64)} {x : List UInt64}
    (h : r.At before { inv with calls := Function.update inv.calls id (xs ++ [x]) } (some id))
    (instID : UInt64) :
    ∃ r', Step loopID r (.seenInstruction instID) r' ∧
      r'.At before { inv with calls := Function.update inv.calls id (xs ++ [x ++ [instID]]) }
        (some id) := by
  rcases h.running with ⟨⟨iterations, calls, call⟩, hrunning, hcall, hinv⟩
  simp only at hcall
  subst hcall
  have hinside := h.valid.inside _ hrunning
  have hcalls : (calls id).part.join (r.begun.calls id) = xs ++ [x] := by
    have := congrFun (congrArg Invocation.calls hinv) id
    simpa [invocation, Invocation.join, RunningInvocation.part] using this
  rcases Option.isSome_iff_exists.1 ((hinside.call_iff id).2 rfl) with ⟨y, hy⟩
  rcases Progress.exists_join (hinside.calls id) hy with ⟨ys, z, hjoin, hrecord⟩
  have hsplit : ys = xs ∧ z = x := by
    have heq : ys ++ [z] = xs ++ [x] := hjoin.symm.trans hcalls
    simpa using List.append_inj' heq rfl
  rcases hsplit with ⟨rfl, rfl⟩
  have hstep : Step loopID r (.seenInstruction instID) _ := Step.seenInCall hrunning
  refine ⟨_, hstep, h.valid.step hstep, h.recorded, _, rfl, rfl, ?_⟩
  have hinvocation := invocation_update r iterations calls (some id) id ((calls id).record instID)
    (some id)
  rw [hinv, hrecord instID, Function.update_idem] at hinvocation
  exact hinvocation

/-- A call ends. -/
theorem callEnd {id : UInt64} (h : r.At before inv (some id)) :
    ∃ r', Step loopID r .callInvocationEnd r' ∧ r'.At before inv none := by
  rcases h.running with ⟨⟨iterations, calls, call⟩, hrunning, hcall, hinv⟩
  simp only at hcall
  subst hcall
  have hstep : Step loopID r .callInvocationEnd _ := Step.callEnd hrunning
  refine ⟨_, hstep, h.valid.step hstep, h.recorded, _, rfl, rfl, ?_⟩
  have hinvocation := invocation_update r iterations calls (some id) id (calls id).finish none
  have hsame : (calls id).part.join (r.begun.calls id) = inv.calls id := by
    rw [← hinv]
    rfl
  rw [hinv, Progress.part_finish, hsame, Function.update_eq_self] at hinvocation
  exact hinvocation

/-- The invocation ends. -/
theorem finish (h : r.At before inv none) :
    ∃ r', Step loopID r .loopInvocationEnd r' ∧ r'.Valid ∧ r'.running = none ∧
      r'.recorded = before ++ [inv] := by
  rcases h.running with ⟨run, hrunning, hcall, hinv⟩
  have hstep : Step loopID r .loopInvocationEnd _ := Step.loopEnd hrunning hcall
  refine ⟨_, hstep, h.valid.step hstep, rfl, ?_⟩
  rw [recorded_finish, h.recorded, hinv]

/-! ### Sequences of calls -/

/-- Several dumps. -/
theorem dumps (n : Nat) : ∀ {r : Recorder}, r.At before inv call →
    ∃ r', Run loopID r (List.replicate n .forceLoopTraceDump) r' ∧ r'.At before inv call := by
  induction n with
  | zero => exact fun h => ⟨_, Run.nil, h⟩
  | succ n ih =>
      intro r h
      rcases h.dump with ⟨r₁, hstep, h₁⟩
      rcases ih h₁ with ⟨r', hrun, h'⟩
      exact ⟨r', Run.cons hstep hrun, h'⟩

/-- The body of a call. -/
theorem callBody {id : UInt64} {xs : List (List UInt64)} (body : List CallEvent) :
    ∀ {r : Recorder} {x : List UInt64},
      r.At before { inv with calls := Function.update inv.calls id (xs ++ [x]) } (some id) →
      ∃ r', Run loopID r (body.map CallEvent.apiCall) r' ∧
        r'.At before ⟨inv.iterations,
          Function.update inv.calls id (xs ++ [x ++ body.flatMap CallEvent.symbols])⟩ (some id) := by
  induction body with
  | nil =>
      intro r x h
      exact ⟨r, Run.nil, by simpa using h⟩
  | cons e body ih =>
      intro r x h
      cases e with
      | seen instID =>
          rcases h.seenInCall instID with ⟨r₁, hstep, h₁⟩
          rcases ih h₁ with ⟨r', hrun, h'⟩
          exact ⟨r', Run.cons hstep hrun, by simpa [CallEvent.symbols] using h'⟩
      | dump =>
          rcases h.dump with ⟨r₁, hstep, h₁⟩
          rcases ih h₁ with ⟨r', hrun, h'⟩
          exact ⟨r', Run.cons hstep hrun, by simpa [CallEvent.symbols] using h'⟩

/-- The events of an iteration. -/
theorem events (es : List IterationEvent) :
    ∀ {r : Recorder} {its : List (List UInt64)} {x : List UInt64}
      {calls : UInt64 → List (List UInt64)},
      r.At before { iterations := its ++ [x], calls } none →
      ∃ r', Run loopID r (es.flatMap IterationEvent.apiCalls) r' ∧
        r'.At before ⟨its ++ [x ++ es.flatMap IterationEvent.symbols],
          fun id => calls id ++ es.flatMap (IterationEvent.instances id)⟩ none := by
  induction es with
  | nil =>
      intro r its x calls h
      exact ⟨r, Run.nil, by simpa using h⟩
  | cons e es ih =>
      intro r its x calls h
      cases e with
      | seen instID =>
          rcases h.seen instID with ⟨r₁, hstep, h₁⟩
          rcases ih h₁ with ⟨r', hrun, h'⟩
          refine ⟨r', Run.cons hstep hrun, ?_⟩
          simpa [IterationEvent.symbols, IterationEvent.instances] using h'
      | dump =>
          rcases h.dump with ⟨r₁, hstep, h₁⟩
          rcases ih h₁ with ⟨r', hrun, h'⟩
          refine ⟨r', Run.cons hstep hrun, ?_⟩
          simpa [IterationEvent.symbols, IterationEvent.instances] using h'
      | call callID body =>
          rcases h.seen callID with ⟨r₁, hseen, h₁⟩
          rcases h₁.callStart callID with ⟨r₂, hstart, h₂⟩
          rcases callBody body h₂ with ⟨r₃, hbody, h₃⟩
          rcases h₃.callEnd with ⟨r₄, hend, h₄⟩
          rcases ih h₄ with ⟨r', hrun, h'⟩
          have hcalls : Run loopID r ((IterationEvent.call callID body).apiCalls) r₄ :=
            Run.cons hseen (Run.cons hstart (hbody.append (Run.cons hend Run.nil)))
          refine ⟨r', hcalls.append hrun, ?_⟩
          convert h' using 2
          · simp [IterationEvent.symbols]
          · funext id
            by_cases heq : id = callID
            · subst heq
              simp [IterationEvent.instances]
            · simp [IterationEvent.instances, heq]

/-- The iterations of an invocation. -/
theorem iterations (its : List (List IterationEvent)) :
    ∀ {r : Recorder} {inv : Invocation}, r.At before inv none →
      ∃ r', Run loopID r
          (its.flatMap fun it => .loopIterationStart :: it.flatMap IterationEvent.apiCalls) r' ∧
        r'.At before ⟨inv.iterations ++ its.map fun it => it.flatMap IterationEvent.symbols,
          fun id => inv.calls id
            ++ its.flatMap fun it => it.flatMap (IterationEvent.instances id)⟩ none := by
  induction its with
  | nil =>
      intro r inv h
      exact ⟨r, Run.nil, by simpa using h⟩
  | cons it its ih =>
      intro r inv h
      rcases h.iterationStart with ⟨r₁, hstep, h₁⟩
      rcases events it h₁ with ⟨r₂, hevents, h₂⟩
      rcases ih h₂ with ⟨r', hrun, h'⟩
      refine ⟨r', Run.cons hstep (hevents.append hrun), ?_⟩
      simpa using h'

end At

/-- One invocation. -/
theorem run_invocation (h : r.Valid) (hrunning : r.running = none) (inv : LoopInvocation) :
    ∃ r', Run loopID r (inv.apiCalls loopID) r' ∧ r'.Valid ∧ r'.running = none ∧
      r'.recorded = r.recorded ++ [inv.recorded] := by
  rcases h.start hrunning with ⟨r₁, hstart, h₁⟩
  rcases At.dumps inv.dumps h₁ with ⟨r₂, hdumps, h₂⟩
  rcases At.iterations inv.iterations h₂ with ⟨r₃, hiterations, h₃⟩
  rcases h₃.finish with ⟨r', hend, hvalid, hrunning', hrecorded⟩
  refine ⟨r', Run.cons hstart ((hdumps.append hiterations).append (Run.cons hend Run.nil)), hvalid,
    hrunning', ?_⟩
  rw [hrecorded]
  simp only [Invocation.empty, List.nil_append]
  rfl

/-- An execution is recorded as what it does. -/
theorem run_invocations (invs : List LoopInvocation) :
    ∀ {r : Recorder}, r.Valid → r.running = none →
      ∃ r', Run loopID r (executionCalls loopID invs) r' ∧ r'.Valid ∧
        r'.running = none ∧ r'.recorded = r.recorded ++ invs.map LoopInvocation.recorded := by
  induction invs with
  | nil =>
      intro r h hrunning
      exact ⟨r, Run.nil, h, hrunning, by simp⟩
  | cons inv invs ih =>
      intro r h hrunning
      rcases run_invocation h hrunning inv with ⟨r₁, hrun, h₁, hrunning₁, hrecorded⟩
      rcases ih h₁ hrunning₁ with ⟨r', hrun', h', hrunning', hrecorded'⟩
      refine ⟨r', hrun.append hrun', h', hrunning', ?_⟩
      rw [hrecorded', hrecorded]
      simp

end Recorder
end CamAlias
