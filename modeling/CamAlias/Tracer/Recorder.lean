import CamAlias.Tracer.Api
import CamAlias.Tracer.Progress
import Mathlib.Logic.Function.Basic

/-!
# Recorder — what the tracer is for, without files, groups or compression

A `Recorder` keeps the invocations of one loop as lists: the symbols of each iteration, and the
symbols of each instance of every call.  It has the interface of the tracer, and knows where dumps
have cut the invocations into parts.

`recorded` and `invocation` put the parts together again.  The step lemmas say that a dump changes
nothing in them, and that every other call adds what it says.
-/

namespace CamAlias

/-! ## Invocations -/

/-- An invocation of the loop: what each iteration and each instance of a call has seen. -/
@[ext] structure Invocation where
  iterations : List (List UInt64)
  calls : UInt64 → List (List UInt64)

/-- A part of an invocation. -/
structure InvocationPart where
  iterations : Part
  calls : UInt64 → Part

namespace Invocation

def empty : Invocation where
  iterations := []
  calls := fun _ => []

/-- The invocation with its next part. -/
def join (inv : Invocation) (p : InvocationPart) : Invocation where
  iterations := p.iterations.join inv.iterations
  calls := fun id => (p.calls id).join (inv.calls id)

/-- The part continues the invocation.  Where an iteration has begun, one goes on. -/
structure ContinuedBy (inv : Invocation) (p : InvocationPart) : Prop where
  iterations : p.iterations.Continues inv.iterations
  calls : ∀ id, (p.calls id).Continues (inv.calls id)
  goesOn : inv.iterations ≠ [] → p.iterations.values ≠ []

/-- A part that follows nothing begins with the invocation. -/
theorem ContinuedBy.first_eq_zero {p : InvocationPart} (h : empty.ContinuedBy p) :
    p.iterations.first = 0 ∧ ∀ id, (p.calls id).first = 0 := by
  have hzero : ∀ q : Part, q.Continues [] → q.first = 0 := by
    rintro q (⟨hlen, -⟩ | hlen)
    · simp at hlen
    · exact hlen
  exact ⟨hzero _ h.iterations, fun id => hzero _ (h.calls id)⟩

end Invocation

/-- The invocation that is running: its iterations, its calls, and the call that is running. -/
structure RunningInvocation where
  iterations : Progress
  calls : UInt64 → Progress
  call : Option UInt64

namespace RunningInvocation

def new : RunningInvocation where
  iterations := Progress.new
  calls := fun _ => Progress.new
  call := none

def part (run : RunningInvocation) : InvocationPart where
  iterations := run.iterations.part
  calls := fun id => (run.calls id).part

def restart (run : RunningInvocation) : RunningInvocation where
  iterations := run.iterations.restart
  calls := fun id => (run.calls id).restart
  call := run.call

end RunningInvocation

/-! ## The recorder -/

/-- `done` invocations have been written as a whole, and `resumed` up to a dump inside it.  The
parts `pending` have been finished since; the first of them belongs to `resumed`. -/
structure Recorder where
  done : List Invocation
  resumed : Option Invocation
  pending : List InvocationPart
  running : Option RunningInvocation

namespace Recorder

def new : Recorder where
  done := []
  resumed := none
  pending := []
  running := none

/-- The parts put together with what has been written. -/
def resume : Option Invocation → List InvocationPart → List Invocation
  | _, [] => []
  | x, p :: ps => (x.getD Invocation.empty).join p :: ps.map Invocation.empty.join

/-- The invocations that have ended. -/
def recorded (r : Recorder) : List Invocation :=
  r.done ++ resume r.resumed r.pending

/-- What has been written of the running invocation. -/
def begun (r : Recorder) : Invocation :=
  match r.pending with
  | [] => r.resumed.getD Invocation.empty
  | _ :: _ => Invocation.empty

/-- The running invocation. -/
def invocation (r : Recorder) (run : RunningInvocation) : Invocation :=
  r.begun.join run.part

/-- A dump writes all parts.  The running invocation goes on with a part of its own. -/
def dump (r : Recorder) (run : RunningInvocation) : Recorder where
  done := r.recorded
  resumed := some (r.invocation run)
  pending := []
  running := some run.restart

/-- One call, where it keeps to the form: an invocation consists of iterations, an instruction is
seen in an iteration or in a call, calls are not nested, and dumps are taken inside invocations. -/
inductive Step (loopID : UInt64) : Recorder → ApiCall → Recorder → Prop
  | loopStart {r : Recorder} (hrunning : r.running = none) :
      Step loopID r (.loopInvocationStart loopID)
        { r with running := some RunningInvocation.new }
  | loopEnd {r : Recorder} {run : RunningInvocation} (hrunning : r.running = some run)
      (hcall : run.call = none) :
      Step loopID r .loopInvocationEnd
        { r with pending := r.pending ++ [run.part], running := none }
  | iterationStart {r : Recorder} {iterations : Progress} {calls : UInt64 → Progress}
      (hrunning : r.running = some { iterations, calls, call := none }) :
      Step loopID r .loopIterationStart
        { r with running := some { iterations := iterations.next, calls, call := none } }
  | seen {r : Recorder} {iterations : Progress} {calls : UInt64 → Progress} {instID : UInt64}
      (hrunning : r.running = some { iterations, calls, call := none })
      (hcurrent : iterations.current.isSome) :
      Step loopID r (.seenInstruction instID)
        { r with running := some { iterations := iterations.record instID, calls, call := none } }
  | seenInCall {r : Recorder} {iterations : Progress} {calls : UInt64 → Progress}
      {id instID : UInt64} (hrunning : r.running = some { iterations, calls, call := some id }) :
      Step loopID r (.seenInstruction instID)
        { r with running := some {
            iterations
            calls := Function.update calls id ((calls id).record instID)
            call := some id } }
  | callStart {r : Recorder} {iterations : Progress} {calls : UInt64 → Progress} {id : UInt64}
      (hrunning : r.running = some { iterations, calls, call := none }) :
      Step loopID r (.callInvocationStart id)
        { r with running := some {
            iterations
            calls := Function.update calls id (calls id).next
            call := some id } }
  | callEnd {r : Recorder} {iterations : Progress} {calls : UInt64 → Progress} {id : UInt64}
      (hrunning : r.running = some { iterations, calls, call := some id }) :
      Step loopID r .callInvocationEnd
        { r with running := some {
            iterations
            calls := Function.update calls id (calls id).finish
            call := none } }
  | dump {r : Recorder} {run : RunningInvocation} (hrunning : r.running = some run) :
      Step loopID r .forceLoopTraceDump (r.dump run)

/-- A sequence of calls. -/
inductive Run (loopID : UInt64) : Recorder → List ApiCall → Recorder → Prop
  | nil {r : Recorder} : Run loopID r [] r
  | cons {r r' r'' : Recorder} {c : ApiCall} {cs : List ApiCall} (hstep : Step loopID r c r')
      (hrest : Run loopID r' cs r'') : Run loopID r (c :: cs) r''

theorem Run.append {loopID : UInt64} {r r' r'' : Recorder} {cs cs' : List ApiCall}
    (h : Run loopID r cs r') (h' : Run loopID r' cs' r'') : Run loopID r (cs ++ cs') r'' := by
  induction h with
  | nil => exact h'
  | cons hstep _ ih => exact Run.cons hstep (ih h')

/-! ### What holds in every state -/

/-- The recorder is inside the invocation `run`. -/
structure Inside (r : Recorder) (run : RunningInvocation) : Prop where
  running : r.running = some run
  iterations : run.iterations.Follows r.begun.iterations
  calls : ∀ id, (run.calls id).Follows (r.begun.calls id)
  started : run.iterations.current = none → run.iterations = Progress.new ∧
    r.begun.iterations = []
  call_iff : ∀ id, (run.calls id).current.isSome ↔ run.call = some id

/-- All parts continue what has been written. -/
structure Valid (r : Recorder) : Prop where
  inside : ∀ run, r.running = some run → r.Inside run
  done : r.resumed = none → r.done = []
  resumed : r.running = none → r.resumed.isSome → r.pending ≠ []
  continued : ∀ x p, r.resumed = some x → r.pending.head? = some p → x.ContinuedBy p
  uncut : ∀ p ∈ r.pending.drop (if r.resumed.isSome then 1 else 0),
    p.iterations.first = 0 ∧ ∀ id, (p.calls id).first = 0

/-- The same where dumps may be taken between two invocations. -/
structure Sound (r : Recorder) : Prop where
  inside : ∀ run, r.running = some run → r.Inside run
  resumed : r.running = none → r.resumed.isSome → r.pending ≠ []
  continued : ∀ x p, r.resumed = some x → r.pending.head? = some p → x.ContinuedBy p
  uncut : ∀ p ∈ r.pending.drop (if r.resumed.isSome then 1 else 0),
    p.iterations.first = 0 ∧ ∀ id, (p.calls id).first = 0

variable {loopID : UInt64} {r r' : Recorder} {run : RunningInvocation}

@[simp] theorem begun_withRunning (r : Recorder) (running : Option RunningInvocation) :
    begun { r with running } = r.begun := rfl

theorem length_resume (x : Option Invocation) (ps : List InvocationPart) :
    (resume x ps).length = ps.length := by
  cases ps <;> simp [resume]

theorem resume_snoc (r : Recorder) (p : InvocationPart) :
    resume r.resumed (r.pending ++ [p]) = resume r.resumed r.pending ++ [r.begun.join p] := by
  cases h : r.pending with
  | nil => simp [resume, begun, h]
  | cons q qs => simp [resume, begun, h]

@[simp] theorem recorded_dump (r : Recorder) (run : RunningInvocation) :
    (r.dump run).recorded = r.recorded := by
  simp [dump, recorded, resume]

/-- The invocation ends. -/
theorem recorded_finish (r : Recorder) (run : RunningInvocation) :
    recorded { r with pending := r.pending ++ [run.part], running := none }
      = r.recorded ++ [r.invocation run] := by
  simp only [recorded, resume_snoc, invocation, List.append_assoc]

namespace Inside

/-- The running invocation continues what has been written of it. -/
theorem continuedBy (h : r.Inside run) : r.begun.ContinuedBy run.part := by
  refine ⟨h.iterations, h.calls, ?_⟩
  intro hne
  cases hcurrent : run.iterations.current with
  | none => exact absurd (h.started hcurrent).2 hne
  | some x => simp [RunningInvocation.part, Progress.part, hcurrent]

/-- Where no dump has cut the invocation, its part begins with it. -/
theorem uncut (h : r.Inside run) (huncut : r.resumed.isSome = true → r.pending ≠ []) :
    run.part.iterations.first = 0 ∧ ∀ id, (run.part.calls id).first = 0 := by
  have hbegun : r.begun = Invocation.empty := by
    cases hpending : r.pending with
    | cons p ps => simp [begun, hpending]
    | nil =>
        cases hresumed : r.resumed with
        | none => simp [begun, hpending, hresumed]
        | some x => exact absurd hpending (huncut (by simp [hresumed]))
  have hcontinued := h.continuedBy
  rw [hbegun] at hcontinued
  exact hcontinued.first_eq_zero

/-- A dump changes nothing in the invocation. -/
theorem dump (h : r.Inside run) :
    (r.dump run).Inside run.restart ∧
      (r.dump run).invocation run.restart = r.invocation run := by
  have hiterations := Progress.join_restart h.iterations
  have hcalls := fun id => Progress.join_restart (h.calls id)
  refine ⟨⟨rfl, hiterations.1, fun id => (hcalls id).1, ?_, ?_⟩, ?_⟩
  · intro hcurrent
    have hnone : run.iterations.current = none := by
      simpa [RunningInvocation.restart, Progress.restart] using hcurrent
    rcases h.started hnone with ⟨hnew, hempty⟩
    have hbegun : (r.dump run).begun.iterations = run.iterations.part.join r.begun.iterations := rfl
    rw [hbegun, hempty, RunningInvocation.restart, hnew]
    exact ⟨rfl, rfl⟩
  · intro id
    simpa [RunningInvocation.restart, Progress.restart] using h.call_iff id
  · ext1
    · exact hiterations.2
    · exact funext fun id => (hcalls id).2

/-- A new invocation. -/
theorem new (hresumed : r.resumed.isSome → r.pending ≠ []) :
    Inside { r with running := some RunningInvocation.new } RunningInvocation.new ∧
      invocation r RunningInvocation.new = Invocation.empty := by
  have hbegun : r.begun = Invocation.empty := by
    cases hpending : r.pending with
    | cons p ps => simp [begun, hpending]
    | nil =>
        cases hx : r.resumed with
        | none => simp [begun, hpending, hx]
        | some x => exact absurd hpending (hresumed (by simp [hx]))
  refine ⟨⟨rfl, ?_, ?_, ?_, ?_⟩, ?_⟩
  · rw [begun_withRunning, hbegun]
    exact Progress.Follows.new
  · intro id
    rw [begun_withRunning, hbegun]
    exact Progress.Follows.new
  · rw [begun_withRunning, hbegun]
    exact fun _ => ⟨rfl, rfl⟩
  · intro id
    simp [RunningInvocation.new, Progress.new]
  · rw [invocation, hbegun]
    ext1 <;> rfl

variable {iterations : Progress} {calls : UInt64 → Progress} {call : Option UInt64} {id : UInt64}

/-- The iterations go on. -/
theorem withIterations (h : r.Inside { iterations, calls, call }) {iterations' : Progress}
    (hfollows : iterations'.Follows r.begun.iterations) (hcurrent : iterations'.current.isSome) :
    Inside { r with running := some { iterations := iterations', calls, call } }
      { iterations := iterations', calls, call } :=
  ⟨rfl, hfollows, h.calls, fun hnone => absurd hnone (Option.isSome_iff_ne_none.1 hcurrent),
    h.call_iff⟩

/-- A call goes on. -/
theorem withCall (h : r.Inside { iterations, calls, call }) {p : Progress} {call' : Option UInt64}
    (hfollows : p.Follows (r.begun.calls id))
    (hcall : ∀ id', (Function.update calls id p id').current.isSome ↔ call' = some id') :
    Inside { r with
        running := some { iterations, calls := Function.update calls id p, call := call' } }
      { iterations, calls := Function.update calls id p, call := call' } := by
  refine ⟨rfl, h.iterations, ?_, h.started, hcall⟩
  intro id'
  by_cases heq : id' = id
  · subst heq
    simpa using hfollows
  · simpa [Function.update_of_ne heq] using h.calls id'

end Inside

/-- The running invocation, where one call goes on. -/
theorem invocation_update (r : Recorder) (iterations : Progress) (calls : UInt64 → Progress)
    (call : Option UInt64) (id : UInt64) (p : Progress) (call' : Option UInt64) :
    r.invocation { iterations, calls := Function.update calls id p, call := call' }
      = { r.invocation { iterations, calls, call } with
          calls := Function.update (r.invocation { iterations, calls, call }).calls id
            (p.part.join (r.begun.calls id)) } := by
  ext1
  · rfl
  · funext id'
    by_cases heq : id' = id
    · subst heq
      simp [invocation, Invocation.join, RunningInvocation.part]
    · simp [invocation, Invocation.join, RunningInvocation.part, Function.update_of_ne heq]

namespace Sound

theorem new : Sound new where
  inside := by simp [Recorder.new]
  resumed := by simp [Recorder.new]
  continued := by simp [Recorder.new]
  uncut := by simp [Recorder.new]

theorem withRunning (h : r.Sound) (hrun : Inside { r with running := some run } run) :
    Sound { r with running := some run } where
  inside := by
    intro run' hrun'
    rcases Option.some.inj hrun' with rfl
    exact hrun
  resumed := by simp
  continued := h.continued
  uncut := h.uncut

theorem dump (h : r.Inside run) : Sound (r.dump run) where
  inside := by
    intro run' hrun'
    rcases Option.some.inj hrun' with rfl
    exact h.dump.1
  resumed := by simp [Recorder.dump]
  continued := by simp [Recorder.dump]
  uncut := by simp [Recorder.dump]

theorem finish (hsound : r.Sound) (h : r.Inside run) :
    Sound { r with pending := r.pending ++ [run.part], running := none } where
  inside := by simp
  resumed := by simp
  continued := by
    intro x p hx hp
    cases hpending : r.pending with
    | nil =>
        have hbegun : r.begun = x := by
          have hx' : r.resumed = some x := hx
          simp [begun, hpending, hx']
        have heq : run.part = p := by simpa [hpending] using hp
        exact heq ▸ hbegun ▸ h.continuedBy
    | cons q qs =>
        refine hsound.continued x p hx ?_
        simpa [hpending] using hp
  uncut := by
    intro p hp
    cases hpending : r.pending with
    | nil =>
        cases hresumed : r.resumed with
        | some x => simp [hpending, hresumed] at hp
        | none =>
            have heq : p = run.part := by simpa [hpending, hresumed] using hp
            have hbegun : r.begun = Invocation.empty := by simp [begun, hpending, hresumed]
            have hcontinued := h.continuedBy
            rw [hbegun, ← heq] at hcontinued
            exact hcontinued.first_eq_zero
    | cons q qs =>
        have hbegun : r.begun = Invocation.empty := by simp [begun, hpending]
        have hcontinued := h.continuedBy
        rw [hbegun] at hcontinued
        have hle : (if r.resumed.isSome then 1 else 0) ≤ r.pending.length := by
          rw [hpending]
          split <;> simp
        have hp' : p ∈ (r.pending ++ [run.part]).drop (if r.resumed.isSome then 1 else 0) := hp
        rw [List.drop_append_of_le_length hle] at hp'
        rcases List.mem_append.1 hp' with hp' | hp'
        · exact hsound.uncut p hp'
        · rcases List.mem_singleton.1 hp' with rfl
          exact hcontinued.first_eq_zero

end Sound

namespace Valid

theorem sound (h : r.Valid) : r.Sound where
  inside := h.inside
  resumed := h.resumed
  continued := h.continued
  uncut := h.uncut

theorem of_sound (h : r.Sound) (hdone : r.resumed = none → r.done = []) : r.Valid where
  inside := h.inside
  done := hdone
  resumed := h.resumed
  continued := h.continued
  uncut := h.uncut

theorem new : Valid new :=
  of_sound Sound.new fun _ => rfl

theorem withRunning (h : r.Valid) (hrun : Inside { r with running := some run } run) :
    Valid { r with running := some run } :=
  of_sound (h.sound.withRunning hrun) h.done

theorem dump (h : r.Inside run) : Valid (r.dump run) :=
  of_sound (Sound.dump h) (by simp [Recorder.dump])

theorem finish (hvalid : r.Valid) (h : r.Inside run) :
    Valid { r with pending := r.pending ++ [run.part], running := none } :=
  of_sound (hvalid.sound.finish h) hvalid.done

/-- The calls keep what holds in every state. -/
theorem step {c : ApiCall} (h : r.Valid) (hstep : Step loopID r c r') : r'.Valid := by
  cases hstep with
  | loopStart hrunning => exact h.withRunning (Inside.new (h.resumed hrunning)).1
  | loopEnd hrunning _ => exact h.finish (h.inside _ hrunning)
  | iterationStart hrunning =>
      have hinside := h.inside _ hrunning
      exact h.withRunning (hinside.withIterations hinside.iterations.next rfl)
  | seen hrunning hcurrent =>
      have hinside := h.inside _ hrunning
      refine h.withRunning (hinside.withIterations (hinside.iterations.record _) ?_)
      simpa [Progress.record] using hcurrent
  | @seenInCall iterations calls id instID hrunning =>
      have hinside := h.inside _ hrunning
      refine h.withRunning (hinside.withCall ((hinside.calls id).record instID) ?_)
      intro id'
      have hiff := hinside.call_iff id'
      by_cases heq : id' = id
      · subst heq
        simpa [Progress.record] using hiff
      · simpa [Function.update_of_ne heq] using hiff
  | @callStart iterations calls id hrunning =>
      have hinside := h.inside _ hrunning
      refine h.withRunning (hinside.withCall (hinside.calls id).next ?_)
      intro id'
      have hiff := hinside.call_iff id'
      by_cases heq : id' = id
      · simp [heq, Progress.next]
      · simpa [Function.update_of_ne heq, Ne.symm heq] using hiff
  | @callEnd iterations calls id hrunning =>
      have hinside := h.inside _ hrunning
      refine h.withRunning (hinside.withCall (hinside.calls id).finish ?_)
      intro id'
      have hiff := hinside.call_iff id'
      by_cases heq : id' = id
      · simp [heq, Progress.finish]
      · simpa [Function.update_of_ne heq, Ne.symm heq] using hiff
  | dump hrunning => exact Valid.dump (h.inside _ hrunning)

/-- Outside of invocations, something is pending as soon as something has been recorded. -/
theorem pending_ne_nil (h : r.Valid) (hrunning : r.running = none) (hne : r ≠ Recorder.new) :
    r.pending ≠ [] := by
  intro hpending
  have hresumed : r.resumed = none := by
    cases hresumed : r.resumed with
    | none => rfl
    | some x => exact absurd hpending (h.resumed hrunning (by simp [hresumed]))
  have hdone := h.done hresumed
  rcases r with ⟨done, resumed, pending, running⟩
  simp only at hrunning hpending hresumed hdone
  exact hne (by simp [Recorder.new, hrunning, hpending, hresumed, hdone])

end Valid

theorem Step.ne_new {c : ApiCall} (h : Step loopID r c r') : r' ≠ new := by
  cases h <;> simp [Recorder.new, Recorder.dump]

/-! ### Sizes -/

/-- No number and no length is above `n`. -/
structure Within (r : Recorder) (n : Nat) : Prop where
  ended : r.done.length + r.pending.length + r.running.toList.length ≤ n
  pending : ∀ p ∈ r.pending, p.iterations.first + p.iterations.values.length ≤ n ∧
    ∀ id, (p.calls id).first + (p.calls id).values.length ≤ n
  running : ∀ run, r.running = some run → run.iterations.count ≤ n ∧ ∀ id, (run.calls id).count ≤ n
  current : ∀ run, r.running = some run → (run.iterations.current.getD []).length ≤ n ∧
    ∀ id, ((run.calls id).current.getD []).length ≤ n

namespace Within

variable {n : Nat}

theorem new : Within new 0 where
  ended := Nat.le_refl 0
  pending := by simp [Recorder.new]
  running := by simp [Recorder.new]
  current := by simp [Recorder.new]

theorem mono (h : r.Within n) {m : Nat} (hle : n ≤ m) : r.Within m where
  ended := Nat.le_trans h.ended hle
  pending := fun p hp => ⟨Nat.le_trans (h.pending p hp).1 hle,
    fun id => Nat.le_trans ((h.pending p hp).2 id) hle⟩
  running := fun run hrun => ⟨Nat.le_trans (h.running run hrun).1 hle,
    fun id => Nat.le_trans ((h.running run hrun).2 id) hle⟩
  current := fun run hrun => ⟨Nat.le_trans (h.current run hrun).1 hle,
    fun id => Nat.le_trans ((h.current run hrun).2 id) hle⟩

/-- The running invocation changes. -/
theorem withRunning_of_le (h : r.Within n) {run run' : RunningInvocation}
    (hrunning : r.running = some run)
    (hcount : run'.iterations.count ≤ n ∧ ∀ id, (run'.calls id).count ≤ n)
    (hlen : (run'.iterations.current.getD []).length ≤ n ∧
      ∀ id, ((run'.calls id).current.getD []).length ≤ n) :
    Within { r with running := some run' } n where
  ended := by
    have := h.ended
    rw [hrunning] at this
    exact this
  pending := h.pending
  running := by
    intro run'' hrun
    rcases Option.some.inj hrun with rfl
    exact hcount
  current := by
    intro run'' hrun
    rcases Option.some.inj hrun with rfl
    exact hlen

/-- The running invocation grows by one. -/
theorem withRunning (h : r.Within n) {run run' : RunningInvocation} (hrunning : r.running = some run)
    (hiterations : run'.iterations.count ≤ run.iterations.count + 1)
    (hcalls : ∀ id, (run'.calls id).count ≤ (run.calls id).count + 1)
    (hiteration : (run'.iterations.current.getD []).length
      ≤ (run.iterations.current.getD []).length + 1)
    (hcall : ∀ id, ((run'.calls id).current.getD []).length
      ≤ ((run.calls id).current.getD []).length + 1) :
    Within { r with running := some run' } (n + 1) := by
  have hcount := h.running run hrunning
  have hlen := h.current run hrunning
  refine (h.mono (Nat.le_succ n)).withRunning_of_le hrunning ⟨by omega, fun id => ?_⟩
    ⟨by omega, fun id => ?_⟩
  · have := hcount.2 id
    have := hcalls id
    omega
  · have := hlen.2 id
    have := hcall id
    omega

/-- An invocation begins. -/
theorem start (h : r.Within n) (hrunning : r.running = none) :
    Within { r with running := some RunningInvocation.new } (n + 1) where
  ended := by
    have := h.ended
    rw [hrunning] at this
    simp only [Option.toList, List.length_singleton, List.length_nil] at this ⊢
    omega
  pending := (h.mono (Nat.le_succ n)).pending
  running := by
    intro run hrun
    rcases Option.some.inj hrun with rfl
    exact ⟨Nat.zero_le _, fun id => Nat.zero_le _⟩
  current := by
    intro run hrun
    rcases Option.some.inj hrun with rfl
    exact ⟨Nat.zero_le _, fun id => Nat.zero_le _⟩

/-- An invocation ends. -/
theorem finish (h : r.Within n) (hrunning : r.running = some run) :
    Within { r with pending := r.pending ++ [run.part], running := none } n where
  ended := by
    have := h.ended
    rw [hrunning] at this
    simp only [Option.toList, List.length_singleton, List.length_append, List.length_nil] at this ⊢
    omega
  pending := by
    intro p hp
    rcases List.mem_append.1 hp with hp | hp
    · exact h.pending p hp
    · rcases List.mem_singleton.1 hp with rfl
      exact h.running run hrunning
  running := by simp
  current := by simp

/-- A dump inside an invocation. -/
theorem dump (h : r.Within n) (hrunning : r.running = some run) : (r.dump run).Within n where
  ended := by
    have hlen : r.recorded.length = r.done.length + r.pending.length := by
      rw [recorded, List.length_append, length_resume]
    have := h.ended
    rw [hrunning] at this
    simp only [Option.toList, List.length_singleton, Recorder.dump, hlen, List.length_nil] at this ⊢
    omega
  pending := by simp [Recorder.dump]
  running := by
    intro run' hrun
    rcases Option.some.inj hrun with rfl
    simp only [RunningInvocation.restart, Progress.count_restart]
    exact h.running run hrunning
  current := by
    intro run' hrun
    rcases Option.some.inj hrun with rfl
    have hzero : ∀ p : Progress, (p.restart.current.getD []).length = 0 := by
      intro p
      cases hc : p.current <;> simp [Progress.restart, hc]
    simp only [RunningInvocation.restart, hzero]
    exact ⟨Nat.zero_le _, fun _ => Nat.zero_le _⟩

/-- Every call adds one at most. -/
theorem step {c : ApiCall} (h : r.Within n) (hstep : Step loopID r c r') : r'.Within (n + 1) := by
  cases hstep with
  | loopStart hrunning => exact h.start hrunning
  | loopEnd hrunning _ => exact (h.finish hrunning).mono (Nat.le_succ n)
  | iterationStart hrunning =>
      refine h.withRunning hrunning ?_ (fun _ => Nat.le_succ _) ?_ fun _ => Nat.le_succ _
      · simp
      · simp [Progress.next]
  | @seen iterations calls instID hrunning hcurrent =>
      refine h.withRunning hrunning ?_ (fun _ => Nat.le_succ _) ?_ fun _ => Nat.le_succ _
      · simp
      · rcases Option.isSome_iff_exists.1 hcurrent with ⟨x, hx⟩
        simp [Progress.record, hx]
  | @seenInCall iterations calls id instID hrunning =>
      refine h.withRunning hrunning (Nat.le_succ _) ?_ (Nat.le_succ _) ?_
      · intro id'
        by_cases heq : id' = id
        · subst heq
          simp
        · simp [Function.update_of_ne heq]
      · intro id'
        by_cases heq : id' = id
        · subst heq
          cases hc : (calls id').current <;> simp [Progress.record, hc]
        · simp [Function.update_of_ne heq]
  | @callStart iterations calls id hrunning =>
      refine h.withRunning hrunning (Nat.le_succ _) ?_ (Nat.le_succ _) ?_
      · intro id'
        by_cases heq : id' = id
        · subst heq
          simp
        · simp [Function.update_of_ne heq]
      · intro id'
        by_cases heq : id' = id
        · subst heq
          simp [Progress.next]
        · simp [Function.update_of_ne heq]
  | @callEnd iterations calls id hrunning =>
      refine h.withRunning hrunning (Nat.le_succ _) ?_ (Nat.le_succ _) ?_
      · intro id'
        by_cases heq : id' = id
        · subst heq
          simp
        · simp [Function.update_of_ne heq]
      · intro id'
        by_cases heq : id' = id
        · subst heq
          simp [Progress.finish]
        · simp [Function.update_of_ne heq]
  | dump hrunning => exact (h.dump hrunning).mono (Nat.le_succ n)

end Within

end Recorder
end CamAlias
