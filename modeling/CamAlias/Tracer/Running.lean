import CamAlias.Tracer.Meaning
import CamAlias.Tracer.Recorder

/-!
# Running — the running loop and the running call follow the recorder

`RunningLoop.Follows`: the iteration groups and the compressor of a running loop stand for the
iterations since the last dump.  `CallsFollow`: the call traces and the running call stand for the
instances of every call.  One lemma for each operation.
-/

namespace CamAlias

open Lib ControlFlowCompressor

/-! ## The running loop -/

namespace Progress

/-- The elements that have ended. -/
def ended (p : Progress) : Part where
  first := p.first
  values := p.values

theorem part_of_idle {p : Progress} (h : p.current = none) : p.part = p.ended := by
  simp [part, ended, h]

end Progress

/-- The running loop stands for the iterations of the running invocation. -/
structure RunningLoop.Follows (running : RunningLoop) (loopID : UInt64) (number : Nat) (cut : Bool)
    (p : Progress) : Prop where
  loopID : running.loopID = loopID
  number : running.invocationNum = number
  partiallyDumped : running.partiallyDumped = cut
  iterationNum : running.iterationNum
    = if p.current.isSome then ((p.first + p.values.length : Nat) : Int) else -1
  iterations : SymbolGroups running.iterationInfos.infos p.ended
  current : Compresses running.currCFC.contents (p.current.getD [])

theorem count_snoc_lt {symbols : List UInt64} {symbol : UInt64} (h : symbols.length + 1 < 2 ^ 64) :
    ∀ s, (symbols ++ [symbol]).count s < 2 ^ 64 := by
  intro s
  have hle := List.count_le_length (a := s) (l := symbols ++ [symbol])
  simp only [List.length_append, List.length_singleton] at hle
  omega

theorem compresses_newCFC : Compresses newCFC.contents [] where
  expand_eq := rfl
  wellFormed := trivial
  count_lt := by simp

theorem compresses_clear (c : ControlFlowCompressor) : Compresses c.clear.contents [] where
  expand_eq := rfl
  wellFormed := trivial
  count_lt := by simp

namespace RunningLoop.Follows

variable {running : RunningLoop} {loopID : UInt64} {number : Nat} {cut : Bool} {p : Progress}

/-- The running iteration joins the others. -/
theorem recordInstsSeenOnIteration (h : running.Follows loopID number cut p) :
    ∃ iterationInfos currCFC, running.recordInstsSeenOnIteration
        = some { running with iterationInfos, currCFC } ∧
      SymbolGroups iterationInfos.infos p.part ∧ Compresses currCFC.contents [] := by
  -- before the first iteration there is nothing to record
  cases hcurrent : p.current with
  | none =>
      have hnum : running.iterationNum = -1 := by rw [h.iterationNum, hcurrent]; rfl
      refine ⟨running.iterationInfos, running.currCFC, ?_, ?_, ?_⟩
      · rw [RunningLoop.recordInstsSeenOnIteration, if_pos hnum]
      · rw [Progress.part_of_idle hcurrent]
        exact h.iterations
      · have hcompresses := h.current
        rwa [hcurrent] at hcompresses
  | some x =>
      have hnum : running.iterationNum = ((p.first + p.values.length : Nat) : Int) := by
        rw [h.iterationNum, hcurrent]
        rfl
      have hne : running.iterationNum ≠ -1 := by
        rw [hnum]
        omega
      have htoNat : running.iterationNum.toNat = p.first + p.values.length := by
        rw [hnum, Int.toNat_natCast]
      have hpayload : Compresses running.currCFC.contents x := by
        have hcompresses := h.current
        rwa [hcurrent] at hcompresses
      have hmatch : ∀ info ∈ running.iterationInfos.infos, info.partiallyDumped = false →
          running.currCFC.beq info.payload = true → Compresses info.payload.contents x := by
        intro info _ _ hbeq
        rwa [← (ControlFlowCompressor.beq_iff _ _).1 hbeq]
      rcases ShareTable.share_groups h.iterations hpayload hmatch true with
        ⟨infos, found, hshare, hgroups, -⟩
      refine ⟨infos, if found then running.currCFC.clear else newCFC, ?_, ?_, ?_⟩
      · rw [RunningLoop.recordInstsSeenOnIteration, if_neg hne, htoNat]
        have hshare' : running.iterationInfos.share ControlFlowCompressor.beq running.currCFC
            (p.first + p.values.length) true = some (infos, found) := hshare
        rw [hshare']
      · rw [Progress.part_eq hcurrent]
        exact hgroups
      · cases found with
        | true => exact compresses_clear _
        | false => exact compresses_newCFC

/-- The next iteration begins. -/
theorem loopIterationStart (h : running.Follows loopID number cut p)
    (hstarted : p.current = none → p = Progress.new) :
    ∃ running', running.recordInstsSeenOnIteration = some running' ∧
      RunningLoop.Follows { running' with iterationNum := running'.iterationNum + 1 } loopID number
        cut p.next := by
  rcases h.recordInstsSeenOnIteration with ⟨iterationInfos, currCFC, hrecord, hgroups, hcurrent⟩
  refine ⟨_, hrecord, h.loopID, h.number, h.partiallyDumped, ?_, hgroups, hcurrent⟩
  simp only [h.iterationNum, Progress.next, Progress.finish, Option.isSome_some, if_true]
  cases hc : p.current with
  | none => simp [hstarted hc, Progress.new]
  | some x => simp [Int.add_assoc]

/-- An instruction is seen in the running iteration. -/
theorem seen (h : running.Follows loopID number cut p) (hcurrent : p.current.isSome)
    (instID : UInt64) (hlen : (p.current.getD []).length + 1 < 2 ^ 64) :
    RunningLoop.Follows { running with currCFC := running.currCFC.insertSymbol instID } loopID number
      cut (p.record instID) := by
  rcases Option.isSome_iff_exists.1 hcurrent with ⟨x, hx⟩
  refine ⟨h.loopID, h.number, h.partiallyDumped, ?_, h.iterations, ?_⟩
  · rw [h.iterationNum]
    simp [Progress.record]
  · have hold : Compresses running.currCFC.contents x := by
      have hcompresses := h.current
      rwa [hx] at hcompresses
    have hnew : (p.record instID).current.getD [] = x ++ [instID] := by simp [Progress.record, hx]
    rw [hnew]
    exact hold.insertSymbol (count_snoc_lt (by simpa [hx] using hlen))

/-- After a dump the running iteration goes on in a part of its own. -/
theorem restart (h : running.Follows loopID number cut p) {number' : Nat}
    (hnumber : number = number') {currCFC : ControlFlowCompressor}
    (hcurrent : Compresses currCFC.contents []) :
    RunningLoop.Follows { running with
        partiallyDumped := true
        currCFC
        iterationInfos := ShareTable.empty } loopID number' true p.restart := by
  refine ⟨h.loopID, h.number.trans hnumber, rfl, ?_, Groups.nil, ?_⟩
  · rw [h.iterationNum]
    simp [Progress.restart]
  · have hnil : p.restart.current.getD [] = [] := by
      cases hc : p.current <;> simp [Progress.restart, hc]
    rwa [hnil]

end RunningLoop.Follows

/-! ## The running call -/

namespace CallTraces

/-- The number of instances of a call so far. -/
def numOf (callTraces : CallTraces) (id : UInt64) : Nat :=
  ((callTraces.lookup id).map fun trace => trace.numInvocations).getD 0

theorem infosOf_set (callTraces : CallTraces) (id id' : UInt64) (trace : CallTrace) :
    infosOf (HashTable.set callTraces id trace) id'
      = if id' = id then trace.groups.infos else callTraces.infosOf id' := by
  simp only [infosOf, HashTable.lookup_set]
  by_cases h : id' = id <;> simp [h]

theorem numOf_set (callTraces : CallTraces) (id id' : UInt64) (trace : CallTrace) :
    numOf (HashTable.set callTraces id trace) id'
      = if id' = id then trace.numInvocations else callTraces.numOf id' := by
  simp only [numOf, HashTable.lookup_set]
  by_cases h : id' = id <;> simp [h]

/-- The trace of one call changes. -/
theorem Stands.set {callTraces : CallTraces} {p : UInt64 → Part} (h : callTraces.Stands p)
    (id : UInt64) (trace : CallTrace) {q : Part} (hgroups : SymbolGroups trace.groups.infos q)
    (hseen : FirstSeen q.first (fun _ => False) (trace.groups.infos.map SharedInfo.group)) :
    CallTraces.Stands (HashTable.set callTraces id trace) (Function.update p id q) := by
  refine ⟨HashTable.nodup_set h.distinct, ?_, ?_⟩
  · intro id'
    rw [infosOf_set]
    by_cases heq : id' = id
    · subst heq
      simpa using hgroups
    · simpa [heq, Function.update_of_ne heq] using h.groups id'
  · intro id'
    rw [infosOf_set]
    by_cases heq : id' = id
    · subst heq
      simpa using hseen
    · simpa [heq, Function.update_of_ne heq] using h.firstSeen id'

theorem lookup_clearTraces (callTraces : CallTraces) (id : UInt64) :
    (clearTraces callTraces).lookup id = (callTraces.lookup id).map ExecTrace.clearTrace := by
  induction callTraces with
  | nil => rfl
  | cons item items ih =>
      have hcons : clearTraces (item :: items)
          = (item.1, item.2.clearTrace) :: clearTraces items := rfl
      rw [hcons, HashTable.lookup_cons, HashTable.lookup_cons, ih]
      by_cases h : id = item.1 <;> simp [h]

@[simp] theorem infosOf_clearTraces (callTraces : CallTraces) (id : UInt64) :
    infosOf (clearTraces callTraces) id = [] := by
  rw [infosOf, lookup_clearTraces]
  cases callTraces.lookup id <;> rfl

@[simp] theorem numOf_clearTraces (callTraces : CallTraces) (id : UInt64) :
    numOf (clearTraces callTraces) id = callTraces.numOf id := by
  rw [numOf, numOf, lookup_clearTraces]
  cases callTraces.lookup id <;> rfl

theorem stands_clearTraces {callTraces : CallTraces} (h : (callTraces.map Prod.fst).Nodup)
    {p : UInt64 → Part} (hp : ∀ id, (p id).values = []) : Stands (clearTraces callTraces) p := by
  refine ⟨?_, ?_, ?_⟩
  · rw [clearTraces, List.map_map]
    exact h
  · intro id
    rw [infosOf_clearTraces, SymbolGroups, hp id]
    exact Groups.nil
  · intro id
    rw [infosOf_clearTraces]
    trivial

end CallTraces

/-- The call traces and the running calls stand for the instances of the running invocation. -/
structure CallsFollow (stack : List RunningCall) (callTraces : CallTraces)
    (run : RunningInvocation) : Prop where
  stands : callTraces.Stands fun id => (run.calls id).ended
  numOf : ∀ id, callTraces.numOf id = (run.calls id).count
  idle : run.call = none → stack = []
  running : ∀ id, run.call = some id → ∃ call, stack = [call] ∧ call.callID = id ∧
    call.invocationNum = (run.calls id).first + (run.calls id).values.length ∧
    Compresses call.currCFC.contents ((run.calls id).current.getD [])

namespace CallsFollow

variable {stack : List RunningCall} {callTraces : CallTraces} {iterations : Progress}
  {calls : UInt64 → Progress} {id : UInt64}

theorem new : CallsFollow [] [] RunningInvocation.new where
  stands := ⟨List.nodup_nil, fun _ => Groups.nil, fun _ => trivial⟩
  numOf := fun _ => rfl
  idle := fun _ => rfl
  running := by simp [RunningInvocation.new]

/-- A call begins. -/
theorem callInvocationStart (h : CallsFollow stack callTraces { iterations, calls, call := none })
    (hidle : (calls id).current = none) :
    let trace := (callTraces.lookup id).getD ExecTrace.new
    CallsFollow [{
        callID := id
        invocationNum := trace.numInvocations
        partiallyDumped := false
        currCFC := newCFC }]
      (HashTable.set callTraces id { trace with numInvocations := trace.numInvocations + 1 })
      { iterations, calls := Function.update calls id (calls id).next, call := some id } := by
  intro trace
  have hinfos : trace.groups.infos = callTraces.infosOf id := by
    simp only [trace, CallTraces.infosOf]
    cases callTraces.lookup id <;> rfl
  have hnum : trace.numInvocations = (calls id).count := by
    rw [← h.numOf id]
    simp only [trace, CallTraces.numOf]
    cases callTraces.lookup id <;> rfl
  have hended : (calls id).next.ended = (calls id).ended := by
    simp [Progress.next, Progress.finish, Progress.ended, hidle]
  refine ⟨?_, ?_, by simp, ?_⟩
  · have hgroups := h.stands.groups id
    have hseen := h.stands.firstSeen id
    simp only at hgroups hseen
    rw [← hinfos] at hgroups hseen
    have hset := h.stands.set id { trace with numInvocations := trace.numInvocations + 1 } hgroups
      hseen
    convert hset using 1
    funext id'
    -- only the trace of this call changes
    by_cases heq : id' = id
    · subst heq
      simp [hended]
    · simp [Function.update_of_ne heq]
  · intro id'
    rw [CallTraces.numOf_set]
    by_cases heq : id' = id
    · subst heq
      simp [hnum]
    · simpa [heq, Function.update_of_ne heq] using h.numOf id'
  · intro id' hid
    rcases Option.some.inj hid with rfl
    refine ⟨_, rfl, rfl, ?_, ?_⟩
    · have hcount : (calls id).count = (calls id).first + (calls id).values.length := by
        simp [Progress.count, Progress.part, hidle]
      simp [hnum, hcount, Progress.next, Progress.finish, hidle]
    · simpa [Progress.next] using compresses_newCFC

/-- An instruction is seen in the running call. -/
theorem seen {call : RunningCall}
    (h : CallsFollow [call] callTraces { iterations, calls, call := some id })
    (hcurrent : (calls id).current.isSome) (instID : UInt64)
    (hlen : ((calls id).current.getD []).length + 1 < 2 ^ 64) :
    CallsFollow [{ call with currCFC := call.currCFC.insertSymbol instID }] callTraces
      { iterations, calls := Function.update calls id ((calls id).record instID), call := some id } := by
  rcases Option.isSome_iff_exists.1 hcurrent with ⟨x, hx⟩
  refine ⟨?_, ?_, by simp, ?_⟩
  · convert h.stands using 1
    funext id'
    by_cases heq : id' = id
    · subst heq
      simp [Progress.record, Progress.ended]
    · simp [Function.update_of_ne heq]
  · intro id'
    by_cases heq : id' = id
    · subst heq
      simpa using h.numOf id'
    · simpa [Function.update_of_ne heq] using h.numOf id'
  · intro id' hid
    rcases Option.some.inj hid with rfl
    rcases h.running id rfl with ⟨call', hcall', hid', hnum, hcompresses⟩
    rcases List.cons.inj hcall' with ⟨rfl, -⟩
    refine ⟨_, rfl, hid', ?_, ?_⟩
    · simpa [Progress.record] using hnum
    · have hold : Compresses call.currCFC.contents x := by simpa [hx] using hcompresses
      have hnew : ((calls id).record instID).current.getD [] = x ++ [instID] := by
        simp [Progress.record, hx]
      simp only [Function.update_self, hnew]
      exact hold.insertSymbol (count_snoc_lt (by simpa [hx] using hlen))

/-- The running call ends, or is put into its trace by a dump. -/
theorem finishCall {globals : PassGlobals} {call : RunningCall}
    (h : CallsFollow [call] globals.callTraces { iterations, calls, call := some id })
    (hcurrent : (calls id).current.isSome) (partiallyDumped attemptMatch : Bool) :
    ∃ callTraces currCFC,
      globals.finishCall { call with partiallyDumped } attemptMatch
        = some ({ globals with callTraces }, { call with partiallyDumped, currCFC }) ∧
      callTraces.Stands (Function.update (fun id => (calls id).ended) id (calls id).part) ∧
      (∀ id, callTraces.numOf id = (calls id).count) ∧ Compresses currCFC.contents [] := by
  rcases Option.isSome_iff_exists.1 hcurrent with ⟨x, hx⟩
  rcases h.running id rfl with ⟨call', hcall', hid, hnum, hcompresses⟩
  rcases List.cons.inj hcall' with ⟨rfl, -⟩
  have hpayload : Compresses call.currCFC.contents x := by simpa [hx] using hcompresses
  cases hlookup : globals.callTraces.lookup id with
  | none =>
      have hcount := h.numOf id
      simp [CallTraces.numOf, hlookup, Progress.count, Progress.part, hx] at hcount
  | some trace =>
      have hgroups := h.stands.groups id
      have hseen := h.stands.firstSeen id
      simp only [CallTraces.infosOf, hlookup, Option.map_some, Option.getD_some] at hgroups hseen
      -- what is found equal has the same compressed control flow
      have hmatch : ∀ info ∈ trace.groups.infos, info.partiallyDumped = false →
          CallTrace.invocationsMatch call.currCFC info.payload = true →
          Compresses info.payload.contents x := by
        intro info _ _ hbeq
        rwa [← (ControlFlowCompressor.beq_iff _ _).1 hbeq]
      rcases ShareTable.share_groups hgroups hpayload hmatch attemptMatch with
        ⟨groups, found, hshare, hgroups', hseen'⟩
      have hnumber : (calls id).ended.first + (calls id).ended.values.length = call.invocationNum :=
        hnum.symm
      rw [hnumber] at hshare
      let trace' : CallTrace := { trace with groups }
      refine ⟨HashTable.set globals.callTraces id trace',
        if !found then newCFC else call.currCFC.clear, ?_, ?_, ?_, ?_⟩
      · simp only [PassGlobals.finishCall, hid, hlookup, ExecTrace.processInvocation, hshare,
          Option.map_some, trace']
      · refine h.stands.set id trace' ?_ ?_
        · rw [Progress.part_eq hx]
          exact hgroups'
        · exact hseen' _ hseen
      · intro id'
        rw [CallTraces.numOf_set, ← h.numOf id']
        by_cases heq : id' = id
        · subst heq
          simp [CallTraces.numOf, hlookup, trace']
        · simp [heq]
      · -- a control flow that is kept in the table is not used again
        cases found with
        | true => exact compresses_clear _
        | false => exact compresses_newCFC

/-- A dump puts the running call into its trace and goes on with a part of its own. -/
theorem dumpCalls {globals : PassGlobals} {r : Recorder} {run : RunningInvocation}
    (h : CallsFollow stack globals.callTraces run) (hinside : r.Inside run) :
    ∃ callTraces stack', globals.dumpCalls stack = some ({ globals with callTraces }, stack') ∧
      callTraces.Stands run.part.calls ∧ CallsFollow stack' (clearTraces callTraces) run.restart := by
  -- the traces are emptied, and what goes on starts with empty parts
  have hrestart : ∀ {callTraces : CallTraces} {stack' : List RunningCall},
      (callTraces.map Prod.fst).Nodup → (∀ id, callTraces.numOf id = (run.calls id).count) →
      (run.call = none → stack' = []) →
      (∀ id, run.call = some id → ∃ call, stack' = [call] ∧ call.callID = id ∧
        call.invocationNum = (run.calls id).first + (run.calls id).values.length ∧
        Compresses call.currCFC.contents []) →
      CallsFollow stack' (clearTraces callTraces) run.restart := by
    intro callTraces stack' hdistinct hnumOf hidle hrunning
    refine ⟨CallTraces.stands_clearTraces hdistinct fun _ => rfl, ?_, hidle, ?_⟩
    · intro id
      simpa [RunningInvocation.restart] using hnumOf id
    · intro id hid
      rcases hrunning id hid with ⟨call, hcall, hid', hnum, hcompresses⟩
      refine ⟨call, hcall, hid', by simpa [RunningInvocation.restart, Progress.restart] using hnum, ?_⟩
      have hnil : ((run.calls id).restart.current).getD [] = [] := by
        cases hc : (run.calls id).current <;> simp [Progress.restart, hc]
      simpa [RunningInvocation.restart, hnil] using hcompresses
  rcases run with ⟨iterations, calls, call⟩
  cases call with
  | none =>
      have hidle := h.idle rfl
      subst hidle
      refine ⟨globals.callTraces, [], rfl, ?_, hrestart h.stands.distinct h.numOf (fun _ => rfl) ?_⟩
      · have hstands := h.stands
        convert hstands using 1
        funext id
        refine Progress.part_of_idle ?_
        have hiff := hinside.call_iff id
        simpa using hiff
      · simp
  | some id =>
      rcases h.running id rfl with ⟨running, rfl, hid, hnum, -⟩
      have hcurrent := (hinside.call_iff id).2 rfl
      rcases h.finishCall hcurrent true false with
        ⟨callTraces, currCFC, hfinish, hstands, hnumOf, hcompresses⟩
      refine ⟨callTraces, [{ running with partiallyDumped := true, currCFC }], ?_, ?_,
        hrestart hstands.distinct hnumOf (by simp) ?_⟩
      · simp only [PassGlobals.dumpCalls, hfinish, Option.map_some]
      · -- the other calls have no running instance
        convert hstands using 1
        funext id'
        by_cases heq : id' = id
        · subst heq
          simp [RunningInvocation.part]
        · have hnone : (calls id').current = none := by
            have hiff := hinside.call_iff id'
            simpa [Ne.symm heq] using hiff
          simp [RunningInvocation.part, Function.update_of_ne heq, Progress.part_of_idle hnone]
      · intro id' hid'
        rcases Option.some.inj hid' with rfl
        exact ⟨_, rfl, hid, hnum, hcompresses⟩

end CallsFollow

end CamAlias
