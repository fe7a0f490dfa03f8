import CamAlias.Analyser.CallTrace
import CamAlias.Lexer.EntryStream
import CamAlias.Lexer.Printed

/-!
# CallTrace — the lexer of the call trace

`call_trace_cfc_parser.lex` in its second pass.  An entry has the loop invocations that share it,
then for each call ID its instance groups.
-/

namespace CamAlias

open Lib

/-- `State` of `CallTraceCfcLex.h`. -/
inductive CallTraceState
  | numInvoc
  | invocPattern
  | numCalls
  | callID
  | numInstances
  | instancePattern
  | cfc
  | dumpEnd
  deriving DecidableEq

/-- `CallTraceCfcLex`. -/
structure CallTraceCfcLex where
  rstatus : ReturnStatus
  state : CallTraceState
  cfc : CfcReader
  reppat : RepPatReader
  remaining_callinstance_entries : Nat
  remaining_loopinvoc_entries : Nat
  remaining_call_entries : Nat
  currCallID : UInt64
  callEntry : CallTraceLoopInvocationGroup

namespace CallTraceCfcLex

/-- `CallTraceCfcLex::CallTraceCfcLex`. -/
def init : CallTraceCfcLex where
  rstatus := .active
  state := .numInvoc
  cfc := CfcReader.init
  reppat := { reppatState := 0, invocNum := 0 }
  remaining_callinstance_entries := 0
  remaining_loopinvoc_entries := 0
  remaining_call_entries := 0
  currCallID := 0
  callEntry := CallTraceLoopInvocationGroup.new

/-- `readRepetitionPattern`: the range goes to the invocations or to the last call instance. -/
def readRepetitionPattern (l : CallTraceCfcLex) (t : Token) : Except Fault CallTraceCfcLex :=
  let (reppat, range) := l.reppat.readRepetitionPattern t
  let state :=
    if t = .closebrace then if l.state = .invocPattern then .numCalls else .cfc else l.state
  match range with
  | none => .ok { l with reppat, state }
  | some (start, «end») =>
      if l.state = .invocPattern then
        .ok { l with reppat, state, callEntry := l.callEntry.addInvocationPattern start «end» }
      else
        match l.callEntry.addCallPattern l.currCallID start «end» with
        | .ok callEntry => .ok { l with reppat, state, callEntry }
        | .error e => .error e

/-- `readCfc`: a finished pattern goes to the last instance of the call. -/
def readCfc (l : CallTraceCfcLex) (t : Token) : Except Fault CallTraceCfcLex :=
  match l.cfc.readCfc t with
  | .error e => .error e
  | .ok (cfc, none) => .ok { l with cfc }
  | .ok (cfc, some cp) =>
      match l.callEntry.addCallCfc l.currCallID cp with
      | .ok callEntry => .ok { l with cfc, callEntry }
      | .error e => .error e

/-- The rule for `NUMBER`. -/
def number (l : CallTraceCfcLex) (value : Nat) : Except Fault CallTraceCfcLex :=
  match l.state with
  | .numInvoc =>
      .ok { l with remaining_loopinvoc_entries := strtoull value, state := .invocPattern }
  | .invocPattern => l.readRepetitionPattern (.number value)
  | .numCalls =>
      if 0 < strtoull value then
        .ok { l with remaining_call_entries := strtoull value, state := .callID }
      else
        .ok { l with
          remaining_call_entries := strtoull value
          remaining_loopinvoc_entries := l.remaining_loopinvoc_entries - 1
          state := .dumpEnd }
  | .callID =>
      .ok { l with currCallID := UInt64.ofNat (strtoull value), state := .numInstances }
  | .numInstances =>
      if 0 < strtoull value then
        .ok { l with
          remaining_callinstance_entries := strtoull value
          callEntry := l.callEntry.addCallInstance l.currCallID
          reppat := { l.reppat with reppatState := 0 }
          state := .instancePattern }
      else
        .ok { l with
          remaining_callinstance_entries := strtoull value
          remaining_loopinvoc_entries := l.remaining_loopinvoc_entries - 1
          state := .dumpEnd }
  | .instancePattern => l.readRepetitionPattern (.number value)
  | .cfc => l.readCfc (.number value)
  -- `Call trace parser error, wrong state`
  | .dumpEnd => .error .abort

/-- The rule for the end of a line, which completes a control flow. -/
def newline (l : CallTraceCfcLex) : CallTraceCfcLex :=
  if l.state = .cfc then
    let remaining_callinstance_entries := l.remaining_callinstance_entries - 1
    if 0 < remaining_callinstance_entries then
      { l with
        remaining_callinstance_entries
        callEntry := l.callEntry.addCallInstance l.currCallID
        state := .instancePattern }
    else
      let remaining_call_entries := l.remaining_call_entries - 1
      if 0 < remaining_call_entries then
        { l with remaining_callinstance_entries, remaining_call_entries, state := .callID }
      else
        { l with
          remaining_callinstance_entries
          remaining_call_entries
          remaining_loopinvoc_entries := l.remaining_loopinvoc_entries - 1
          state := .dumpEnd }
  else l

/-- The rules for `INVOC_COMPLETE_SYMBOL` and `INVOC_INCOMPLETE_SYMBOL`. -/
def completion (l : CallTraceCfcLex) (rstatus : ReturnStatus) : Except Fault CallTraceCfcLex :=
  if l.state ≠ .dumpEnd then .error .abort
  else
    .ok { l with
      state := if 0 < l.remaining_loopinvoc_entries then .invocPattern else .numInvoc
      rstatus }

/-- `calltracecfclex`: one rule, and whether it returns 1. -/
def lexToken (l : CallTraceCfcLex) (t : Token) : Except Fault (CallTraceCfcLex × Bool) :=
  match t with
  | .number value => (l.number value).map fun l => (l, false)
  | .dash | .closebrace =>
      if l.state = .invocPattern ∨ l.state = .instancePattern then
        (l.readRepetitionPattern t).map fun l => (l, false)
      else .ok (l, false)
  | .comma =>
      if l.state = .invocPattern ∨ l.state = .instancePattern then
        (l.readRepetitionPattern t).map fun l => (l, false)
      else if l.state = .cfc then (l.readCfc t).map fun l => (l, false)
      else .ok (l, false)
  | .openparen | .closeparen =>
      if l.state = .cfc then (l.readCfc t).map fun l => (l, false) else .ok (l, false)
  | .newline => .ok (l.newline, false)
  | .complete => (l.completion .invocComplete).map fun l => (l, true)
  | .incomplete => (l.completion .invocIncomplete).map fun l => (l, true)

/-! ## Runs of the lexer -/

/-- The lexer gets from `l` to `l'` on `ts`, whatever follows. -/
abbrev Reads : CallTraceCfcLex → List Token → CallTraceCfcLex → Prop :=
  CamAlias.Reads lexToken

/-- Outside a control flow the end of a line means nothing. -/
theorem reads_newline {l : CallTraceCfcLex} (h : l.state ≠ .cfc) : Reads l [.newline] l :=
  CamAlias.Reads.token (by simp [lexToken, newline, h])

/-- The entry with more ranges in its invocation pattern. -/
def addInvocationRanges (l : CallTraceCfcLex) (rs : List (Nat × Nat)) : CallTraceCfcLex :=
  { l with callEntry.repetitions := l.callEntry.repetitions ++ rs }

/-- The entry with other instance groups of the current call. -/
def withInstances (l : CallTraceCfcLex) (callInstances : List CallTraceInstanceGroup) :
    CallTraceCfcLex :=
  { l with callEntry := l.callEntry.setCall l.currCallID { callInstances, lut := [] } }

/-- Only the last change of a call counts. -/
@[simp] theorem setCall_setCall (clig : CallTraceLoopInvocationGroup) (callID : UInt64)
    (c c' : CallTraceCall) :
    (clig.setCall callID c).setCall callID c' = clig.setCall callID c' := by
  have hmap : (clig.calls.insert callID c).insert callID c' = clig.calls.insert callID c' := by
    refine Std.ExtTreeMap.ext_getElem? ?_
    intro k
    by_cases hk : callID = k <;> simp [Std.ExtTreeMap.getElem?_insert, hk]
  simp [CallTraceLoopInvocationGroup.setCall, hmap]

@[simp] theorem call_setCall (clig : CallTraceLoopInvocationGroup) (callID : UInt64)
    (c : CallTraceCall) : (clig.setCall callID c).call callID = c := by
  simp [CallTraceLoopInvocationGroup.setCall, CallTraceLoopInvocationGroup.call]

theorem lexToken_invocationPattern {l : CallTraceCfcLex} (hstate : l.state = .invocPattern)
    {t : Token} (ht : IsPatternToken t ∨ t = .closebrace) :
    let r := l.reppat.readRepetitionPattern t
    l.lexToken t = .ok ({ l.addInvocationRanges r.2.toList with
      state := if t = .closebrace then .numCalls else .invocPattern
      reppat := r.1 }, false) := by
  intro r
  have hread : l.readRepetitionPattern t = .ok { l.addInvocationRanges r.2.toList with
      state := if t = .closebrace then .numCalls else .invocPattern
      reppat := r.1 } := by
    cases hr : r.2 with
    | none =>
        have hr' : (l.reppat.readRepetitionPattern t).2 = none := hr
        simp [readRepetitionPattern, hr', hstate, addInvocationRanges, r]
    | some range =>
        have hr' : (l.reppat.readRepetitionPattern t).2 = some range := hr
        simp [readRepetitionPattern, hr', hstate, addInvocationRanges, r,
          CallTraceLoopInvocationGroup.addInvocationPattern, RepetitionPattern.addPair]
  rcases ht with ht | rfl
  · match t, ht with
    | .number v, _ => simp only [lexToken, number, hstate, hread, Except.map]
    | .dash, _ => simp only [lexToken, hstate, hread, Except.map]; simp
    | .comma, _ => simp only [lexToken, hstate, hread, Except.map]; simp
  · simp only [lexToken, hstate, hread, Except.map]
    simp

/-- The loop invocations of an entry. -/
theorem reads_invocationPattern {l : CallTraceCfcLex} (hstate : l.state = .invocPattern)
    (hreppat : l.reppat.reppatState = 0) {ranges : List (Nat × Nat)}
    (hranges : ∀ r ∈ ranges, r.1 ≤ r.2 ∧ r.2 < 2 ^ 64) :
    ∃ reppat, Reads l (rangesTokens ranges ++ [.closebrace])
        { l.addInvocationRanges ranges with state := .numCalls, reppat } ∧
      reppat.reppatState = 0 := by
  let reading : RepPatReader → List (Nat × Nat) → CallTraceCfcLex := fun r rs =>
    { l.addInvocationRanges rs with reppat := r }
  let done : RepPatReader → List (Nat × Nat) → CallTraceCfcLex := fun r rs =>
    { l.addInvocationRanges rs with state := .numCalls, reppat := r }
  have htoken : ∀ r rs t, IsPatternToken t → (reading r rs).lexToken t
      = .ok (reading (r.readRepetitionPattern t).1
          (rs ++ (r.readRepetitionPattern t).2.toList), false) := by
    intro r rs t ht
    have hne : t ≠ .closebrace := by
      rintro rfl
      exact ht
    have hstep := lexToken_invocationPattern (l := reading r rs) hstate (Or.inl ht)
    rw [if_neg hne] at hstep
    simpa [reading, addInvocationRanges, hstate] using hstep
  have hclose : ∀ r rs, (reading r rs).lexToken .closebrace
      = .ok (done (r.readRepetitionPattern .closebrace).1
          (rs ++ (r.readRepetitionPattern .closebrace).2.toList), false) := by
    intro r rs
    have hstep := lexToken_invocationPattern (l := reading r rs) hstate (Or.inr rfl)
    simpa [reading, done, addInvocationRanges] using hstep
  have hstart : reading l.reppat [] = l := by
    simp [reading, addInvocationRanges]
  have := reads_pattern htoken hclose hranges hreppat
  rwa [hstart] at this

theorem lexToken_instancePattern {l : CallTraceCfcLex} (hstate : l.state = .instancePattern)
    (gs : List CallTraceInstanceGroup) (g : CallTraceInstanceGroup) {t : Token}
    (ht : IsPatternToken t ∨ t = .closebrace) :
    let r := l.reppat.readRepetitionPattern t
    (l.withInstances (gs ++ [g])).lexToken t = .ok ({ l.withInstances
        (gs ++ [{ g with repetitions := g.repetitions ++ r.2.toList }]) with
      state := if t = .closebrace then .cfc else .instancePattern
      reppat := r.1 }, false) := by
  intro r
  have hread : (l.withInstances (gs ++ [g])).readRepetitionPattern t = .ok { l.withInstances
        (gs ++ [{ g with repetitions := g.repetitions ++ r.2.toList }]) with
      state := if t = .closebrace then .cfc else .instancePattern
      reppat := r.1 } := by
    cases hr : r.2 with
    | none =>
        have hr' : (l.reppat.readRepetitionPattern t).2 = none := hr
        simp [readRepetitionPattern, hr', hstate, withInstances, r]
    | some range =>
        have hr' : (l.reppat.readRepetitionPattern t).2 = some range := hr
        simp [readRepetitionPattern, hr', hstate, withInstances, r,
          CallTraceLoopInvocationGroup.addCallPattern, CallTraceCall.addCallPattern,
          CallTraceCall.modifyBack, CfcGroup.addPattern, RepetitionPattern.addPair, Except.map]
  have hstate' : (l.withInstances (gs ++ [g])).state = .instancePattern := hstate
  rcases ht with ht | rfl
  · match t, ht with
    | .number v, _ => simp only [lexToken, number, hstate', hread, Except.map]
    | .dash, _ => simp only [lexToken, hstate', hread, Except.map]; simp
    | .comma, _ => simp only [lexToken, hstate', hread, Except.map]; simp
  · simp only [lexToken, hstate', hread, Except.map]
    simp

theorem lexToken_cfc {l : CallTraceCfcLex} (hstate : l.state = .cfc) {t : Token}
    (ht : TracerCompressionPattern.IsCfcToken t) :
    l.lexToken t = (l.readCfc t).map fun l => (l, false) := by
  match t, ht with
  | .number v, _ => simp [lexToken, number, hstate]
  | .comma, _ => simp [lexToken, hstate]
  | .openparen, _ => simp [lexToken, hstate]
  | .closeparen, _ => simp [lexToken, hstate]

/-- The ranges and the control flow of an instance group that has just been added. -/
theorem reads_instanceGroup {l : CallTraceCfcLex} (hstate : l.state = .instancePattern)
    (hreppat : l.reppat.reppatState = 0) (hcfc : l.cfc = CfcReader.init)
    (gs : List CallTraceInstanceGroup) {g : PrintedGroup} (hg : g.Valid) :
    ∃ reppat, Reads (l.withInstances (gs ++ [CfcGroup.new])) (rangesTokens g.ranges
          ++ [.closebrace] ++ TracerCompressionPattern.tokensAll g.patterns)
        { l.withInstances (gs ++ [g.toCfcGroup]) with state := .cfc, reppat } ∧
      reppat.reppatState = 0 := by
  let group : List (Nat × Nat) → List CompressionPattern → CallTraceInstanceGroup := fun rs cps =>
    { repetitions := rs, controlFlow := cps, numInstancesLut := ∅ }
  let reading : RepPatReader → List (Nat × Nat) → CallTraceCfcLex := fun r rs =>
    { l with reppat := r }.withInstances (gs ++ [group rs []])
  let done : RepPatReader → List (Nat × Nat) → CallTraceCfcLex := fun r rs =>
    { l.withInstances (gs ++ [group rs []]) with state := .cfc, reppat := r }
  have htoken : ∀ r rs t, IsPatternToken t → (reading r rs).lexToken t
      = .ok (reading (r.readRepetitionPattern t).1
          (rs ++ (r.readRepetitionPattern t).2.toList), false) := by
    intro r rs t ht
    have hne : t ≠ .closebrace := by
      rintro rfl
      exact ht
    have hstep := lexToken_instancePattern (l := { l with reppat := r }) hstate gs (group rs [])
      (Or.inl ht)
    rw [if_neg hne] at hstep
    simpa [reading, group, withInstances, hstate] using hstep
  have hclose : ∀ r rs, (reading r rs).lexToken .closebrace
      = .ok (done (r.readRepetitionPattern .closebrace).1
          (rs ++ (r.readRepetitionPattern .closebrace).2.toList), false) := by
    intro r rs
    have hstep := lexToken_instancePattern (l := { l with reppat := r }) hstate gs (group rs [])
      (Or.inr rfl)
    simpa [reading, done, group, withInstances] using hstep
  rcases reads_pattern htoken hclose hg.ranges hreppat with ⟨reppat, hpattern, hreppat'⟩
  -- behind the brace the control flow follows
  let flow : CfcReader → List CompressionPattern → CallTraceCfcLex := fun cfc cps =>
    { l.withInstances (gs ++ [group g.ranges cps]) with state := .cfc, reppat, cfc }
  have hflowToken : ∀ cfc cps t, TracerCompressionPattern.IsCfcToken t →
      (flow cfc cps).lexToken t
        = (cfc.readCfc t).map fun d => (flow d.1 (cps ++ d.2.toList), false) := by
    intro cfc cps t ht
    rw [lexToken_cfc rfl ht]
    cases hread : cfc.readCfc t with
    | error e => simp [readCfc, flow, hread, Except.map]
    | ok d =>
        rcases d with ⟨cfc', _ | cp⟩
        · simp [readCfc, flow, hread, Except.map]
        · simp [readCfc, flow, hread, Except.map, CallTraceLoopInvocationGroup.addCallCfc,
            CallTraceCall.addCallCfc, CallTraceCall.modifyBack, CfcGroup.addIntoControlFlow,
            withInstances, group]
  have hflow := reads_controlFlow hflowToken hg.patterns
  have hdone : done reppat g.ranges = flow CfcReader.init [] := by
    simp [done, flow, withInstances, hcfc]
  rw [hdone] at hpattern
  refine ⟨reppat, ?_, hreppat'⟩
  have hend : flow CfcReader.init (TracerCompressionPattern.toCompressionPatterns g.patterns)
      = { l.withInstances (gs ++ [g.toCfcGroup]) with state := .cfc, reppat } := by
    simp [flow, withInstances, hcfc, group, PrintedGroup.toCfcGroup]
  rw [← hend]
  exact hpattern.append hflow

end CallTraceCfcLex
end CamAlias
