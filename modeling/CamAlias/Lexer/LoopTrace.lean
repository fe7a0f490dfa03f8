import CamAlias.Analyser.LoopTraceEntry
import CamAlias.Lexer.EntryStream
import CamAlias.Lexer.Printed
import CamAlias.Lexer.Run

/-!
# LoopTrace — the lexer of the loop trace and its streamer

`loop_trace_cfc_parser.lex` in its second pass, and `LoopTraceStreamer.cpp`.  The lexer returns to
its caller at each completion symbol; `getNextEntry` merges the pieces of an invocation that a dump
has cut, until a piece is marked complete.

The `reads_…` lemmas say what a printed pattern and a printed control flow do to the entry that is
being filled.
-/

namespace CamAlias

open Lib

/-- `LoopTraceCfcLex`. -/
structure LoopTraceCfcLex where
  state : Nat
  rstatus : ReturnStatus
  cfc : CfcReader
  reppat : RepPatReader
  remaining_invoc_entries : Nat
  remaining_iter_entries : Nat
  loopEntry : LoopTraceEntry

namespace LoopTraceCfcLex

/-- `LoopTraceCfcLex::LoopTraceCfcLex`. -/
def init : LoopTraceCfcLex where
  state := 0
  rstatus := .active
  cfc := CfcReader.init
  reppat := { reppatState := 0, invocNum := 0 }
  remaining_invoc_entries := 0
  remaining_iter_entries := 0
  loopEntry := LoopTraceEntry.new

/-- `readRepetitionPattern`: the range goes to the invocations or to the last iteration group. -/
def readRepetitionPattern (l : LoopTraceCfcLex) (t : Token) : Except Fault LoopTraceCfcLex :=
  let (reppat, range) := l.reppat.readRepetitionPattern t
  let state := if t = .closebrace then l.state + 1 else l.state
  match range with
  | none => .ok { l with reppat, state }
  | some (start, «end») =>
      if l.state = 2 then
        .ok { l with reppat, state, loopEntry := l.loopEntry.addInvocationPattern start «end» }
      else
        match l.loopEntry.addIterationPattern start «end» with
        | .ok loopEntry => .ok { l with reppat, state, loopEntry }
        | .error e => .error e

/-- `readCfc`: a finished pattern goes to the last iteration group. -/
def readCfc (l : LoopTraceCfcLex) (t : Token) : Except Fault LoopTraceCfcLex :=
  match l.cfc.readCfc t with
  | .error e => .error e
  | .ok (cfc, none) => .ok { l with cfc }
  | .ok (cfc, some cp) =>
      match l.loopEntry.addCfc cp with
      | .ok loopEntry => .ok { l with cfc, loopEntry }
      | .error e => .error e

/-- The rule for `NUMBER`. -/
def number (l : LoopTraceCfcLex) (value : Nat) : Except Fault LoopTraceCfcLex :=
  if l.state = 0 then .ok { l with state := 1 }
  else if l.state = 1 then
    if 0 < strtoull value then
      .ok { l with
        remaining_invoc_entries := strtoull value
        reppat := { l.reppat with reppatState := 0 }
        state := 2 }
    else .ok { l with remaining_invoc_entries := strtoull value, state := 0 }
  else if l.state = 2 then l.readRepetitionPattern (.number value)
  else if l.state = 3 then
    if 0 < strtoull value then
      .ok { l with
        remaining_iter_entries := strtoull value
        loopEntry := l.loopEntry.addIterationGroup
        reppat := { l.reppat with reppatState := 0 }
        state := 4 }
    else
      .ok { l with
        remaining_iter_entries := strtoull value
        remaining_invoc_entries := l.remaining_invoc_entries - 1
        state := 6 }
  else if l.state = 4 then l.readRepetitionPattern (.number value)
  else if l.state = 5 then l.readCfc (.number value)
  else .error .abort

/-- The rule for the end of a line, which completes a control flow. -/
def newline (l : LoopTraceCfcLex) : LoopTraceCfcLex :=
  if l.state = 5 then
    let remaining_iter_entries := l.remaining_iter_entries - 1
    if 0 < remaining_iter_entries then
      { l with
        remaining_iter_entries
        loopEntry := l.loopEntry.addIterationGroup
        state := 4 }
    else
      { l with
        remaining_iter_entries
        remaining_invoc_entries := l.remaining_invoc_entries - 1
        state := 6 }
  else l

/-- The rules for `INVOC_COMPLETE_SYMBOL` and `INVOC_INCOMPLETE_SYMBOL`. -/
def completion (l : LoopTraceCfcLex) (rstatus : ReturnStatus) : Except Fault LoopTraceCfcLex :=
  if l.state ≠ 6 then .error .abort
  else .ok { l with state := if 0 < l.remaining_invoc_entries then 2 else 0, rstatus }

/-- `looptracecfclex`: one rule, and whether it returns 1. -/
def lexToken (l : LoopTraceCfcLex) (t : Token) : Except Fault (LoopTraceCfcLex × Bool) :=
  match t with
  | .number value => (l.number value).map fun l => (l, false)
  | .dash | .closebrace =>
      if l.state = 2 ∨ l.state = 4 then (l.readRepetitionPattern t).map fun l => (l, false)
      else .ok (l, false)
  | .comma =>
      if l.state = 2 ∨ l.state = 4 then (l.readRepetitionPattern t).map fun l => (l, false)
      else if l.state = 5 then (l.readCfc t).map fun l => (l, false)
      else .ok (l, false)
  | .openparen | .closeparen =>
      if l.state = 5 then (l.readCfc t).map fun l => (l, false) else .ok (l, false)
  | .newline => .ok (l.newline, false)
  | .complete => (l.completion .invocComplete).map fun l => (l, true)
  | .incomplete => (l.completion .invocIncomplete).map fun l => (l, true)

/-! ## Runs of the lexer -/

/-- The lexer gets from `l` to `l'` on `ts`, whatever follows. -/
abbrev Reads : LoopTraceCfcLex → List Token → LoopTraceCfcLex → Prop :=
  CamAlias.Reads lexToken

/-- Outside a control flow the end of a line means nothing. -/
theorem reads_newline {l : LoopTraceCfcLex} (h : l.state ≠ 5) : Reads l [.newline] l :=
  CamAlias.Reads.token (by simp [lexToken, newline, h])

/-- The entry with more ranges in its invocation pattern. -/
def addInvocationRanges (l : LoopTraceCfcLex) (rs : List (Nat × Nat)) : LoopTraceCfcLex :=
  { l with
    loopEntry := { l.loopEntry with
      invocationRepetitionPattern := l.loopEntry.invocationRepetitionPattern ++ rs } }

/-- The entry with other iteration groups. -/
def withIterations (l : LoopTraceCfcLex) (iterations : List IterationGroupCfc) :
    LoopTraceCfcLex :=
  { l with loopEntry.invocation.iterations := iterations }

theorem lexToken_invocationPattern {l : LoopTraceCfcLex} (hstate : l.state = 2) {t : Token}
    (ht : IsPatternToken t ∨ t = .closebrace) :
    let r := l.reppat.readRepetitionPattern t
    l.lexToken t = .ok ({ l.addInvocationRanges r.2.toList with
      state := if t = .closebrace then 3 else 2
      reppat := r.1 }, false) := by
  intro r
  have hread : l.readRepetitionPattern t = .ok { l.addInvocationRanges r.2.toList with
      state := if t = .closebrace then 3 else 2
      reppat := r.1 } := by
    cases hr : r.2 with
    | none =>
        have hr' : (l.reppat.readRepetitionPattern t).2 = none := hr
        simp [readRepetitionPattern, hr', hstate, addInvocationRanges, r]
    | some range =>
        have hr' : (l.reppat.readRepetitionPattern t).2 = some range := hr
        simp [readRepetitionPattern, hr', hstate, addInvocationRanges, r,
          LoopTraceEntry.addInvocationPattern, RepetitionPattern.addPair]
  rcases ht with ht | rfl
  · match t, ht with
    | .number v, _ => simp only [lexToken, number, hstate, hread, Except.map]; simp
    | .dash, _ => simp only [lexToken, hstate, hread, Except.map]; simp
    | .comma, _ => simp only [lexToken, hstate, hread, Except.map]; simp
  · simp only [lexToken, hstate, hread, Except.map]
    simp

/-- The invocation pattern of an entry. -/
theorem reads_invocationPattern {l : LoopTraceCfcLex} (hstate : l.state = 2)
    (hreppat : l.reppat.reppatState = 0) {ranges : List (Nat × Nat)}
    (hranges : ∀ r ∈ ranges, r.1 ≤ r.2 ∧ r.2 < 2 ^ 64) :
    ∃ reppat, Reads l (rangesTokens ranges ++ [.closebrace])
        { l.addInvocationRanges ranges with state := 3, reppat } ∧ reppat.reppatState = 0 := by
  let reading : RepPatReader → List (Nat × Nat) → LoopTraceCfcLex := fun r rs =>
    { l.addInvocationRanges rs with reppat := r }
  let done : RepPatReader → List (Nat × Nat) → LoopTraceCfcLex := fun r rs =>
    { l.addInvocationRanges rs with state := 3, reppat := r }
  have htoken : ∀ r rs t, IsPatternToken t → (reading r rs).lexToken t
      = .ok (reading (r.readRepetitionPattern t).1
          (rs ++ (r.readRepetitionPattern t).2.toList), false) := by
    intro r rs t ht
    have hne : t ≠ .closebrace := by
      rintro rfl
      exact ht
    have hstep := lexToken_invocationPattern (l := reading r rs) hstate (Or.inl ht)
    rw [if_neg hne] at hstep
    simpa [reading, addInvocationRanges, hstate] using hstep
  have hclose : ∀ r rs, (reading r rs).lexToken .closebrace
      = .ok (done (r.readRepetitionPattern .closebrace).1
          (rs ++ (r.readRepetitionPattern .closebrace).2.toList), false) := by
    intro r rs
    have hstep := lexToken_invocationPattern (l := reading r rs) hstate (Or.inr rfl)
    simpa [reading, done, addInvocationRanges] using hstep
  have hstart : reading l.reppat [] = l := by
    simp [reading, addInvocationRanges]
  have := reads_pattern htoken hclose hranges hreppat
  rwa [hstart] at this

theorem lexToken_iterationPattern {l : LoopTraceCfcLex} (hstate : l.state = 4)
    {its : List IterationGroupCfc} {g : IterationGroupCfc}
    (hits : l.loopEntry.invocation.iterations = its ++ [g]) {t : Token}
    (ht : IsPatternToken t ∨ t = .closebrace) :
    let r := l.reppat.readRepetitionPattern t
    l.lexToken t = .ok ({ l.withIterations
        (its ++ [{ g with repetitions := g.repetitions ++ r.2.toList }]) with
      state := if t = .closebrace then 5 else 4
      reppat := r.1 }, false) := by
  intro r
  have hread : l.readRepetitionPattern t = .ok { l.withIterations
        (its ++ [{ g with repetitions := g.repetitions ++ r.2.toList }]) with
      state := if t = .closebrace then 5 else 4
      reppat := r.1 } := by
    cases hr : r.2 with
    | none =>
        have hr' : (l.reppat.readRepetitionPattern t).2 = none := hr
        have hsame : l.withIterations (its ++ [g]) = l := by rw [← hits]; rfl
        simp [readRepetitionPattern, hr', hstate, hsame, r]
    | some range =>
        have hr' : (l.reppat.readRepetitionPattern t).2 = some range := hr
        simp [readRepetitionPattern, hr', hstate, withIterations, r,
          LoopTraceEntry.addIterationPattern, InvocationGroupCfc.addIterationPattern,
          InvocationGroupCfc.modifyBack, hits, CfcGroup.addPattern, RepetitionPattern.addPair]
  rcases ht with ht | rfl
  · match t, ht with
    | .number v, _ => simp only [lexToken, number, hstate, hread, Except.map]; simp
    | .dash, _ => simp only [lexToken, hstate, hread, Except.map]; simp
    | .comma, _ => simp only [lexToken, hstate, hread, Except.map]; simp
  · simp only [lexToken, hstate, hread, Except.map]
    simp

theorem lexToken_cfc {l : LoopTraceCfcLex} (hstate : l.state = 5) {t : Token}
    (ht : TracerCompressionPattern.IsCfcToken t) :
    l.lexToken t = (l.readCfc t).map fun l => (l, false) := by
  match t, ht with
  | .number v, _ => simp [lexToken, number, hstate]
  | .comma, _ => simp [lexToken, hstate]
  | .openparen, _ => simp [lexToken, hstate]
  | .closeparen, _ => simp [lexToken, hstate]

/-- The ranges and the control flow of an iteration group that has just been added. -/
theorem reads_iterationGroup {l : LoopTraceCfcLex} (hstate : l.state = 4)
    (hreppat : l.reppat.reppatState = 0) (hcfc : l.cfc = CfcReader.init)
    {its : List IterationGroupCfc}
    (hits : l.loopEntry.invocation.iterations = its ++ [CfcGroup.new]) {g : PrintedGroup}
    (hg : g.Valid) :
    ∃ reppat, Reads l (rangesTokens g.ranges ++ [.closebrace]
          ++ TracerCompressionPattern.tokensAll g.patterns)
        { l.withIterations (its ++ [g.toCfcGroup]) with state := 5, reppat } ∧
      reppat.reppatState = 0 := by
  let group : List (Nat × Nat) → List CompressionPattern → IterationGroupCfc := fun rs cps =>
    { repetitions := rs, controlFlow := cps, numInstancesLut := ∅ }
  let reading : RepPatReader → List (Nat × Nat) → LoopTraceCfcLex := fun r rs =>
    { l.withIterations (its ++ [group rs []]) with reppat := r }
  let done : RepPatReader → List (Nat × Nat) → LoopTraceCfcLex := fun r rs =>
    { l.withIterations (its ++ [group rs []]) with state := 5, reppat := r }
  have htoken : ∀ r rs t, IsPatternToken t → (reading r rs).lexToken t
      = .ok (reading (r.readRepetitionPattern t).1
          (rs ++ (r.readRepetitionPattern t).2.toList), false) := by
    intro r rs t ht
    have hne : t ≠ .closebrace := by
      rintro rfl
      exact ht
    have hstep := lexToken_iterationPattern (l := reading r rs) (g := group rs []) hstate rfl
      (Or.inl ht)
    rw [if_neg hne] at hstep
    simpa [reading, group, withIterations, hstate] using hstep
  have hclose : ∀ r rs, (reading r rs).lexToken .closebrace
      = .ok (done (r.readRepetitionPattern .closebrace).1
          (rs ++ (r.readRepetitionPattern .closebrace).2.toList), false) := by
    intro r rs
    have hstep := lexToken_iterationPattern (l := reading r rs) (g := group rs []) hstate rfl
      (Or.inr rfl)
    simpa [reading, done, group, withIterations] using hstep
  have hstart : reading l.reppat [] = l := by
    have hnew : its ++ [group [] []] = l.loopEntry.invocation.iterations := hits.symm
    simp only [reading, hnew]
    rfl
  rcases reads_pattern htoken hclose hg.ranges hreppat with ⟨reppat, hpattern, hreppat'⟩
  rw [hstart] at hpattern
  -- behind the brace the control flow follows
  let flow : CfcReader → List CompressionPattern → LoopTraceCfcLex := fun cfc cps =>
    { l.withIterations (its ++ [group g.ranges cps]) with state := 5, reppat, cfc }
  have hflowToken : ∀ cfc cps t, TracerCompressionPattern.IsCfcToken t →
      (flow cfc cps).lexToken t
        = (cfc.readCfc t).map fun d => (flow d.1 (cps ++ d.2.toList), false) := by
    intro cfc cps t ht
    rw [lexToken_cfc rfl ht]
    cases hread : cfc.readCfc t with
    | error e => simp [readCfc, flow, hread, Except.map]
    | ok d =>
        rcases d with ⟨cfc', _ | cp⟩
        · simp [readCfc, flow, hread, Except.map]
        · simp [readCfc, flow, hread, Except.map, LoopTraceEntry.addCfc, InvocationGroupCfc.addCfc,
            InvocationGroupCfc.modifyBack, CfcGroup.addIntoControlFlow, withIterations, group]
  have hflow := reads_controlFlow hflowToken hg.patterns
  have hdone : done reppat g.ranges = flow CfcReader.init [] := by
    simp [done, flow, withIterations, hcfc]
  rw [hdone] at hpattern
  refine ⟨reppat, ?_, hreppat'⟩
  have hend : flow CfcReader.init (TracerCompressionPattern.toCompressionPatterns g.patterns)
      = { l.withIterations (its ++ [g.toCfcGroup]) with state := 5, reppat } := by
    simp [flow, withIterations, hcfc, group, PrintedGroup.toCfcGroup]
  rw [← hend]
  exact hpattern.append hflow

end LoopTraceCfcLex
end CamAlias
