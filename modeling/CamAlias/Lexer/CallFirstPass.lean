import CamAlias.Lexer.CallTraceStreamer
import CamAlias.Lexer.FirstPass

/-!
# CallFirstPass — the lexer of the call trace with `firstPass` set

The counterpart of `Lexer/FirstPass.lean` for the call trace: call IDs and symbols are collected,
invocation numbers are not.
-/

namespace CamAlias

open Lib

/-- `CallTraceCfcLex` in the first pass. -/
structure CallTraceFirstPass where
  rstatus : ReturnStatus
  state : CallTraceState
  cfc : CfcCollector
  reppatState : Nat
  remaining_callinstance_entries : Nat
  remaining_loopinvoc_entries : Nat
  remaining_call_entries : Nat
  currCallID : UInt64
  callList : Finset UInt64

namespace CallTraceFirstPass

/-- `CallTraceCfcLex::CallTraceCfcLex`, with an empty `callList` and `subInstrList`. -/
def init : CallTraceFirstPass where
  rstatus := .active
  state := .numInvoc
  cfc := { cfc_state := 0, instrs := ∅ }
  reppatState := 0
  remaining_callinstance_entries := 0
  remaining_loopinvoc_entries := 0
  remaining_call_entries := 0
  currCallID := 0
  callList := ∅

/-- `readRepetitionPattern` of the first pass. -/
def readRepetitionPattern (l : CallTraceFirstPass) : Token → CallTraceFirstPass
  | .closebrace =>
      { l with
        reppatState := 0
        state := if l.state = .invocPattern then .numCalls else .cfc }
  | _ => l

/-- The rule for `NUMBER`. -/
def number (l : CallTraceFirstPass) (value : Nat) : Except Fault CallTraceFirstPass :=
  match l.state with
  | .numInvoc =>
      .ok { l with remaining_loopinvoc_entries := strtoull value, state := .invocPattern }
  | .invocPattern => .ok (l.readRepetitionPattern (.number value))
  | .numCalls =>
      if 0 < strtoull value then
        .ok { l with remaining_call_entries := strtoull value, state := .callID }
      else
        .ok { l with
          remaining_call_entries := strtoull value
          remaining_loopinvoc_entries := l.remaining_loopinvoc_entries - 1
          state := .dumpEnd }
  | .callID =>
      .ok { l with
        currCallID := UInt64.ofNat (strtoull value)
        callList := insert (UInt64.ofNat (strtoull value)) l.callList
        state := .numInstances }
  | .numInstances =>
      if 0 < strtoull value then
        .ok { l with
          remaining_callinstance_entries := strtoull value
          reppatState := 0
          state := .instancePattern }
      else
        .ok { l with
          remaining_callinstance_entries := strtoull value
          remaining_loopinvoc_entries := l.remaining_loopinvoc_entries - 1
          state := .dumpEnd }
  | .instancePattern => .ok (l.readRepetitionPattern (.number value))
  | .cfc => .ok { l with cfc := l.cfc.readCfc (.number value) }
  | .dumpEnd => .error .abort

/-- The rule for the end of a line. -/
def newline (l : CallTraceFirstPass) : CallTraceFirstPass :=
  if l.state = .cfc then
    let remaining_callinstance_entries := l.remaining_callinstance_entries - 1
    if 0 < remaining_callinstance_entries then
      { l with remaining_callinstance_entries, state := .instancePattern }
    else
      let remaining_call_entries := l.remaining_call_entries - 1
      if 0 < remaining_call_entries then
        { l with remaining_callinstance_entries, remaining_call_entries, state := .callID }
      else
        { l with
          remaining_callinstance_entries
          remaining_call_entries
          remaining_loopinvoc_entries := l.remaining_loopinvoc_entries - 1
          state := .dumpEnd }
  else l

theorem cfc_newline (l : CallTraceFirstPass) : l.newline.cfc = l.cfc := by
  simp only [newline]
  split_ifs <;> rfl

theorem callList_newline (l : CallTraceFirstPass) : l.newline.callList = l.callList := by
  simp only [newline]
  split_ifs <;> rfl

/-- The rules for `INVOC_COMPLETE_SYMBOL` and `INVOC_INCOMPLETE_SYMBOL`. -/
def completion (l : CallTraceFirstPass) (rstatus : ReturnStatus) :
    Except Fault CallTraceFirstPass :=
  if l.state ≠ .dumpEnd then .error .abort
  else
    .ok { l with
      state := if 0 < l.remaining_loopinvoc_entries then .invocPattern else .numInvoc
      rstatus }

/-- One rule, and whether it returns 1. -/
def lexToken (l : CallTraceFirstPass) (t : Token) : Except Fault (CallTraceFirstPass × Bool) :=
  match t with
  | .number value => (l.number value).map fun l => (l, false)
  | .dash | .closebrace =>
      if l.state = .invocPattern ∨ l.state = .instancePattern then
        .ok (l.readRepetitionPattern t, false)
      else .ok (l, false)
  | .comma =>
      if l.state = .invocPattern ∨ l.state = .instancePattern then
        .ok (l.readRepetitionPattern t, false)
      else if l.state = .cfc then .ok ({ l with cfc := l.cfc.readCfc t }, false)
      else .ok (l, false)
  | .openparen | .closeparen =>
      if l.state = .cfc then .ok ({ l with cfc := l.cfc.readCfc t }, false) else .ok (l, false)
  | .newline => .ok (l.newline, false)
  | .complete => (l.completion .invocComplete).map fun l => (l, true)
  | .incomplete => (l.completion .invocIncomplete).map fun l => (l, true)

/-- The tokens get the lexer from `l` to `l'`. -/
abbrev Lexes : CallTraceFirstPass → List Token → CallTraceFirstPass → Prop :=
  LexesAll lexToken

/-- The control state, the symbols and the call IDs so far. -/
structure At (l : CallTraceFirstPass) (state : CallTraceState) (loops calls instances : Nat)
    (named called : UInt64 → Prop) : Prop where
  state : l.state = state
  loops : l.remaining_loopinvoc_entries = loops
  calls : l.remaining_call_entries = calls
  instances : l.remaining_callinstance_entries = instances
  cfc_state : l.cfc.cfc_state = 0
  instrs : ∀ s, s ∈ l.cfc.instrs ↔ named s
  callList : ∀ id, id ∈ l.callList ↔ called id

variable {l : CallTraceFirstPass} {state : CallTraceState} {loops calls instances : Nat}
  {named called : UInt64 → Prop}

theorem At.congr (hl : l.At state loops calls instances named called)
    {named' called' : UInt64 → Prop} (h : ∀ s, named s ↔ named' s)
    (h' : ∀ id, called id ↔ called' id) : l.At state loops calls instances named' called' :=
  ⟨hl.state, hl.loops, hl.calls, hl.instances, hl.cfc_state,
    fun s => (hl.instrs s).trans (h s), fun id => (hl.callList id).trans (h' id)⟩

/-- A repetition pattern, of which only the closing brace counts. -/
theorem lexes_pattern (hl : l.At state loops calls instances named called)
    (hstate : state = .invocPattern ∨ state = .instancePattern) (ranges : List (Nat × Nat)) :
    ∃ l', l.Lexes (rangesTokens ranges ++ [.closebrace]) l' ∧
      l'.At (if state = .invocPattern then .numCalls else .cfc) loops calls instances named
        called := by
  have hread : ∀ (ts : List Token), (∀ t ∈ ts, IsPatternToken t) → l.Lexes ts l := by
    intro ts
    induction ts with
    | nil =>
        intro _
        exact LexesAll.nil
    | cons t ts ih =>
        intro hts
        have hone : l.lexToken t = .ok (l, false) := by
          match t, hts t (by simp) with
          | .number n, _ =>
              rcases hstate with rfl | rfl <;>
                simp [lexToken, number, hl.state, readRepetitionPattern, Except.map]
          | .dash, _ => simp [lexToken, readRepetitionPattern]
          | .comma, _ =>
              rcases hstate with rfl | rfl <;> simp [lexToken, hl.state, readRepetitionPattern]
        exact LexesAll.cons hone (ih fun t' ht' => hts t' (List.mem_cons_of_mem _ ht'))
  refine ⟨l.readRepetitionPattern .closebrace,
    (hread _ isPatternToken_of_mem_rangesTokens).append (LexesAll.consume ?_), ?_⟩
  · rcases hstate with rfl | rfl <;> simp [lexToken, hl.state]
  · exact ⟨by simp only [readRepetitionPattern, hl.state], hl.loops, hl.calls, hl.instances,
      hl.cfc_state, hl.instrs, hl.callList⟩

/-- The control flow of a group. -/
theorem lexes_cfc (hl : l.At .cfc loops calls instances named called)
    (patterns : List TracerCompressionPattern) :
    ∃ l', l.Lexes (TracerCompressionPattern.tokensAll patterns) l' ∧
      l'.At .cfc loops calls instances (fun s => named s ∨ s ∈ CompressionPattern.symbolsAll
        (TracerCompressionPattern.toCompressionPatterns patterns)) called := by
  have htoken : ∀ c t, TracerCompressionPattern.IsCfcToken t →
      lexToken { l with cfc := c } t = .ok ({ l with cfc := c.readCfc t }, false) := by
    intro c t ht
    match t, ht with
    | .number n, _ => simp [lexToken, number, hl.state, Except.map]
    | .comma, _ => simp [lexToken, hl.state]
    | .openparen, _ => simp [lexToken, hl.state]
    | .closeparen, _ => simp [lexToken, hl.state]
  have hread := lexesAll_controlFlow htoken l.cfc patterns
  rcases CfcCollector.mem_foldl_tokensAll hl.cfc_state patterns with ⟨hstate, hmem⟩
  refine ⟨_, hread, hl.state, hl.loops, hl.calls, hl.instances, hstate, ?_, hl.callList⟩
  intro s
  rw [hmem s, hl.instrs s]

/-- The groups of a call, up to the end of the last line. -/
theorem lexes_groups : ∀ (gs : List PrintedGroup) {l : CallTraceFirstPass}
    {named : UInt64 → Prop}, gs ≠ [] → l.At .instancePattern loops calls gs.length named called →
    ∃ l', l.Lexes (gs.flatMap PrintedGroup.tokens) l' ∧
      l'.At (if 0 < calls - 1 then .callID else .dumpEnd)
        (if 0 < calls - 1 then loops else loops - 1) (calls - 1) 0
        (fun s => named s ∨ s ∈ symbolsOf (gs.map PrintedGroup.toCfcGroup)) called := by
  intro gs
  induction gs with
  | nil =>
      intro l named hne
      exact absurd rfl hne
  | cons g gs ih =>
      intro l named _ hl
      rcases lexes_pattern hl (Or.inr rfl) g.ranges with ⟨l₁, hpattern, hl₁⟩
      rcases lexes_cfc hl₁ g.patterns with ⟨l₂, hflow, hl₂⟩
      have hend : l₂.Lexes [.newline] l₂.newline := LexesAll.consume rfl
      have hline : l.Lexes g.tokens l₂.newline := by
        have hall := (hpattern.append hflow).append hend
        simpa [PrintedGroup.tokens] using hall
      have hnamed : ∀ s, s ∈ l₂.cfc.instrs ↔ named s ∨ s ∈ symbolsOf [g.toCfcGroup] := by
        intro s
        rw [hl₂.instrs s, mem_symbolsOf_singleton]
        rfl
      -- the newline behind the last group ends the call, and behind the last call the entry
      cases gs with
      | nil =>
          refine ⟨l₂.newline, by simpa using hline, ?_⟩
          by_cases hmore : 0 < calls - 1
          · have hnewline : l₂.newline = { l₂ with
                remaining_callinstance_entries := 0
                remaining_call_entries := calls - 1
                state := .callID } := by
              simp [newline, hl₂.state, hl₂.instances, hl₂.calls, hmore]
            rw [hnewline, if_pos hmore, if_pos hmore]
            exact ⟨rfl, hl₂.loops, rfl, rfl, hl₂.cfc_state, hnamed, hl₂.callList⟩
          · have hnewline : l₂.newline = { l₂ with
                remaining_callinstance_entries := 0
                remaining_call_entries := calls - 1
                remaining_loopinvoc_entries := loops - 1
                state := .dumpEnd } := by
              simp [newline, hl₂.state, hl₂.instances, hl₂.calls, hl₂.loops, hmore]
            rw [hnewline, if_neg hmore, if_neg hmore]
            exact ⟨rfl, rfl, rfl, rfl, hl₂.cfc_state, hnamed, hl₂.callList⟩
      | cons g' gs =>
          have hnewline : l₂.newline = { l₂ with
              remaining_callinstance_entries := (g' :: gs).length
              state := .instancePattern } := by
            simp [newline, hl₂.state, hl₂.instances]
          have hnext : l₂.newline.At .instancePattern loops calls (g' :: gs).length
              (fun s => named s ∨ s ∈ symbolsOf [g.toCfcGroup]) called := by
            rw [hnewline]
            exact ⟨rfl, hl₂.loops, hl₂.calls, rfl, hl₂.cfc_state, hnamed, hl₂.callList⟩
          rcases ih (by simp) hnext with ⟨l₃, hrest, hl₃⟩
          refine ⟨l₃, ?_, hl₃.congr (fun s => ?_) fun id => Iff.rfl⟩
          · rw [List.flatMap_cons]
            exact hline.append hrest
          · rw [or_assoc, ← mem_symbolsOf_append]
            rfl

/-- Outside a control flow the end of a line means nothing. -/
theorem lexToken_newline (h : l.state ≠ .cfc) : l.lexToken .newline = .ok (l, false) := by
  simp [lexToken, newline, h]

/-- The calls of an entry, up to the end of the last line. -/
theorem lexes_calls : ∀ (items : List (UInt64 × List PrintedGroup)) {l : CallTraceFirstPass}
    {instances : Nat} {named called : UInt64 → Prop}, items ≠ [] →
    (∀ call ∈ items, call.2 ≠ [] ∧ call.2.length < 2 ^ 64) →
    l.At .callID loops items.length instances named called →
    ∃ l', l.Lexes (items.flatMap PrintedCallEntry.callTokens) l' ∧ l'.At .dumpEnd (loops - 1) 0 0
      (fun s => named s ∨ ∃ call ∈ items, s ∈ symbolsOf (call.2.map PrintedGroup.toCfcGroup))
      (fun id => called id ∨ ∃ call ∈ items, call.1 = id) := by
  intro items
  induction items with
  | nil =>
      intro l instances named called hne
      exact absurd rfl hne
  | cons call items ih =>
      intro l instances named called _ hvalid hl
      rcases hvalid call (by simp) with ⟨hne, hlen⟩
      have hpos := List.length_pos_of_ne_nil hne
      have hid : UInt64.ofNat (strtoull call.1.toNat) = call.1 := by
        rw [strtoull_of_lt call.1.toNat_lt]
        exact UInt64.ofNat_toNat
      have hcount : strtoull call.2.length = call.2.length := strtoull_of_lt hlen
      let l₁ : CallTraceFirstPass := { l with
        currCallID := call.1
        callList := insert call.1 l.callList
        state := .numInstances }
      let l₂ : CallTraceFirstPass := { l₁ with
        remaining_callinstance_entries := call.2.length
        reppatState := 0
        state := .instancePattern }
      have hfirst : l.lexToken (.number call.1.toNat) = .ok (l₁, false) := by
        simp [lexToken, number, hl.state, hid, Except.map, l₁]
      have hsecond : l₁.lexToken (.number call.2.length) = .ok (l₂, false) := by
        simp [lexToken, number, l₁, l₂, hcount, hpos, Except.map]
      have hl₂ : l₂.At .instancePattern loops (call :: items).length call.2.length named
          (fun id => called id ∨ call.1 = id) := by
        refine ⟨rfl, hl.loops, hl.calls, rfl, hl.cfc_state, hl.instrs, ?_⟩
        intro id
        simp only [l₂, l₁, Finset.mem_insert, hl.callList id]
        rw [or_comm, eq_comm]
      rcases lexes_groups call.2 hne hl₂ with ⟨l₃, hgroups, hl₃⟩
      have hnotcfc : l₃.state ≠ .cfc := by
        rw [hl₃.state]
        split
        · decide
        · decide
      have hcall : l.Lexes (PrintedCallEntry.callTokens call) l₃ := by
        have hbody := LexesAll.cons (lexToken_newline (l := l₂) (by simp [l₂]))
          (hgroups.append (LexesAll.token (lexToken_newline hnotcfc)))
        have hall := LexesAll.cons hfirst (LexesAll.cons hsecond hbody)
        simpa [PrintedCallEntry.callTokens] using hall
      -- the last call ends the entry of the invocation
      cases items with
      | nil =>
          refine ⟨l₃, by simpa using hcall, ?_⟩
          simpa using hl₃
      | cons call' items =>
          have hmore : 0 < (call :: call' :: items).length - 1 := by simp
          rw [if_pos hmore, if_pos hmore] at hl₃
          rcases ih (by simp) (fun c hc => hvalid c (List.mem_cons_of_mem _ hc)) hl₃ with
            ⟨l₄, hrest, hl₄⟩
          refine ⟨l₄, ?_, hl₄.congr (fun s => ?_) fun id => ?_⟩
          · rw [List.flatMap_cons]
            exact hcall.append hrest
          · simp only [List.mem_cons, exists_eq_or_imp, or_assoc]
          · simp only [List.mem_cons, exists_eq_or_imp, or_assoc]

/-- The symbols of a printed entry. -/
theorem names_toEntry {e : PrintedCallEntry} (hvalid : e.Valid) (s : UInt64) :
    e.toEntry.Names s ↔ ∃ call ∈ e.calls, s ∈ symbolsOf (call.2.map PrintedGroup.toCfcGroup) := by
  have hkeys : (e.calls.map Prod.fst).Nodup := List.pairwise_map.2 hvalid.distinct
  simp only [CallTraceLoopInvocationGroup.Names, PrintedCallEntry.instancesOf_toEntry hvalid]
  constructor
  · rintro ⟨id, hs⟩
    cases hlookup : e.calls.lookup id with
    | none => simp [hlookup, symbolsOf] at hs
    | some gs =>
        rw [hlookup, Option.getD_some] at hs
        exact ⟨(id, gs), HashTable.mem_of_lookup hlookup, hs⟩
  · rintro ⟨call, hcall, hs⟩
    refine ⟨call.1, ?_⟩
    rwa [HashTable.lookup_of_mem hkeys hcall, Option.getD_some]

/-- The call IDs of a printed entry. -/
theorem hasCall_toEntry (e : PrintedCallEntry) (id : UInt64) :
    e.toEntry.HasCall id ↔ ∃ call ∈ e.calls, call.1 = id := by
  have hfold : ∀ (calls : List (UInt64 × List PrintedGroup)) (clig : CallTraceLoopInvocationGroup),
      (calls.foldl PrintedCallEntry.addCall clig).HasCall id ↔
        clig.HasCall id ∨ ∃ call ∈ calls, call.1 = id := by
    intro calls
    induction calls with
    | nil =>
        intro clig
        simp
    | cons call calls ih =>
        intro clig
        have hcompare : compare call.1 id = .eq ↔ call.1 = id := by simp
        rw [List.foldl_cons, ih]
        simp only [CallTraceLoopInvocationGroup.HasCall, PrintedCallEntry.addCall,
          CallTraceLoopInvocationGroup.setCall, Std.ExtTreeMap.mem_insert, List.mem_cons,
          exists_eq_or_imp, hcompare]
        tauto
  rw [PrintedCallEntry.toEntry, hfold]
  simp [CallTraceLoopInvocationGroup.HasCall, CallTraceLoopInvocationGroup.new]

/-- An entry: its loop invocations, the number of its calls and the calls. -/
theorem lexes_entry {e : PrintedCallEntry} (hvalid : e.Valid)
    (hl : l.At .invocPattern loops calls instances named called) :
    ∃ l', l.Lexes e.tokens l' ∧ l'.At .dumpEnd (loops - 1) 0 l'.remaining_callinstance_entries
      (fun s => named s ∨ e.toEntry.Names s) (fun id => called id ∨ e.toEntry.HasCall id) := by
  rcases lexes_pattern hl (Or.inl rfl) e.ranges with ⟨l₃, hpattern, hl₃⟩
  rw [if_pos rfl] at hl₃
  have hcount : strtoull e.calls.length = e.calls.length := strtoull_of_lt hvalid.length_lt
  by_cases hempty : e.calls = []
  · -- no call: the lexer waits for the completion symbol at once
    let l₆ : CallTraceFirstPass := { l₃ with
      remaining_call_entries := 0
      remaining_loopinvoc_entries := loops - 1
      state := .dumpEnd }
    have hnumber : l₃.lexToken (.number e.calls.length) = .ok (l₆, false) := by
      have hzero : strtoull 0 = 0 := strtoull_of_lt (by decide)
      simp [lexToken, number, hl₃.state, hl₃.loops, l₆, hempty, hzero, Except.map]
    refine ⟨l₆, ?_, ⟨rfl, rfl, rfl, rfl, hl₃.cfc_state, fun s => ?_, fun id => ?_⟩⟩
    · have hend : l₃.Lexes [.number e.calls.length, .newline] l₆ :=
        LexesAll.cons hnumber (LexesAll.token (lexToken_newline (by simp [l₆])))
      have hall := hpattern.append hend
      simpa [PrintedCallEntry.tokens, hempty] using hall
    · rw [names_toEntry hvalid, hempty]
      simpa [l₆] using hl₃.instrs s
    · rw [hasCall_toEntry, hempty]
      simpa [l₆] using hl₃.callList id
  · have hpos : 0 < e.calls.length := List.length_pos_of_ne_nil hempty
    let l₄ : CallTraceFirstPass := { l₃ with
      remaining_call_entries := e.calls.length
      state := .callID }
    have hnumber : l₃.lexToken (.number e.calls.length) = .ok (l₄, false) := by
      simp [lexToken, number, hl₃.state, l₄, hcount, hpos, Except.map]
    have hl₄ : l₄.At .callID loops e.calls.length instances named called :=
      ⟨rfl, hl₃.loops, rfl, hl₃.instances, hl₃.cfc_state, hl₃.instrs, hl₃.callList⟩
    rcases lexes_calls e.calls hempty (fun c hc => ⟨(hvalid.calls c hc).1, (hvalid.calls c hc).2.1⟩)
      hl₄ with ⟨l₆, hcalls, hl₆⟩
    refine ⟨l₆, ?_, ?_⟩
    · have hend : l₃.Lexes (.number e.calls.length :: .newline ::
          e.calls.flatMap PrintedCallEntry.callTokens) l₆ :=
        LexesAll.cons hnumber (LexesAll.cons (lexToken_newline (by simp [l₄])) hcalls)
      have hall := hpattern.append hend
      simpa [PrintedCallEntry.tokens] using hall
    · rw [hl₆.instances]
      refine hl₆.congr (fun s => ?_) fun id => ?_
      · rw [names_toEntry hvalid]
      · rw [hasCall_toEntry]

/-- The completion symbol and the empty lines around it. -/
theorem lexes_completion (hl : l.At .dumpEnd loops calls instances named called)
    (loopRunning : Bool) :
    ∃ l', l.Lexes [.newline, dumpToken loopRunning, .newline] l' ∧
      l'.At (if 0 < loops then .invocPattern else .numInvoc) loops calls instances named called := by
  let l' : CallTraceFirstPass := { l with
    state := if 0 < l.remaining_loopinvoc_entries then .invocPattern else .numInvoc
    rstatus := dumpStatus loopRunning }
  have hsymbol : l.lexToken (dumpToken loopRunning) = .ok (l', true) := by
    cases loopRunning <;>
      simp [dumpToken, dumpStatus, lexToken, completion, hl.state, Except.map, l']
  have hstate : l'.state = if 0 < loops then .invocPattern else .numInvoc := by
    simp only [l', hl.loops]
  have hne : l'.state ≠ .cfc := by
    rw [hstate]
    split
    · decide
    · decide
  have hskip : l.lexToken .newline = .ok (l, false) := lexToken_newline (by simp [hl.state])
  refine ⟨l', LexesAll.cons hskip (LexesAll.cons hsymbol (LexesAll.token (lexToken_newline hne))), ?_⟩
  exact ⟨hstate, hl.loops, hl.calls, hl.instances, hl.cfc_state, hl.instrs, hl.callList⟩

/-- The entries of one write. -/
theorem lexes_entries (loopRunning : Bool) : ∀ (es : List PrintedCallEntry)
    {l : CallTraceFirstPass} {calls instances : Nat} {named called : UInt64 → Prop}, es ≠ [] →
    (∀ e ∈ es, e.Valid) → l.At .invocPattern es.length calls instances named called →
    ∃ l', l.Lexes (callEntriesTokens loopRunning es) l' ∧ l'.At .numInvoc 0 0
      l'.remaining_callinstance_entries
      (fun s => named s ∨ ∃ e ∈ es, e.toEntry.Names s)
      (fun id => called id ∨ ∃ e ∈ es, e.toEntry.HasCall id) := by
  intro es
  induction es with
  | nil =>
      intro l calls instances named called hne
      exact absurd rfl hne
  | cons e es ih =>
      intro l calls instances named called _ hvalid hl
      rcases lexes_entry (hvalid e (by simp)) hl with ⟨l₁, hentry, hl₁⟩
      cases es with
      | nil =>
          rcases lexes_completion hl₁ loopRunning with ⟨l₂, hend, hl₂⟩
          refine ⟨l₂, ?_, ?_⟩
          · have hall := hentry.append hend
            simpa [callEntriesTokens] using hall
          · rw [hl₂.instances]
            simpa using hl₂
      | cons e' es =>
          rcases lexes_completion hl₁ false with ⟨l₂, hend, hl₂⟩
          have hmore : 0 < (e :: e' :: es).length - 1 := by simp
          rw [if_pos hmore] at hl₂
          rcases ih (by simp) (fun i hi => hvalid i (List.mem_cons_of_mem _ hi)) hl₂ with
            ⟨l₃, hrest, hl₃⟩
          refine ⟨l₃, ?_, hl₃.congr (fun s => ?_) fun id => ?_⟩
          · have hall := (hentry.append hend).append hrest
            simpa [callEntriesTokens, dumpToken] using hall
          · simp only [List.mem_cons, exists_eq_or_imp, or_assoc]
          · simp only [List.mem_cons, exists_eq_or_imp, or_assoc]

/-- The chunks of a file. -/
theorem lexes_chunks : ∀ (chunks : List CallTraceChunk) {l : CallTraceFirstPass}
    {loops calls instances : Nat} {named called : UInt64 → Prop}, (∀ c ∈ chunks, c.Valid) →
    l.At .numInvoc loops calls instances named called →
    ∃ l', l.Lexes (chunks.flatMap CallTraceChunk.tokens) l' ∧
      (∀ s, s ∈ l'.cfc.instrs ↔ named s ∨ ∃ c ∈ chunks, ∃ e ∈ c.entries, e.toEntry.Names s) ∧
      ∀ id, id ∈ l'.callList ↔ called id ∨ ∃ c ∈ chunks, ∃ e ∈ c.entries, e.toEntry.HasCall id := by
  intro chunks
  induction chunks with
  | nil =>
      intro l loops calls instances named called _ hl
      exact ⟨l, LexesAll.nil, by simpa using hl.instrs, by simpa using hl.callList⟩
  | cons c chunks ih =>
      intro l loops calls instances named called hvalid hl
      have hc := hvalid c (by simp)
      have hcount : strtoull c.entries.length = c.entries.length := strtoull_of_lt hc.length_lt
      let l₂ : CallTraceFirstPass := { l with
        remaining_loopinvoc_entries := c.entries.length
        state := .invocPattern }
      have hnumber : l.lexToken (.number c.entries.length) = .ok (l₂, false) := by
        simp [lexToken, number, hl.state, hcount, Except.map, l₂]
      have hnewline : l₂.lexToken .newline = .ok (l₂, false) := lexToken_newline (by simp [l₂])
      have hl₂ : l₂.At .invocPattern c.entries.length calls instances named called :=
        ⟨rfl, rfl, hl.calls, hl.instances, hl.cfc_state, hl.instrs, hl.callList⟩
      rcases lexes_entries c.loopRunning c.entries hc.nonempty hc.entries hl₂ with
        ⟨l₃, hentries, hl₃⟩
      rcases ih (fun c' hc' => hvalid c' (List.mem_cons_of_mem _ hc')) hl₃ with
        ⟨l₄, hrest, hnamed, hcalled⟩
      refine ⟨l₄, ?_, fun s => ?_, fun id => ?_⟩
      · have hheader : l.Lexes [.number c.entries.length, .newline] l₂ :=
          LexesAll.cons hnumber (LexesAll.token hnewline)
        have hall := (hheader.append hentries).append hrest
        simpa [CallTraceChunk.tokens] using hall
      · rw [hnamed s]
        simp only [List.mem_cons, exists_eq_or_imp, or_assoc]
      · rw [hcalled id]
        simp only [List.mem_cons, exists_eq_or_imp, or_assoc]

end CallTraceFirstPass

namespace CallTraceStreamer

/-- `parseForInstructionLists`: the call IDs, and the instructions inside calls. -/
def parseForInstructionLists (callTrace : List BzRead) :
    Except Fault (Finset UInt64 × Finset UInt64) :=
  let parser := BlockReader.new callTrace
  match BlockReader.parseAll cfcScanner CallTraceFirstPass.lexToken (parser.calls cfcScanner + 1)
      CallTraceFirstPass.init parser with
  | .error e => .error e
  | .ok l => .ok (l.callList, l.cfc.instrs)

theorem exists_mem_items (P : CallTraceLoopInvocationGroup → Prop) (chunks : List CallTraceChunk) :
    (∃ item ∈ chunks.flatMap CallTraceChunk.items, P item.1) ↔
      ∃ c ∈ chunks, ∃ e ∈ c.entries, P e.toEntry := by
  have hchunk : ∀ c : CallTraceChunk,
      (∃ item ∈ c.items, P item.1) ↔ ∃ e ∈ c.entries, P e.toEntry := by
    intro c
    rw [CallTraceChunk.items, exists_mem_pieces]
    simp
  constructor
  · rintro ⟨item, hitem, h⟩
    rcases List.mem_flatMap.1 hitem with ⟨c, hc, hitem⟩
    exact ⟨c, hc, (hchunk c).1 ⟨item, hitem, h⟩⟩
  · rintro ⟨c, hc, h⟩
    rcases (hchunk c).2 h with ⟨item, hitem, h⟩
    exact ⟨item, List.mem_flatMap.2 ⟨c, hc, hitem⟩, h⟩

/-- The first pass collects the call IDs and the symbols of all entries. -/
theorem parseForInstructionLists_eq {callTrace : List BzRead} {chunks : List CallTraceChunk}
    (hvalid : ∀ c ∈ chunks, c.Valid)
    (hfile : Tells callTrace (chunks.flatMap CallTraceChunk.tokens)) :
    ∃ callList subInstrList, parseForInstructionLists callTrace = .ok (callList, subInstrList) ∧
      (∀ id, id ∈ callList ↔ ∃ item ∈ chunks.flatMap CallTraceChunk.items, item.1.HasCall id) ∧
      ∀ s, s ∈ subInstrList ↔ ∃ item ∈ chunks.flatMap CallTraceChunk.items, item.1.Names s := by
  have hinit : CallTraceFirstPass.init.At .numInvoc 0 0 0 (fun _ => False) (fun _ => False) :=
    ⟨rfl, rfl, rfl, rfl, rfl, by simp [CallTraceFirstPass.init], by simp [CallTraceFirstPass.init]⟩
  rcases CallTraceFirstPass.lexes_chunks chunks hvalid hinit with ⟨l, hlexes, hnamed, hcalled⟩
  rcases hfile.parseAll hlexes with ⟨l₁, hall, hlast⟩
  have hsame : l₁.callList = l.callList ∧ l₁.cfc = l.cfc := by
    rcases hlast with rfl | ⟨more, hnewline⟩
    · exact ⟨rfl, rfl⟩
    · rcases Prod.mk.inj (Except.ok.inj hnewline) with ⟨rfl, -⟩
      rw [CallTraceFirstPass.callList_newline, CallTraceFirstPass.cfc_newline]
      exact ⟨rfl, rfl⟩
  refine ⟨l.callList, l.cfc.instrs, ?_, ?_, ?_⟩
  · simp only [parseForInstructionLists, hall, hsame.1, hsame.2]
  · intro id
    rw [hcalled id, exists_mem_items fun e => e.HasCall id, false_or]
  · intro s
    rw [hnamed s, exists_mem_items fun e => e.Names s, false_or]

end CallTraceStreamer

/-! ## Both passes -/

namespace CallTraceLoopInvocationGroup

variable {e piece e' : CallTraceLoopInvocationGroup}

/-- A piece that is merged is not empty. -/
theorem joinPiece_eq_ok (h : CallTraceStreamer.entryStream.joinPiece e piece = .ok e') :
    piece.isEmpty = false ∧ e.mergeIntoAndReturnRemaining piece = .ok (e', []) := by
  rcases EntryStream.joinPiece_eq_ok h with ⟨hoverlap, hmerge⟩
  refine ⟨?_, hmerge⟩
  cases hpattern : piece.repetitions with
  | nil =>
      simp only [CallTraceStreamer.entryStream, lastAndFirstInvocationOverlap,
        getFirstInvocationNumber, hpattern, RepetitionPattern.getFirstInstance, sameNumber]
        at hoverlap
      split at hoverlap <;> simp_all
  | cons r rs => simp [isEmpty, hpattern]

theorem names_joinPiece (h : CallTraceStreamer.entryStream.joinPiece e piece = .ok e')
    (s : CSymbol) : e'.Names s ↔ e.Names s ∨ piece.Names s :=
  names_mergeInto (joinPiece_eq_ok h).1 (joinPiece_eq_ok h).2

theorem hasCall_joinPiece (h : CallTraceStreamer.entryStream.joinPiece e piece = .ok e')
    (id : UInt64) : e'.HasCall id ↔ e.HasCall id ∨ piece.HasCall id :=
  hasCall_mergeInto (joinPiece_eq_ok h).1 (joinPiece_eq_ok h).2

end CallTraceLoopInvocationGroup

namespace CallTraceStreamer

/-- The first pass finds the call IDs and the symbols of the entries that the second pass puts
together. -/
theorem parseForInstructionLists_of_joinEntries {callTrace : List BzRead}
    {chunks : List CallTraceChunk} {es : List CallTraceLoopInvocationGroup}
    (hvalid : ∀ c ∈ chunks, c.Valid)
    (hfile : Tells callTrace (chunks.flatMap CallTraceChunk.tokens))
    (hjoin : entryStream.joinEntries none (chunks.flatMap CallTraceChunk.items) = .ok (es, none)) :
    ∃ callList subInstrList, parseForInstructionLists callTrace = .ok (callList, subInstrList) ∧
      (∀ id, id ∈ callList ↔ ∃ e ∈ es, e.HasCall id) ∧
      ∀ s, s ∈ subInstrList ↔ ∃ e ∈ es, e.Names s := by
  rcases parseForInstructionLists_eq hvalid hfile with
    ⟨callList, subInstrList, hparse, hcalls, hnames⟩
  refine ⟨callList, subInstrList, hparse, ?_, ?_⟩
  · intro id
    have hall := EntryStream.exists_joinEntries (Q := fun _ => True) (P := fun e => e.HasCall id)
      (fun e piece e' _ _ h => ⟨trivial, CallTraceLoopInvocationGroup.hasCall_joinPiece h id⟩) hjoin
      (by simp) (fun _ _ => trivial)
    rw [hcalls id]
    simpa using hall.symm
  · intro s
    have hall := EntryStream.exists_joinEntries (Q := fun _ => True) (P := fun e => e.Names s)
      (fun e piece e' _ _ h => ⟨trivial, CallTraceLoopInvocationGroup.names_joinPiece h s⟩) hjoin
      (by simp) (fun _ _ => trivial)
    rw [hnames s]
    simpa using hall.symm

end CallTraceStreamer
end CamAlias
