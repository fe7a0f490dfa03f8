import CamAlias.Analyser.Symbols
import CamAlias.Lexer.LoopTraceFile
import Mathlib.Data.Finset.Basic
import Mathlib.Data.Finset.Dedup

/-!
# FirstPass — the lexers with `firstPass` set

Before the traces are read entry by entry, `parseForInstructionList` and `parseForInstructionLists`
run the lexers once over the whole files.  The same rules then keep no stack and no entry: they
collect the symbols, the call IDs and the largest invocation number.

`LoopTraceStreamer.parseForInstructionList_eq`: on chunks the first pass collects exactly the symbols
that the entries of the second pass have.
-/

namespace CamAlias

open Lib

/-! ## Control flows -/

/-- The part of the lexer states that `readCfc` works on in the first pass. -/
structure CfcCollector where
  cfc_state : Nat
  instrs : Finset UInt64

namespace CfcCollector

/-- `readCfc` of the first pass: a number behind a comma is a repetition count. -/
def readCfc (c : CfcCollector) : Token → CfcCollector
  | .number value =>
      if c.cfc_state = 1 then { c with cfc_state := 0 }
      else { c with instrs := insert (UInt64.ofNat (strtoull value)) c.instrs }
  | .comma => { c with cfc_state := 1 }
  | _ => c

open TracerCompressionPattern

mutual

/-- The leaves of a printed pattern are collected. -/
theorem foldl_tokens : ∀ (p : TracerCompressionPattern) (instrs : Finset UInt64),
    (tokens p).foldl readCfc ⟨0, instrs⟩
      = ⟨0, instrs ∪ (toCompressionPattern p).symbols.toFinset⟩
  | .sym s, instrs => by
      have hs := ofNat_strtoull_toNat s
      have hinsert : insert s instrs = instrs ∪ [s].toFinset := by
        ext x
        rw [Finset.mem_insert, Finset.mem_union, List.mem_toFinset, List.mem_singleton, or_comm]
      rw [toCompressionPattern, CompressionPattern.symbols, ← hinsert]
      simp [tokens, readCfc, hs]
  | .rep ps n, instrs => by
      have hbody := foldl_tokensAll ps instrs
      simp only [tokens, List.foldl_append, List.foldl_cons, List.foldl_nil]
      simp only [readCfc, hbody, if_true, toCompressionPattern, CompressionPattern.symbols]

theorem foldl_tokensAll : ∀ (ps : List TracerCompressionPattern) (instrs : Finset UInt64),
    (tokensAll ps).foldl readCfc ⟨0, instrs⟩
      = ⟨0, instrs ∪ (CompressionPattern.symbolsAll (toCompressionPatterns ps)).toFinset⟩
  | [], instrs => by simp [tokensAll, toCompressionPatterns]
  | p :: ps, instrs => by
      rw [tokensAll, List.foldl_append, foldl_tokens p, foldl_tokensAll ps]
      congr 1
      ext x
      simp [toCompressionPatterns, CompressionPattern.symbolsAll]

end

/-- The symbols of a control flow that is about to be read join those collected. -/
theorem mem_foldl_tokensAll {c : CfcCollector} (hc : c.cfc_state = 0)
    (ps : List TracerCompressionPattern) :
    let c' := (tokensAll ps).foldl readCfc c
    c'.cfc_state = 0 ∧ ∀ s, s ∈ c'.instrs ↔
      s ∈ c.instrs ∨ s ∈ CompressionPattern.symbolsAll (toCompressionPatterns ps) := by
  intro c'
  have hstart : c = ⟨0, c.instrs⟩ := by
    rw [← hc]
  have hend : c' = ⟨0, c.instrs ∪
      (CompressionPattern.symbolsAll (toCompressionPatterns ps)).toFinset⟩ := by
    simp only [c']
    rw [hstart]
    exact foldl_tokensAll ps c.instrs
  rw [hend]
  exact ⟨rfl, fun s => by rw [Finset.mem_union, List.mem_toFinset]⟩

end CfcCollector

/-- A lexer that passes the tokens of a control flow on collects its symbols. -/
theorem lexesAll_controlFlow {L : Type} {lexToken : L → Token → Except Fault (L × Bool)}
    {reading : CfcCollector → L}
    (htoken : ∀ c t, TracerCompressionPattern.IsCfcToken t →
      lexToken (reading c) t = .ok (reading (c.readCfc t), false))
    (c : CfcCollector) (patterns : List TracerCompressionPattern) :
    LexesAll lexToken (reading c) (TracerCompressionPattern.tokensAll patterns)
      (reading ((TracerCompressionPattern.tokensAll patterns).foldl CfcCollector.readCfc c)) := by
  have hread : ∀ (ts : List Token), (∀ t ∈ ts, TracerCompressionPattern.IsCfcToken t) →
      ∀ c : CfcCollector,
        LexesAll lexToken (reading c) ts (reading (ts.foldl CfcCollector.readCfc c)) := by
    intro ts
    induction ts with
    | nil =>
        intro _ c
        exact LexesAll.nil
    | cons t ts ih =>
        intro hts c
        have hrest := ih (fun t' ht' => hts t' (List.mem_cons_of_mem _ ht')) (c.readCfc t)
        exact LexesAll.cons (htoken c t (hts t (by simp))) hrest
  exact hread _ (TracerCompressionPattern.isCfcToken_of_mem_tokensAll patterns) c

/-! ## The loop trace -/

/-- `LoopTraceCfcLex` in the first pass. -/
structure LoopTraceFirstPass where
  state : Nat
  rstatus : ReturnStatus
  cfc : CfcCollector
  reppatState : Nat
  invocNum : Nat
  remaining_invoc_entries : Nat
  remaining_iter_entries : Nat
  numInvoc : Nat

namespace LoopTraceFirstPass

/-- `LoopTraceCfcLex::LoopTraceCfcLex`, with an empty `instructionList` and `numInvoc` 0. -/
def init : LoopTraceFirstPass where
  state := 0
  rstatus := .active
  cfc := { cfc_state := 0, instrs := ∅ }
  reppatState := 0
  invocNum := 0
  remaining_invoc_entries := 0
  remaining_iter_entries := 0
  numInvoc := 0

/-- `readRepetitionPattern` of the first pass. -/
def readRepetitionPattern (l : LoopTraceFirstPass) : Token → LoopTraceFirstPass
  | .closebrace => { l with reppatState := 0, state := l.state + 1 }
  | .number value =>
      { l with
        invocNum := strtoull value
        numInvoc := if l.state = 2 ∧ l.numInvoc < strtoull value then strtoull value
          else l.numInvoc }
  | _ => l

/-- The rule for `NUMBER`. -/
def number (l : LoopTraceFirstPass) (value : Nat) : Except Fault LoopTraceFirstPass :=
  if l.state = 0 then .ok { l with state := 1 }
  else if l.state = 1 then
    if 0 < strtoull value then
      .ok { l with remaining_invoc_entries := strtoull value, reppatState := 0, state := 2 }
    else .ok { l with remaining_invoc_entries := strtoull value, state := 0 }
  else if l.state = 2 then .ok (l.readRepetitionPattern (.number value))
  else if l.state = 3 then
    if 0 < strtoull value then
      .ok { l with remaining_iter_entries := strtoull value, reppatState := 0, state := 4 }
    else
      .ok { l with
        remaining_iter_entries := strtoull value
        remaining_invoc_entries := l.remaining_invoc_entries - 1
        state := 6 }
  else if l.state = 4 then .ok (l.readRepetitionPattern (.number value))
  else if l.state = 5 then .ok { l with cfc := l.cfc.readCfc (.number value) }
  else .error .abort

/-- The rule for the end of a line. -/
def newline (l : LoopTraceFirstPass) : LoopTraceFirstPass :=
  if l.state = 5 then
    let remaining_iter_entries := l.remaining_iter_entries - 1
    if 0 < remaining_iter_entries then { l with remaining_iter_entries, state := 4 }
    else
      { l with
        remaining_iter_entries
        remaining_invoc_entries := l.remaining_invoc_entries - 1
        state := 6 }
  else l

theorem cfc_newline (l : LoopTraceFirstPass) : l.newline.cfc = l.cfc := by
  simp only [newline]
  split_ifs <;> rfl

theorem numInvoc_newline (l : LoopTraceFirstPass) : l.newline.numInvoc = l.numInvoc := by
  simp only [newline]
  split_ifs <;> rfl

/-- The rules for `INVOC_COMPLETE_SYMBOL` and `INVOC_INCOMPLETE_SYMBOL`. -/
def completion (l : LoopTraceFirstPass) (rstatus : ReturnStatus) :
    Except Fault LoopTraceFirstPass :=
  if l.state ≠ 6 then .error .abort
  else .ok { l with state := if 0 < l.remaining_invoc_entries then 2 else 0, rstatus }

/-- One rule, and whether it returns 1. -/
def lexToken (l : LoopTraceFirstPass) (t : Token) : Except Fault (LoopTraceFirstPass × Bool) :=
  match t with
  | .number value => (l.number value).map fun l => (l, false)
  | .dash | .closebrace =>
      if l.state = 2 ∨ l.state = 4 then .ok (l.readRepetitionPattern t, false) else .ok (l, false)
  | .comma =>
      if l.state = 2 ∨ l.state = 4 then .ok (l.readRepetitionPattern t, false)
      else if l.state = 5 then .ok ({ l with cfc := l.cfc.readCfc t }, false)
      else .ok (l, false)
  | .openparen | .closeparen =>
      if l.state = 5 then .ok ({ l with cfc := l.cfc.readCfc t }, false) else .ok (l, false)
  | .newline => .ok (l.newline, false)
  | .complete => (l.completion .invocComplete).map fun l => (l, true)
  | .incomplete => (l.completion .invocIncomplete).map fun l => (l, true)

/-- The tokens get the lexer from `l` to `l'`. -/
abbrev Lexes : LoopTraceFirstPass → List Token → LoopTraceFirstPass → Prop :=
  LexesAll lexToken

/-- The control state, the symbols and the largest invocation number so far. -/
structure At (l : LoopTraceFirstPass) (state invocs iters : Nat) (named : CSymbol → Prop)
    (top : Nat) : Prop where
  state : l.state = state
  invocs : l.remaining_invoc_entries = invocs
  iters : l.remaining_iter_entries = iters
  cfc_state : l.cfc.cfc_state = 0
  instrs : ∀ s, s ∈ l.cfc.instrs ↔ named s
  numInvoc : l.numInvoc = top

variable {l : LoopTraceFirstPass} {state invocs iters top : Nat} {named : CSymbol → Prop}

/-- The largest number so far, and the ends of further ranges. -/
def topOf (top : Nat) (ranges : List (Nat × Nat)) : Nat :=
  ranges.foldl (fun top r => max top r.2) top

theorem lexes_rangeTokens (hl : l.At 2 invocs iters named top) {r : Nat × Nat}
    (hr : r.1 ≤ r.2 ∧ r.2 < 2 ^ 64) :
    ∃ l', l.Lexes (rangeTokens r) l' ∧ l'.At 2 invocs iters named (max top r.2) := by
  have hnumber : ∀ (l : LoopTraceFirstPass) (top n : Nat), l.At 2 invocs iters named top →
      n < 2 ^ 64 → ∃ l', l.lexToken (.number n) = .ok (l', false) ∧
        l'.At 2 invocs iters named (max top n) := by
    intro l top n hl hn
    refine ⟨l.readRepetitionPattern (.number n), ?_, ?_⟩
    · simp [lexToken, number, hl.state, Except.map]
    · refine ⟨hl.state, hl.invocs, hl.iters, hl.cfc_state, hl.instrs, ?_⟩
      simp only [readRepetitionPattern, hl.state, hl.numInvoc, strtoull_of_lt hn, true_and]
      split
      · omega
      · omega
  rcases hnumber l top r.1 hl (by omega) with ⟨l₁, hfirst, hl₁⟩
  by_cases heq : r.1 = r.2
  · refine ⟨l₁, ?_, heq ▸ hl₁⟩
    rw [rangeTokens, if_pos heq]
    exact LexesAll.token hfirst
  · have hdash : l₁.lexToken .dash = .ok (l₁, false) := by
      simp [lexToken, hl₁.state, readRepetitionPattern]
    rcases hnumber l₁ _ r.2 hl₁ hr.2 with ⟨l₂, hsecond, hl₂⟩
    have htop : max (max top r.1) r.2 = max top r.2 := by omega
    refine ⟨l₂, ?_, htop ▸ hl₂⟩
    rw [rangeTokens, if_neg heq]
    exact LexesAll.cons hfirst (LexesAll.cons hdash (LexesAll.token hsecond))

/-- The invocations of an entry. -/
theorem lexes_invocationPattern (ranges : List (Nat × Nat)) :
    ∀ {l : LoopTraceFirstPass} {top : Nat}, l.At 2 invocs iters named top →
      (∀ r ∈ ranges, r.1 ≤ r.2 ∧ r.2 < 2 ^ 64) →
      ∃ l', l.Lexes (rangesTokens ranges ++ [.closebrace]) l' ∧
        l'.At 3 invocs iters named (topOf top ranges) := by
  have hclose : ∀ {l : LoopTraceFirstPass} {top : Nat}, l.At 2 invocs iters named top →
      ∃ l', l.Lexes [.closebrace] l' ∧ l'.At 3 invocs iters named top := by
    intro l top hl
    refine ⟨l.readRepetitionPattern .closebrace, LexesAll.consume ?_, ?_⟩
    · simp [lexToken, hl.state]
    · exact ⟨by simp [readRepetitionPattern, hl.state], hl.invocs, hl.iters, hl.cfc_state,
        hl.instrs, hl.numInvoc⟩
  induction ranges with
  | nil =>
      intro l top hl _
      exact hclose hl
  | cons r ranges ih =>
      intro l top hl hranges
      rcases lexes_rangeTokens hl (hranges r (by simp)) with ⟨l₁, hone, hl₁⟩
      cases ranges with
      | nil =>
          rcases hclose hl₁ with ⟨l₂, hlast, hl₂⟩
          exact ⟨l₂, hone.append hlast, hl₂⟩
      | cons r' ranges =>
          have hcomma : l₁.lexToken .comma = .ok (l₁, false) := by
            simp [lexToken, hl₁.state, readRepetitionPattern]
          rcases ih hl₁ fun x hx => hranges x (List.mem_cons_of_mem _ hx) with ⟨l₂, hrest, hl₂⟩
          refine ⟨l₂, ?_, hl₂⟩
          have hall := hone.append (LexesAll.cons hcomma hrest)
          simpa [rangesTokens] using hall

/-- The iterations of a group, which are not counted. -/
theorem lexes_iterationPattern (hl : l.At 4 invocs iters named top) (ranges : List (Nat × Nat)) :
    ∃ l', l.Lexes (rangesTokens ranges ++ [.closebrace]) l' ∧ l'.At 5 invocs iters named top := by
  have hread : ∀ (ts : List Token), (∀ t ∈ ts, IsPatternToken t) →
      ∀ l : LoopTraceFirstPass, l.At 4 invocs iters named top →
        ∃ l', l.Lexes ts l' ∧ l'.At 4 invocs iters named top := by
    intro ts
    induction ts with
    | nil =>
        intro _ l hl
        exact ⟨l, LexesAll.nil, hl⟩
    | cons t ts ih =>
        intro hts l hl
        have hone : ∃ l₁, l.lexToken t = .ok (l₁, false) ∧ l₁.At 4 invocs iters named top := by
          refine ⟨l.readRepetitionPattern t, ?_, ?_⟩
          · match t, hts t (by simp) with
            | .number n, _ => simp [lexToken, number, hl.state, Except.map]
            | .dash, _ => simp [lexToken, hl.state]
            | .comma, _ => simp [lexToken, hl.state]
          · match t, hts t (by simp) with
            | .number n, _ =>
                exact ⟨hl.state, hl.invocs, hl.iters, hl.cfc_state, hl.instrs, by
                  simp [readRepetitionPattern, hl.state, hl.numInvoc]⟩
            | .dash, _ => exact hl
            | .comma, _ => exact hl
        rcases hone with ⟨l₁, htoken, hl₁⟩
        rcases ih (fun t' ht' => hts t' (List.mem_cons_of_mem _ ht')) l₁ hl₁ with ⟨l₂, hrest, hl₂⟩
        exact ⟨l₂, LexesAll.cons htoken hrest, hl₂⟩
  rcases hread _ isPatternToken_of_mem_rangesTokens l hl with ⟨l₁, hranges, hl₁⟩
  refine ⟨l₁.readRepetitionPattern .closebrace, hranges.append (LexesAll.consume ?_), ?_⟩
  · simp [lexToken, hl₁.state]
  · exact ⟨by simp [readRepetitionPattern, hl₁.state], hl₁.invocs, hl₁.iters, hl₁.cfc_state,
      hl₁.instrs, hl₁.numInvoc⟩

/-- The control flow of a group. -/
theorem lexes_cfc (hl : l.At 5 invocs iters named top) (patterns : List TracerCompressionPattern) :
    ∃ l', l.Lexes (TracerCompressionPattern.tokensAll patterns) l' ∧
      l'.At 5 invocs iters (fun s => named s ∨ s ∈ CompressionPattern.symbolsAll
        (TracerCompressionPattern.toCompressionPatterns patterns)) top := by
  have htoken : ∀ c t, TracerCompressionPattern.IsCfcToken t →
      lexToken { l with cfc := c } t = .ok ({ l with cfc := c.readCfc t }, false) := by
    intro c t ht
    match t, ht with
    | .number n, _ => simp [lexToken, number, hl.state, Except.map]
    | .comma, _ => simp [lexToken, hl.state]
    | .openparen, _ => simp [lexToken, hl.state]
    | .closeparen, _ => simp [lexToken, hl.state]
  have hread := lexesAll_controlFlow htoken l.cfc patterns
  rcases CfcCollector.mem_foldl_tokensAll hl.cfc_state patterns with ⟨hstate, hmem⟩
  refine ⟨_, hread, hl.state, hl.invocs, hl.iters, hstate, ?_, hl.numInvoc⟩
  intro s
  rw [hmem s, hl.instrs s]

/-- The line of a group. -/
theorem lexes_group (hl : l.At 4 invocs iters named top) (g : PrintedGroup) :
    ∃ l', l.Lexes g.tokens l' ∧
      l'.At (if 0 < iters - 1 then 4 else 6) (if 0 < iters - 1 then invocs else invocs - 1) (iters - 1)
        (fun s => named s ∨ s ∈ symbolsOf [g.toCfcGroup]) top := by
  rcases lexes_iterationPattern hl g.ranges with ⟨l₅, hranges, hl₅⟩
  rcases lexes_cfc hl₅ g.patterns with ⟨l₆, hflow, hl₆⟩
  have hend : l₆.Lexes [.newline] l₆.newline := LexesAll.consume rfl
  refine ⟨l₆.newline, ?_, ?_⟩
  · have hall := (hranges.append hflow).append hend
    simpa [PrintedGroup.tokens] using hall
  · have hnamed : ∀ s, s ∈ l₆.cfc.instrs ↔ named s ∨ s ∈ symbolsOf [g.toCfcGroup] := by
      intro s
      rw [hl₆.instrs s, mem_symbolsOf_singleton]
      rfl
    by_cases hmore : 0 < iters - 1
    · simp only [newline, hl₆.state, hl₆.iters, hmore, if_true]
      exact ⟨rfl, hl₆.invocs, rfl, hl₆.cfc_state, hnamed, hl₆.numInvoc⟩
    · simp only [newline, hl₆.state, hl₆.iters, hmore, if_true, if_false]
      exact ⟨rfl, congrArg (· - 1) hl₆.invocs, rfl, hl₆.cfc_state, hnamed, hl₆.numInvoc⟩

theorem At.congr (hl : l.At state invocs iters named top) {named' : CSymbol → Prop}
    (h : ∀ s, named s ↔ named' s) : l.At state invocs iters named' top :=
  ⟨hl.state, hl.invocs, hl.iters, hl.cfc_state, fun s => (hl.instrs s).trans (h s), hl.numInvoc⟩

/-- The groups of an invocation, up to the end of the last line. -/
theorem lexes_groups : ∀ (gs : List PrintedGroup) {l : LoopTraceFirstPass} {named : CSymbol → Prop},
    gs ≠ [] → l.At 4 invocs gs.length named top →
    ∃ l', l.Lexes (gs.flatMap PrintedGroup.tokens) l' ∧
      l'.At 6 (invocs - 1) 0 (fun s => named s ∨ s ∈ symbolsOf (gs.map PrintedGroup.toCfcGroup))
        top := by
  intro gs
  induction gs with
  | nil =>
      intro l named hne
      exact absurd rfl hne
  | cons g gs ih =>
      intro l named _ hl
      rcases lexes_group hl g with ⟨l₁, hfirst, hl₁⟩
      cases gs with
      | nil => exact ⟨l₁, by simpa using hfirst, by simpa using hl₁⟩
      | cons g' gs =>
          have hmore : 0 < (g :: g' :: gs).length - 1 := by simp
          rw [if_pos hmore, if_pos hmore] at hl₁
          rcases ih (by simp) hl₁ with ⟨l₂, hrest, hl₂⟩
          refine ⟨l₂, ?_, hl₂.congr fun s => ?_⟩
          · rw [List.flatMap_cons]
            exact hfirst.append hrest
          · rw [or_assoc, ← mem_symbolsOf_append]
            rfl

/-- An invocation group: its ranges, the number of its iteration groups and the groups. -/
theorem lexes_invocation {inv : PrintedInvocation} (hvalid : inv.Valid)
    (hl : l.At 2 invocs iters named top) :
    ∃ l', l.Lexes inv.tokens l' ∧ l'.At 6 (invocs - 1) 0 (fun s => named s ∨ inv.toEntry.Names s)
      (topOf top inv.ranges) := by
  rcases lexes_invocationPattern inv.ranges hl hvalid.ranges with ⟨l₃, hpattern, hl₃⟩
  have hcount : strtoull inv.iterations.length = inv.iterations.length :=
    strtoull_of_lt hvalid.length_lt
  have hskip : ∀ {l : LoopTraceFirstPass}, l.state ≠ 5 → l.lexToken .newline = .ok (l, false) := by
    intro l hstate
    simp [lexToken, newline, hstate]
  -- an invocation without iterations is over with its number of groups
  by_cases hempty : inv.iterations = []
  · let l₆ : LoopTraceFirstPass := { l₃ with
      remaining_iter_entries := 0
      remaining_invoc_entries := l₃.remaining_invoc_entries - 1
      state := 6 }
    have hnumber : l₃.lexToken (.number inv.iterations.length) = .ok (l₆, false) := by
      have hzero : strtoull 0 = 0 := strtoull_of_lt (by decide)
      simp [lexToken, number, hl₃.state, l₆, hempty, hzero, Except.map]
    refine ⟨l₆, ?_, ⟨rfl, congrArg (· - 1) hl₃.invocs, rfl, hl₃.cfc_state, ?_, hl₃.numInvoc⟩⟩
    · have hend : l₃.Lexes [.number inv.iterations.length, .newline] l₆ :=
        LexesAll.cons hnumber (LexesAll.token (hskip (by simp [l₆])))
      have hall := hpattern.append hend
      simpa [PrintedInvocation.tokens, hempty] using hall
    · intro s
      rw [hl₃.instrs s]
      simp [LoopTraceEntry.Names, PrintedInvocation.toEntry, hempty, symbolsOf]
  · have hpos : 0 < inv.iterations.length := List.length_pos_of_ne_nil hempty
    let l₄ : LoopTraceFirstPass := { l₃ with
      remaining_iter_entries := inv.iterations.length
      reppatState := 0
      state := 4 }
    have hnumber : l₃.lexToken (.number inv.iterations.length) = .ok (l₄, false) := by
      simp [lexToken, number, hl₃.state, l₄, hcount, hpos, Except.map]
    have hl₄ : l₄.At 4 invocs inv.iterations.length named (topOf top inv.ranges) :=
      ⟨rfl, hl₃.invocs, rfl, hl₃.cfc_state, hl₃.instrs, hl₃.numInvoc⟩
    rcases lexes_groups inv.iterations hempty hl₄ with ⟨l₆, hgroups, hl₆⟩
    refine ⟨l₆, ?_, hl₆⟩
    have hend : l₃.Lexes (.number inv.iterations.length :: .newline ::
        inv.iterations.flatMap PrintedGroup.tokens) l₆ :=
      LexesAll.cons hnumber (LexesAll.cons (hskip (by simp [l₄])) hgroups)
    have hall := hpattern.append hend
    simpa [PrintedInvocation.tokens] using hall

/-- The completion symbol and the empty lines around it. -/
theorem lexes_completion (hl : l.At 6 invocs iters named top) (ends : List Token)
    (hends : ∀ t ∈ ends, t = .newline) (loopRunning : Bool) :
    ∃ l', l.Lexes (ends ++ [dumpToken loopRunning, .newline]) l' ∧
      l'.At (if 0 < invocs then 2 else 0) invocs iters named top := by
  have hskip : l.lexToken .newline = .ok (l, false) := by
    simp [lexToken, newline, hl.state]
  let l' : LoopTraceFirstPass := { l with
    state := if 0 < l.remaining_invoc_entries then 2 else 0
    rstatus := dumpStatus loopRunning }
  have hsymbol : l.lexToken (dumpToken loopRunning) = .ok (l', true) := by
    cases loopRunning <;>
      simp [dumpToken, dumpStatus, lexToken, completion, hl.state, Except.map, l']
  have hstate : l'.state = if 0 < invocs then 2 else 0 := by
    simp only [l', hl.invocs]
  have hlast : l'.lexToken .newline = .ok (l', false) := by
    have hne : l'.state ≠ 5 := by
      rw [hstate]
      split
      · decide
      · decide
    simp [lexToken, newline, hne]
  refine ⟨l', (LexesAll.skip hskip ends hends).append
    (LexesAll.cons hsymbol (LexesAll.token hlast)), ?_⟩
  exact ⟨hstate, hl.invocs, hl.iters, hl.cfc_state, hl.instrs, hl.numInvoc⟩

/-- The largest number in the invocation groups of one write. -/
def topOfAll (top : Nat) (invs : List PrintedInvocation) : Nat :=
  invs.foldl (fun top inv => topOf top inv.ranges) top

/-- The invocation groups of one write. -/
theorem lexes_invocations (loopRunning : Bool) : ∀ (invs : List PrintedInvocation)
    {l : LoopTraceFirstPass} {iters top : Nat} {named : CSymbol → Prop}, invs ≠ [] →
    (∀ inv ∈ invs, inv.Valid) → l.At 2 invs.length iters named top →
    ∃ l', l.Lexes (invocationsTokens loopRunning invs) l' ∧
      l'.At 0 0 0 (fun s => named s ∨ ∃ inv ∈ invs, inv.toEntry.Names s) (topOfAll top invs) := by
  intro invs
  induction invs with
  | nil =>
      intro l iters top named hne
      exact absurd rfl hne
  | cons inv invs ih =>
      intro l iters top named _ hvalid hl
      rcases lexes_invocation (hvalid inv (by simp)) hl with ⟨l₁, hinv, hl₁⟩
      cases invs with
      | nil =>
          rcases lexes_completion hl₁ [.newline, .newline, .newline] (by simp) loopRunning with
            ⟨l₂, hend, hl₂⟩
          refine ⟨l₂, ?_, ?_⟩
          · have hall := hinv.append hend
            simpa [invocationsTokens] using hall
          · simpa [topOfAll] using hl₂
      | cons inv' invs =>
          rcases lexes_completion hl₁ [.newline, .newline] (by simp) false with ⟨l₂, hend, hl₂⟩
          have hmore : 0 < (inv :: inv' :: invs).length - 1 := by simp
          rw [if_pos hmore] at hl₂
          rcases ih (by simp) (fun i hi => hvalid i (List.mem_cons_of_mem _ hi)) hl₂ with
            ⟨l₃, hrest, hl₃⟩
          refine ⟨l₃, ?_, hl₃.congr fun s => ?_⟩
          · have hall := (hinv.append hend).append hrest
            simpa [invocationsTokens, dumpToken] using hall
          · simp only [List.mem_cons, exists_eq_or_imp, or_assoc]

/-- The largest number in the chunks of a file. -/
def topOfChunks (top : Nat) (chunks : List LoopTraceChunk) : Nat :=
  chunks.foldl (fun top c => topOfAll top c.invocations) top

section Top

variable {m : Nat}

theorem topOf_le (ranges : List (Nat × Nat)) :
    ∀ {top : Nat}, topOf top ranges ≤ m ↔ top ≤ m ∧ ∀ r ∈ ranges, r.2 ≤ m := by
  induction ranges with
  | nil => simp [topOf]
  | cons r ranges ih =>
      intro top
      have hcons : topOf top (r :: ranges) = topOf (max top r.2) ranges := rfl
      rw [hcons, ih, Nat.max_le, List.forall_mem_cons, and_assoc]

theorem topOfAll_le (invs : List PrintedInvocation) :
    ∀ {top : Nat}, topOfAll top invs ≤ m ↔ top ≤ m ∧ ∀ inv ∈ invs, ∀ r ∈ inv.ranges, r.2 ≤ m := by
  induction invs with
  | nil => simp [topOfAll]
  | cons inv invs ih =>
      intro top
      have hcons : topOfAll top (inv :: invs) = topOfAll (topOf top inv.ranges) invs := rfl
      rw [hcons, ih, topOf_le, List.forall_mem_cons, and_assoc]

theorem topOfChunks_le (chunks : List LoopTraceChunk) :
    ∀ {top : Nat}, topOfChunks top chunks ≤ m ↔
      top ≤ m ∧ ∀ c ∈ chunks, ∀ inv ∈ c.invocations, ∀ r ∈ inv.ranges, r.2 ≤ m := by
  induction chunks with
  | nil => simp [topOfChunks]
  | cons c chunks ih =>
      intro top
      have hcons : topOfChunks top (c :: chunks)
          = topOfChunks (topOfAll top c.invocations) chunks := rfl
      rw [hcons, ih, topOfAll_le, List.forall_mem_cons, and_assoc]

end Top

/-- The chunks of a file. -/
theorem lexes_chunks : ∀ (chunks : List LoopTraceChunk) {l : LoopTraceFirstPass}
    {invocs iters top : Nat} {named : CSymbol → Prop}, (∀ c ∈ chunks, c.Valid) →
    l.At 0 invocs iters named top →
    ∃ l' invocs' iters', l.Lexes (chunks.flatMap LoopTraceChunk.tokens) l' ∧
      l'.At 0 invocs' iters' (fun s => named s ∨ ∃ c ∈ chunks, ∃ inv ∈ c.invocations,
        inv.toEntry.Names s) (topOfChunks top chunks) := by
  intro chunks
  induction chunks with
  | nil =>
      intro l invocs iters top named _ hl
      exact ⟨l, invocs, iters, LexesAll.nil, hl.congr fun s => by simp⟩
  | cons c chunks ih =>
      intro l invocs iters top named hvalid hl
      have hc := hvalid c (by simp)
      have hpos := List.length_pos_of_ne_nil hc.nonempty
      have hcount : strtoull c.invocations.length = c.invocations.length :=
        strtoull_of_lt hc.length_lt
      let l₂ : LoopTraceFirstPass := { l with
        remaining_invoc_entries := c.invocations.length
        reppatState := 0
        state := 2 }
      -- the ID of the loop is read and not looked at
      have hid : l.lexToken (.number c.loopID.toNat) = .ok ({ l with state := 1 }, false) := by
        simp [lexToken, number, hl.state, Except.map]
      have hnumber : { l with state := 1 }.lexToken (.number c.invocations.length)
          = .ok (l₂, false) := by
        simp [lexToken, number, hcount, hpos, Except.map, l₂]
      have hnewline : l₂.lexToken .newline = .ok (l₂, false) := by
        simp [lexToken, newline, l₂]
      have hl₂ : l₂.At 2 c.invocations.length iters named top :=
        ⟨rfl, rfl, hl.iters, hl.cfc_state, hl.instrs, hl.numInvoc⟩
      rcases lexes_invocations c.loopRunning c.invocations hc.nonempty hc.invocations hl₂ with
        ⟨l₃, hinvs, hl₃⟩
      rcases ih (fun c' hc' => hvalid c' (List.mem_cons_of_mem _ hc')) hl₃ with
        ⟨l₄, invocs', iters', hrest, hl₄⟩
      refine ⟨l₄, invocs', iters', ?_, hl₄.congr fun s => ?_⟩
      · have hheader : l.Lexes [.number c.loopID.toNat, .number c.invocations.length, .newline] l₂ :=
          LexesAll.cons hid (LexesAll.cons hnumber (LexesAll.token hnewline))
        have hall := (hheader.append hinvs).append hrest
        simpa [LoopTraceChunk.tokens] using hall
      · simp only [List.mem_cons, exists_eq_or_imp, or_assoc]

end LoopTraceFirstPass

/-! ## Both passes -/

namespace LoopTraceEntry

variable {e piece e' : LoopTraceEntry}

/-- A piece that is merged is not empty. -/
theorem joinPiece_eq_ok (h : LoopTraceStreamer.entryStream.joinPiece e piece = .ok e') :
    e.lastAndFirstInvocationOverlap piece = .ok true ∧ piece.isEmpty = false ∧
      e.mergeIntoAndReturnRemaining piece = .ok (e', []) := by
  rcases EntryStream.joinPiece_eq_ok h with ⟨hoverlap, hmerge⟩
  refine ⟨hoverlap, ?_, hmerge⟩
  cases hpattern : piece.invocationRepetitionPattern with
  | nil =>
      simp only [LoopTraceStreamer.entryStream, lastAndFirstInvocationOverlap,
        getFirstInvocationNumber, hpattern, RepetitionPattern.getFirstInstance, sameNumber]
        at hoverlap
      split at hoverlap <;> simp_all
  | cons r rs => simp [isEmpty, hpattern]

theorem names_joinPiece (h : LoopTraceStreamer.entryStream.joinPiece e piece = .ok e')
    (s : CSymbol) : e'.Names s ↔ e.Names s ∨ piece.Names s :=
  names_mergeInto (joinPiece_eq_ok h).2.1 (joinPiece_eq_ok h).2.2

theorem mem_numbers_joinPiece (h : LoopTraceStreamer.entryStream.joinPiece e piece = .ok e')
    (he : Ascending e.invocationRepetitionPattern)
    (hpiece : Ascending piece.invocationRepetitionPattern) (k : Nat) :
    Ascending e'.invocationRepetitionPattern ∧
      (k ∈ numbers e'.invocationRepetitionPattern ↔
        k ∈ numbers e.invocationRepetitionPattern ∨ k ∈ numbers piece.invocationRepetitionPattern) := by
  rcases joinPiece_eq_ok h with ⟨hoverlap, hne, hmerge⟩
  rcases mem_numbers_mergeInto (k := k) he hpiece hoverlap hne hmerge with ⟨hsame, hmem⟩
  rw [hsame]
  refine ⟨he, Or.inl, ?_⟩
  rintro (hk | hk)
  · exact hk
  · exact hmem hk

end LoopTraceEntry

namespace LoopTraceStreamer

/-- `parseForInstructionList`: the instructions, and the number of invocations. -/
def parseForInstructionList (loopTrace : List BzRead) : Except Fault (Finset UInt64 × Nat) :=
  let parser := BlockReader.new loopTrace
  match BlockReader.parseAll cfcScanner LoopTraceFirstPass.lexToken (parser.calls cfcScanner + 1)
      LoopTraceFirstPass.init parser with
  | .error e => .error e
  | .ok l => .ok (l.cfc.instrs, (l.numInvoc + 1) % 2 ^ 64)

end LoopTraceStreamer

theorem mem_of_mem_pieces {ε : Type} {loopRunning : Bool} {es : List ε} {item : ε × ReturnStatus}
    (h : item ∈ pieces loopRunning es) : item.1 ∈ es := by
  induction es with
  | nil => simp [pieces] at h
  | cons e es ih =>
      cases es with
      | nil =>
          rcases List.mem_singleton.1 h with rfl
          simp
      | cons e' es =>
          rcases List.mem_cons.1 h with rfl | h
          · simp
          · exact List.mem_cons_of_mem _ (ih h)

theorem exists_mem_pieces {ε : Type} (loopRunning : Bool) (P : ε → Prop) (es : List ε) :
    (∃ item ∈ pieces loopRunning es, P item.1) ↔ ∃ e ∈ es, P e := by
  induction es with
  | nil => simp [pieces]
  | cons e es ih =>
      cases es with
      | nil => simp [pieces]
      | cons e' es =>
          have hcons : pieces loopRunning (e :: e' :: es)
              = (e, .invocComplete) :: pieces loopRunning (e' :: es) := rfl
          rw [hcons, List.exists_mem_cons_iff, List.exists_mem_cons_iff, ih]

/-- The first pass collects the symbols of all entries, and the largest invocation number. -/
theorem LoopTraceStreamer.parseForInstructionList_eq {loopTrace : List BzRead}
    {chunks : List LoopTraceChunk} (hvalid : ∀ c ∈ chunks, c.Valid)
    (hfile : Tells loopTrace (chunks.flatMap LoopTraceChunk.tokens)) :
    ∃ instrs, parseForInstructionList loopTrace
        = .ok (instrs, (LoopTraceFirstPass.topOfChunks 0 chunks + 1) % 2 ^ 64) ∧
      ∀ s, s ∈ instrs ↔ ∃ item ∈ chunks.flatMap LoopTraceChunk.items, item.1.Names s := by
  have hinit : LoopTraceFirstPass.init.At 0 0 0 (fun _ => False) 0 :=
    ⟨rfl, rfl, rfl, rfl, by simp [LoopTraceFirstPass.init], rfl⟩
  rcases LoopTraceFirstPass.lexes_chunks chunks hvalid hinit with ⟨l, _, _, hlexes, hl⟩
  rcases hfile.parseAll hlexes with ⟨l₁, hall, hlast⟩
  have hsame : l₁.cfc = l.cfc ∧ l₁.numInvoc = l.numInvoc := by
    rcases hlast with rfl | ⟨more, hnewline⟩
    · exact ⟨rfl, rfl⟩
    · rcases Prod.mk.inj (Except.ok.inj hnewline) with ⟨rfl, -⟩
      rw [LoopTraceFirstPass.cfc_newline, LoopTraceFirstPass.numInvoc_newline]
      exact ⟨rfl, rfl⟩
  refine ⟨l.cfc.instrs, ?_, ?_⟩
  · simp only [parseForInstructionList, hall, hsame.1, hsame.2, hl.numInvoc]
  · intro s
    rw [hl.instrs s]
    constructor
    · rintro (hfalse | ⟨c, hc, inv, hinv, hs⟩)
      · exact hfalse.elim
      · rcases (exists_mem_pieces c.loopRunning (fun e => LoopTraceEntry.Names e s) _).2
          ⟨_, List.mem_map_of_mem hinv, hs⟩ with ⟨item, hitem, hs⟩
        exact ⟨item, List.mem_flatMap.2 ⟨c, hc, hitem⟩, hs⟩
    · rintro ⟨item, hitem, hs⟩
      rcases List.mem_flatMap.1 hitem with ⟨c, hc, hitem⟩
      rcases (exists_mem_pieces c.loopRunning (fun e => LoopTraceEntry.Names e s) _).1
        ⟨item, hitem, hs⟩ with ⟨e, he, hs⟩
      rcases List.mem_map.1 he with ⟨inv, hinv, rfl⟩
      exact Or.inr ⟨c, hc, inv, hinv, hs⟩

namespace LoopTraceStreamer

variable {chunks : List LoopTraceChunk}

/-- The invocation groups of the chunks, as the second pass reads them. -/
theorem exists_mem_items (P : LoopTraceEntry → Prop) (chunks : List LoopTraceChunk) :
    (∃ item ∈ chunks.flatMap LoopTraceChunk.items, P item.1) ↔
      ∃ c ∈ chunks, ∃ inv ∈ c.invocations, P inv.toEntry := by
  have hchunk : ∀ c : LoopTraceChunk,
      (∃ item ∈ c.items, P item.1) ↔ ∃ inv ∈ c.invocations, P inv.toEntry := by
    intro c
    rw [LoopTraceChunk.items, exists_mem_pieces]
    simp
  constructor
  · rintro ⟨item, hitem, h⟩
    rcases List.mem_flatMap.1 hitem with ⟨c, hc, hitem⟩
    exact ⟨c, hc, (hchunk c).1 ⟨item, hitem, h⟩⟩
  · rintro ⟨c, hc, h⟩
    rcases (hchunk c).2 h with ⟨item, hitem, h⟩
    exact ⟨item, List.mem_flatMap.2 ⟨c, hc, hitem⟩, h⟩

/-- The largest number of the first pass is the last of the numbers that the entries have. -/
theorem topOfChunks_eq (hvalid : ∀ c ∈ chunks, c.Valid) {n : Nat} (hpos : 0 < n)
    (hnumbers : ∀ k, (∃ item ∈ chunks.flatMap LoopTraceChunk.items,
      k ∈ numbers item.1.invocationRepetitionPattern) ↔ k < n) :
    LoopTraceFirstPass.topOfChunks 0 chunks + 1 = n := by
  have hle : ∀ m, LoopTraceFirstPass.topOfChunks 0 chunks ≤ m ↔ n ≤ m + 1 := by
    intro m
    rw [LoopTraceFirstPass.topOfChunks_le]
    constructor
    · rintro ⟨-, hends⟩
      rcases (hnumbers (n - 1)).2 (by omega) with ⟨item, hitem, hlast⟩
      rcases (exists_mem_items (fun e => n - 1 ∈ numbers e.invocationRepetitionPattern) chunks).1
        ⟨item, hitem, hlast⟩ with ⟨c, hc, inv, hinv, hlast⟩
      rcases mem_numbers.1 hlast with ⟨r, hr, -, hle⟩
      have := hends c hc inv hinv r hr
      omega
    · intro hm
      refine ⟨Nat.zero_le m, ?_⟩
      intro c hc inv hinv r hr
      have hasc := ((hvalid c hc).invocations inv hinv).ascending
      have hmem : r.2 ∈ numbers inv.toEntry.invocationRepetitionPattern :=
        mem_numbers.2 ⟨r, hr, hasc.le hr, Nat.le_refl _⟩
      have hlt := (hnumbers r.2).1 ((exists_mem_items
        (fun e => r.2 ∈ numbers e.invocationRepetitionPattern) chunks).2 ⟨c, hc, inv, hinv, hmem⟩)
      omega
  have h₁ := (hle (LoopTraceFirstPass.topOfChunks 0 chunks)).1 (Nat.le_refl _)
  have h₂ := (hle (n - 1)).2 (by omega)
  omega

/-- The first pass finds the symbols and the number of invocations of the entries that the second
pass puts together. -/
theorem parseForInstructionList_of_joinEntries {loopTrace : List BzRead}
    {es : List LoopTraceEntry} (hvalid : ∀ c ∈ chunks, c.Valid)
    (hfile : Tells loopTrace (chunks.flatMap LoopTraceChunk.tokens))
    (hjoin : entryStream.joinEntries none (chunks.flatMap LoopTraceChunk.items) = .ok (es, none))
    {n : Nat} (hpos : 0 < n) (hlt : n < 2 ^ 64)
    (hnumbers : ∀ k, (∃ e ∈ es, k ∈ numbers e.invocationRepetitionPattern) ↔ k < n) :
    ∃ instrs, parseForInstructionList loopTrace = .ok (instrs, n) ∧
      ∀ s, s ∈ instrs ↔ ∃ e ∈ es, e.Names s := by
  have hascending : ∀ item ∈ chunks.flatMap LoopTraceChunk.items,
      Ascending item.1.invocationRepetitionPattern := by
    intro item hitem
    rcases List.mem_flatMap.1 hitem with ⟨c, hc, hitem⟩
    rcases List.mem_map.1 (mem_of_mem_pieces hitem) with ⟨inv, hinv, heq⟩
    rw [← heq]
    exact ((hvalid c hc).invocations inv hinv).ascending
  have hnumbers' : ∀ k, (∃ item ∈ chunks.flatMap LoopTraceChunk.items,
      k ∈ numbers item.1.invocationRepetitionPattern) ↔ k < n := by
    intro k
    have hall := EntryStream.exists_joinEntries
      (Q := fun e => Ascending e.invocationRepetitionPattern)
      (P := fun e => k ∈ numbers e.invocationRepetitionPattern)
      (fun e piece e' he hpiece h => LoopTraceEntry.mem_numbers_joinPiece h he hpiece k) hjoin
      (by simp) hascending
    rw [← hnumbers k]
    simpa using hall.symm
  rcases parseForInstructionList_eq hvalid hfile with ⟨instrs, hparse, hinstrs⟩
  rw [topOfChunks_eq hvalid hpos hnumbers', Nat.mod_eq_of_lt hlt] at hparse
  refine ⟨instrs, hparse, ?_⟩
  intro s
  have hall := EntryStream.exists_joinEntries (Q := fun _ => True) (P := fun e => e.Names s)
    (fun e piece e' _ _ h => ⟨trivial, LoopTraceEntry.names_joinPiece h s⟩) hjoin (by simp)
    (fun _ _ => trivial)
  rw [hinstrs s]
  simpa using hall.symm

end LoopTraceStreamer
end CamAlias
