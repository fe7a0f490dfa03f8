import CamAlias.Lexer.EntryReader
import CamAlias.Lexer.LoopTrace

/-!
# LoopTraceStreamer — the entries of a loop trace, one after the other

`LoopTraceStreamer.cpp`.  `PrintedInvocation` is what the text of an invocation group says, and
`invocationsTokens` are the tokens of what one write leaves in the file.  The lexer finds in them the
invocation groups (`LoopTraceCfcLex.finds_invocations`).
-/

namespace CamAlias

open Lib

/-! ## One invocation group -/

/-- What the text of an invocation group says. -/
structure PrintedInvocation where
  ranges : List (Nat × Nat)
  iterations : List PrintedGroup

namespace PrintedInvocation

def tokens (inv : PrintedInvocation) : List Token :=
  rangesTokens inv.ranges ++ [.closebrace] ++
    (.number inv.iterations.length :: .newline :: inv.iterations.flatMap PrintedGroup.tokens)

/-- The entry that the lexer fills. -/
def toEntry (inv : PrintedInvocation) : LoopTraceEntry where
  invocationRepetitionPattern := inv.ranges
  invocation := { InvocationGroupCfc.new with
    iterations := inv.iterations.map PrintedGroup.toCfcGroup }

/-- Ascending ranges of numbers that `strtoull` reads back, and valid groups. -/
structure Valid (inv : PrintedInvocation) : Prop where
  ranges : ∀ r ∈ inv.ranges, r.1 ≤ r.2 ∧ r.2 < 2 ^ 64
  ascending : Ascending inv.ranges
  iterations : ∀ g ∈ inv.iterations, g.Valid
  length_lt : inv.iterations.length < 2 ^ 64

end PrintedInvocation

namespace LoopTraceCfcLex

/-- No control flow and no range is being read. -/
structure Ready (l : LoopTraceCfcLex) : Prop where
  cfc : l.cfc = CfcReader.init
  reppat : l.reppat.reppatState = 0

variable {l : LoopTraceCfcLex}

/-- The groups of an invocation, up to the end of the last line. -/
theorem reads_groups : ∀ (gs : List PrintedGroup) (l : LoopTraceCfcLex)
    (its : List IterationGroupCfc), gs ≠ [] → (∀ g ∈ gs, g.Valid) → l.Ready → l.state = 4 →
    l.loopEntry.invocation.iterations = its ++ [CfcGroup.new] →
    l.remaining_iter_entries = gs.length →
    ∃ l', Reads l (gs.flatMap PrintedGroup.tokens) l' ∧ l'.Ready ∧ l'.state = 6 ∧
      l'.rstatus = l.rstatus ∧ l'.remaining_invoc_entries = l.remaining_invoc_entries - 1 ∧
      l'.loopEntry = (l.withIterations (its ++ gs.map PrintedGroup.toCfcGroup)).loopEntry := by
  intro gs
  induction gs with
  | nil =>
      intro l its hne
      exact absurd rfl hne
  | cons g gs ih =>
      intro l its _ hvalid hready hstate hits hremaining
      have hg := hvalid g (by simp)
      rcases reads_iterationGroup hstate hready.reppat hready.cfc hits hg with
        ⟨reppat, hfive, hreppat⟩
      let l₅ : LoopTraceCfcLex :=
        { l.withIterations (its ++ [g.toCfcGroup]) with state := 5, reppat }
      have hend : Reads l₅ [.newline] l₅.newline := CamAlias.Reads.token rfl
      have hfirst : Reads l g.tokens l₅.newline := by
        have := hfive.append hend
        simpa [PrintedGroup.tokens] using this
      -- the newline behind the last group ends the invocation, the others begin a new group
      cases gs with
      | nil =>
          have hlen : l.remaining_iter_entries - 1 = 0 := by simp [hremaining]
          refine ⟨l₅.newline, by simpa using hfirst, ?_⟩
          simp only [newline, l₅, withIterations, hlen, Nat.lt_irrefl, if_true, if_false]
          exact ⟨⟨hready.cfc, hreppat⟩, trivial, trivial, trivial, by simp⟩
      | cons g' gs =>
          have hlen : l.remaining_iter_entries - 1 = (g' :: gs).length := by simp [hremaining]
          have hpos : 0 < (g' :: gs).length := by simp
          rcases ih l₅.newline (its ++ [g.toCfcGroup]) (by simp)
            (fun g hg => hvalid g (List.mem_cons_of_mem _ hg))
            (by
              simp only [newline, l₅, withIterations, hlen, hpos, if_true]
              exact ⟨hready.cfc, hreppat⟩)
            (by simp only [newline, l₅, withIterations, hlen, hpos, if_true])
            (by simp [newline, l₅, withIterations, hlen, LoopTraceEntry.addIterationGroup,
              InvocationGroupCfc.addIterationGroup])
            (by simp [newline, l₅, withIterations, hlen]) with
            ⟨l', hreads, hready', hstate', hrstatus, hrem, hentry⟩
          refine ⟨l', ?_, hready', hstate', ?_, ?_, ?_⟩
          · rw [List.flatMap_cons]
            exact hfirst.append hreads
          · simpa [newline, l₅, withIterations, hlen] using hrstatus
          · simpa [newline, l₅, withIterations, hlen] using hrem
          · simpa [newline, l₅, withIterations, hlen, LoopTraceEntry.addIterationGroup,
              InvocationGroupCfc.addIterationGroup] using hentry

/-- An invocation group: its ranges, the number of its iteration groups and the groups. -/
theorem reads_invocation {inv : PrintedInvocation} (hvalid : inv.Valid) (hready : l.Ready)
    (hstate : l.state = 2) (hentry : l.loopEntry = LoopTraceEntry.new) :
    ∃ l', Reads l inv.tokens l' ∧ l'.Ready ∧ l'.state = 6 ∧ l'.rstatus = l.rstatus ∧
      l'.remaining_invoc_entries = l.remaining_invoc_entries - 1 ∧ l'.loopEntry = inv.toEntry := by
  rcases reads_invocationPattern hstate hready.reppat hvalid.ranges with
    ⟨reppat, hpattern, hreppat⟩
  let l₃ : LoopTraceCfcLex := { l.addInvocationRanges inv.ranges with state := 3, reppat }
  have hcount : strtoull inv.iterations.length = inv.iterations.length :=
    strtoull_of_lt hvalid.length_lt
  have hranges : l₃.loopEntry.invocationRepetitionPattern = inv.ranges := by
    simp [l₃, addInvocationRanges, hentry, LoopTraceEntry.new]
  have hinvocation : l₃.loopEntry.invocation = InvocationGroupCfc.new := by
    simp [l₃, addInvocationRanges, hentry, LoopTraceEntry.new]
  by_cases hempty : inv.iterations = []
  · -- no iteration group: the lexer waits for the completion symbol at once
    let l₆ : LoopTraceCfcLex := { l₃ with
      remaining_iter_entries := 0
      remaining_invoc_entries := l.remaining_invoc_entries - 1
      state := 6 }
    have hnumber : l₃.lexToken (.number inv.iterations.length) = .ok (l₆, false) := by
      have hzero : strtoull 0 = 0 := strtoull_of_lt (by decide)
      simp [lexToken, number, l₃, l₆, hempty, hzero, addInvocationRanges, Except.map]
    refine ⟨l₆, ?_, ⟨hready.cfc, hreppat⟩, rfl, rfl, rfl, ?_⟩
    · have hrest : Reads l₃ [.number inv.iterations.length, .newline] l₆ :=
        CamAlias.Reads.cons hnumber (reads_newline (by simp [l₆]))
      have := CamAlias.Reads.append hpattern hrest
      simpa [PrintedInvocation.tokens, hempty] using this
    · simp [l₆, l₃, addInvocationRanges, hentry, LoopTraceEntry.new, PrintedInvocation.toEntry,
        hempty, InvocationGroupCfc.new]
  · have hpos : 0 < inv.iterations.length := List.length_pos_of_ne_nil hempty
    let l₄ : LoopTraceCfcLex := { l₃ with
      remaining_iter_entries := inv.iterations.length
      loopEntry := l₃.loopEntry.addIterationGroup
      reppat := { reppat with reppatState := 0 }
      state := 4 }
    have hnumber : l₃.lexToken (.number inv.iterations.length) = .ok (l₄, false) := by
      simp [lexToken, number, l₃, l₄, hcount, hpos, addInvocationRanges, Except.map]
    rcases reads_groups inv.iterations l₄ [] hempty hvalid.iterations ⟨hready.cfc, rfl⟩ rfl
      (by simp [l₄, LoopTraceEntry.addIterationGroup, InvocationGroupCfc.addIterationGroup,
        hinvocation, InvocationGroupCfc.new]) rfl with
      ⟨l', hreads, hready', hstate', hrstatus, hremaining, hentry'⟩
    refine ⟨l', ?_, hready', hstate', hrstatus, hremaining, ?_⟩
    · have hrest : Reads l₃ (.number inv.iterations.length :: .newline ::
          inv.iterations.flatMap PrintedGroup.tokens) l' :=
        CamAlias.Reads.cons hnumber ((reads_newline (by simp [l₄])).append hreads)
      have := CamAlias.Reads.append hpattern hrest
      simpa [PrintedInvocation.tokens] using this
    · rw [hentry']
      simp [withIterations, l₄, LoopTraceEntry.addIterationGroup,
        InvocationGroupCfc.addIterationGroup, hinvocation, hranges, PrintedInvocation.toEntry]

end LoopTraceCfcLex

/-! ## The streamer -/

namespace LoopTraceCfcLex

/-- A new entry is to be filled. -/
def start (l : LoopTraceCfcLex) : LoopTraceCfcLex :=
  { l with loopEntry := LoopTraceEntry.new, rstatus := .active }

section Status

variable {l : LoopTraceCfcLex} {t : Token}

theorem readRepetitionPattern_keeps : KeepsStatus rstatus l (l.readRepetitionPattern t) := by
  simp only [readRepetitionPattern]
  split
  · exact KeepsStatus.ok rfl
  · split
    · exact KeepsStatus.ok rfl
    · split
      · exact KeepsStatus.ok rfl
      · exact KeepsStatus.error

theorem readCfc_keeps : KeepsStatus rstatus l (l.readCfc t) := by
  simp only [readCfc]
  split
  · exact KeepsStatus.error
  · exact KeepsStatus.ok rfl
  · split
    · exact KeepsStatus.ok rfl
    · exact KeepsStatus.error

theorem number_keeps (value : Nat) : KeepsStatus rstatus l (l.number value) := by
  rw [number]
  split
  · exact KeepsStatus.ok rfl
  split
  · split
    · exact KeepsStatus.ok rfl
    · exact KeepsStatus.ok rfl
  split
  · exact readRepetitionPattern_keeps
  split
  · split
    · exact KeepsStatus.ok rfl
    · exact KeepsStatus.ok rfl
  split
  · exact readRepetitionPattern_keeps
  split
  · exact readCfc_keeps
  · exact KeepsStatus.error

theorem newline_keeps : KeepsStatus rstatus l (.ok l.newline) := by
  refine KeepsStatus.ok ?_
  simp only [newline]
  split
  · split
    · rfl
    · rfl
  · rfl

theorem rstatus_completion (status : ReturnStatus) (l' : LoopTraceCfcLex)
    (h : l.completion status = .ok l') : l'.rstatus = status := by
  rw [completion] at h
  split at h
  · cases h
  · rw [← Except.ok.inj h]

/-- Only the completion symbols return and set the status. -/
theorem returns : BlockReader.Returns lexToken fun l => decide (l.rstatus ≠ .active) := by
  intro l t l' more h hactive
  have hsame : KeepsStatus rstatus l (.ok l) := KeepsStatus.ok rfl
  cases t with
  | number value => exact (number_keeps value).returned hactive h
  | dash =>
      simp only [lexToken] at h
      split at h
      · exact readRepetitionPattern_keeps.returned hactive h
      · exact hsame.returned hactive h
  | closebrace =>
      simp only [lexToken] at h
      split at h
      · exact readRepetitionPattern_keeps.returned hactive h
      · exact hsame.returned hactive h
  | comma =>
      simp only [lexToken] at h
      split at h
      · exact readRepetitionPattern_keeps.returned hactive h
      split at h
      · exact readCfc_keeps.returned hactive h
      · exact hsame.returned hactive h
  | openparen =>
      simp only [lexToken] at h
      split at h
      · exact readCfc_keeps.returned hactive h
      · exact hsame.returned hactive h
  | closeparen =>
      simp only [lexToken] at h
      split at h
      · exact readCfc_keeps.returned hactive h
      · exact hsame.returned hactive h
  | newline => exact newline_keeps.returned hactive h
  | complete =>
      exact returned_of_sets (s := .invocComplete) (by decide) (rstatus_completion _) h
  | incomplete =>
      exact returned_of_sets (s := .invocIncomplete) (by decide) (rstatus_completion _) h

end Status

end LoopTraceCfcLex

/-- What `getFullEntry` works on. -/
def loopEntryLexer : EntryLexer LoopTraceCfcLex LoopTraceEntry where
  lexToken := LoopTraceCfcLex.lexToken
  rstatus := LoopTraceCfcLex.rstatus
  entry := LoopTraceCfcLex.loopEntry
  ready := fun l => l.state = 0 ∨ l.state = 2
  start := LoopTraceCfcLex.start
  rstatus_start := fun _ => rfl
  returns := LoopTraceCfcLex.returns
  newline := fun l => ⟨l.newline, rfl⟩

abbrev LoopTraceStreamer : Type := Streamer LoopTraceCfcLex

namespace LoopTraceStreamer

/-- `LoopTraceStreamer::LoopTraceStreamer`. -/
def ofFile (loopTrace : List BzRead) : LoopTraceStreamer where
  lexer := LoopTraceCfcLex.init
  parser := BlockReader.new loopTrace

/-- `LoopTraceStreamer::getFullEntry`. -/
def getFullEntry : LoopTraceStreamer → Except Fault (LoopTraceStreamer × LoopTraceEntry × Bool) :=
  loopEntryLexer.getFullEntry

/-- What `getNextEntry` works on. -/
def entryStream : EntryStream LoopTraceStreamer LoopTraceEntry where
  getFullEntry := getFullEntry
  rstatus := fun s => s.lexer.rstatus
  remaining := fun s => s.parser.calls cfcScanner
  lastAndFirstInvocationOverlap := LoopTraceEntry.lastAndFirstInvocationOverlap
  mergeIntoAndReturnRemaining := LoopTraceEntry.mergeIntoAndReturnRemaining

/-- `LoopTraceStreamer::getNextEntry`. -/
def getNextEntry : LoopTraceStreamer → Except Fault (LoopTraceStreamer × Option LoopTraceEntry) :=
  entryStream.getNextEntry

end LoopTraceStreamer

/-! ## What one write leaves in the file -/

/-- The tokens of a non-empty loop trace with the completion symbols. -/
def invocationsTokens (loopRunning : Bool) : List PrintedInvocation → List Token
  | [] => []
  | [inv] => inv.tokens ++ [.newline, .newline, .newline, dumpToken loopRunning, .newline]
  | inv :: invs =>
      inv.tokens ++ ([.newline, .newline, .complete, .newline] ++ invocationsTokens loopRunning invs)

namespace LoopTraceCfcLex

variable {l l₂ : LoopTraceCfcLex}

/-- One entry, from the first token up to the completion symbol. -/
theorem lexUntil_entry {pre : List Token} {inv : PrintedInvocation} (ends rest : List Token)
    (loopRunning : Bool) (hpre : l.start.Reads pre l₂) (hready : l₂.Ready) (hstate₂ : l₂.state = 2)
    (hentry : l₂.loopEntry = LoopTraceEntry.new) (hvalid : inv.Valid)
    (hends : ∀ t ∈ ends, t = .newline) :
    ∃ l', lexUntil lexToken l.start (pre ++ inv.tokens ++ ends ++ dumpToken loopRunning :: rest)
        = .ok (l', rest, true) ∧ l'.loopEntry = inv.toEntry ∧
      l'.Ready ∧ l'.rstatus = dumpStatus loopRunning ∧
      l'.remaining_invoc_entries = l₂.remaining_invoc_entries - 1 ∧
      l'.state = if 0 < l₂.remaining_invoc_entries - 1 then 2 else 0 := by
  rcases reads_invocation hvalid hready hstate₂ hentry with
    ⟨l₆, hreads, hready₆, hstate₆, -, hremaining, hentry₆⟩
  have hnewline : l₆.lexToken .newline = .ok (l₆, false) := by
    simp [lexToken, newline, hstate₆]
  have hall : l.start.Reads (pre ++ inv.tokens ++ ends) l₆ :=
    (hpre.append hreads).append (CamAlias.Reads.skip hnewline ends hends)
  let l' : LoopTraceCfcLex := { l₆ with
    state := if 0 < l₆.remaining_invoc_entries then 2 else 0
    rstatus := dumpStatus loopRunning }
  have hsymbol : l₆.lexToken (dumpToken loopRunning) = .ok (l', true) := by
    cases loopRunning <;>
      simp [dumpToken, dumpStatus, lexToken, completion, hstate₆, Except.map, l']
  refine ⟨l', hall.lexUntil_eq hsymbol rest, hentry₆, ⟨hready₆.cfc, hready₆.reppat⟩, rfl,
    hremaining, ?_⟩
  simp only [l', hremaining]

/-- What the lexer finds in the tokens of a loop trace. -/
abbrev Finds : LoopTraceCfcLex → List Token → List (LoopTraceEntry × ReturnStatus) → Prop :=
  loopEntryLexer.Finds

/-- In front of an entry the end of a line is skipped. -/
theorem Finds.newline {ts : List Token} {items : List (LoopTraceEntry × ReturnStatus)}
    (h : l.Finds ts items) (hstate : l.state ≠ 5) : l.Finds (.newline :: ts) items := by
  refine EntryLexer.Finds.skipNewline h ?_
  simp [loopEntryLexer, lexToken, LoopTraceCfcLex.newline, start, hstate]

theorem ready_of_state (hstate : l.state = 0 ∨ l.state = 2) : loopEntryLexer.ready l = true :=
  decide_eq_true hstate

/-- The invocation groups of one write are found one after the other. -/
theorem finds_invocations (loopRunning : Bool) {rest : List Token}
    {items : List (LoopTraceEntry × ReturnStatus)}
    (hrest : ∀ l : LoopTraceCfcLex, l.Ready → l.state = 0 → l.Finds rest items) :
    ∀ (invs : List PrintedInvocation) (l l₂ : LoopTraceCfcLex) (pre : List Token), invs ≠ [] →
      (∀ inv ∈ invs, inv.Valid) → (l.state = 0 ∨ l.state = 2) → l.start.Reads pre l₂ →
      l₂.Ready → l₂.state = 2 → l₂.loopEntry = LoopTraceEntry.new →
      l₂.remaining_invoc_entries = invs.length →
      l.Finds (pre ++ (invocationsTokens loopRunning invs ++ rest))
        (pieces loopRunning (invs.map PrintedInvocation.toEntry) ++ items) := by
  intro invs
  induction invs with
  | nil =>
      intro l l₂ pre hne
      exact absurd rfl hne
  | cons inv invs ih =>
      intro l l₂ pre _ hvalid hstate hpre hready hstate₂ hentry hremaining
      -- only the last entry of a write may be one of a running loop
      cases invs with
      | nil =>
          rcases lexUntil_entry [.newline, .newline, .newline] (.newline :: rest) loopRunning
            hpre hready hstate₂ hentry (hvalid inv (by simp)) (by simp) with
            ⟨l', hlex, hentry', hready', hrstatus, -, hstate'⟩
          have hzero : l'.state = 0 := by simpa [hremaining] using hstate'
          have hnext := EntryLexer.Finds.piece (ready_of_state hstate) hlex hentry' hrstatus
            ((hrest l' hready' hzero).newline (by simp [hzero]))
          simpa [invocationsTokens, pieces] using hnext
      | cons inv' invs =>
          rcases lexUntil_entry [.newline, .newline]
            (.newline :: (invocationsTokens loopRunning (inv' :: invs) ++ rest)) false
            hpre hready hstate₂ hentry (hvalid inv (by simp)) (by simp) with
            ⟨l', hlex, hentry', hready', hrstatus, hremaining', hstate'⟩
          have htwo : l'.state = 2 := by simpa [hremaining] using hstate'
          have hlen : l'.remaining_invoc_entries = (inv' :: invs).length := by
            simp [hremaining', hremaining]
          have hnewline : l'.start.Reads [.newline] l'.start :=
            reads_newline (by simp [start, htwo])
          have hrec := ih l' l'.start [.newline] (by simp)
            (fun i hi => hvalid i (List.mem_cons_of_mem _ hi)) (Or.inr htwo) hnewline
            ⟨hready'.cfc, hready'.reppat⟩ htwo rfl hlen
          have hnext := EntryLexer.Finds.piece (ready_of_state hstate) hlex hentry' hrstatus hrec
          simpa [invocationsTokens, pieces, dumpToken, dumpStatus] using hnext

end LoopTraceCfcLex
end CamAlias
