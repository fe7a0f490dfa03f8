import CamAlias.Lexer.Delivery
import CamAlias.Lexer.EntryStream

/-!
# EntryReader — entries filled by a lexer that is given its file block by block

`LoopTraceStreamer::getFullEntry` and `CallTraceStreamer::getFullEntry` are the same loop around
different lexers.  `EntryLexer` has what they differ in.

`Finds` says what a lexer finds in a list of tokens, and `Finds.serves` that it finds the same in a
file with these tokens, wherever the blocks of the file end.
-/

namespace CamAlias

/-- A file that is read to its end, with these tokens. -/
def Tells (reads : List BzRead) (toks : List Token) : Prop :=
  ∃ text, PrintsLines text toks ∧ Delivered text reads

/-- The lexer is given all tokens but the newline at the end. -/
theorem Tells.course {reads : List BzRead} {toks : List Token} (h : Tells reads toks) :
    ∃ ts, BlockReader.Course cfcScanner (BlockReader.new reads) ts true ∧
      (toks = ts ∨ toks = ts ++ [.newline]) := by
  rcases h with ⟨text, hprints, hdelivered⟩
  have hscans := hprints.prints.scans.tokenise
  refine ⟨_, hdelivered.course cfcScanner hprints.lines, ?_⟩
  rcases hprints.newline with rfl | ⟨init, rfl⟩
  · exact Or.inl hscans.symm
  · right
    rw [List.dropLast_concat, ← hscans]
    exact cfcScanner.tokens_append init [] '\n' rfl

/-- `parseAll` is the run over all tokens, up to the newline at the end. -/
theorem Tells.parseAll {reads : List BzRead} {toks : List Token} (h : Tells reads toks) {L : Type}
    {lexToken : L → Token → Except Fault (L × Bool)} {l l' : L} (hlex : LexesAll lexToken l toks l') :
    ∃ l₁, BlockReader.parseAll cfcScanner lexToken
        ((BlockReader.new reads).calls cfcScanner + 1) l (BlockReader.new reads) = .ok l₁ ∧
      (l₁ = l' ∨ ∃ more, lexToken l₁ .newline = .ok (l', more)) := by
  rcases h.course with ⟨ts, hcourse, rfl | rfl⟩
  · refine ⟨l', ?_, Or.inl rfl⟩
    rw [hcourse.parseAll_eq (Nat.lt_succ_self _), hlex]
    rfl
  · rw [LexesAll, lexAll_append] at hlex
    cases hts : lexAll lexToken l ts with
    | error e =>
        rw [hts] at hlex
        cases hlex
    | ok l₁ =>
        rw [hts] at hlex
        refine ⟨l₁, ?_, Or.inr ?_⟩
        · rw [hcourse.parseAll_eq (Nat.lt_succ_self _), hts]
          rfl
        · simp only [Except.bind, lexAll] at hlex
          split at hlex
          · cases hlex
          · rename_i l₂ more hnewline
            rcases Except.ok.inj hlex with rfl
            exact ⟨more, hnewline⟩

/-! ## Lexers that fill entries -/

section Status

variable {L : Type} (rstatus : L → ReturnStatus) (l : L)

/-- A rule that leaves the status as it is. -/
def KeepsStatus (r : Except Fault L) : Prop :=
  ∀ l', r = .ok l' → rstatus l' = rstatus l

variable {rstatus} {l} {l' : L} {r : Except Fault L} {more : Bool}

theorem KeepsStatus.ok (h : rstatus l' = rstatus l) : KeepsStatus rstatus l (.ok l') := by
  intro l₁ hl₁
  rw [← Except.ok.inj hl₁, h]

theorem KeepsStatus.error {e : Fault} : KeepsStatus rstatus l (.error e) := by
  intro l₁ hl₁
  cases hl₁

/-- Such a rule does not return either. -/
theorem KeepsStatus.returned (h : KeepsStatus rstatus l r)
    (hl : decide (rstatus l ≠ .active) = false)
    (hr : (r.map fun l => (l, false)) = .ok (l', more)) :
    decide (rstatus l' ≠ .active) = more := by
  cases r with
  | error e => cases hr
  | ok l₁ =>
      rcases Prod.mk.inj (Except.ok.inj hr) with ⟨rfl, rfl⟩
      rw [h l₁ rfl]
      exact hl

/-- A rule that sets another status returns. -/
theorem returned_of_sets {s : ReturnStatus} (hstatus : s ≠ .active)
    (h : ∀ l', r = .ok l' → rstatus l' = s)
    (hr : (r.map fun l => (l, true)) = .ok (l', more)) :
    decide (rstatus l' ≠ .active) = more := by
  cases r with
  | error e => cases hr
  | ok l₁ =>
      rcases Prod.mk.inj (Except.ok.inj hr) with ⟨rfl, rfl⟩
      rw [h l₁ rfl]
      exact decide_eq_true hstatus

end Status

/-- A lexer that fills the entry it has been given, and returns when it is full. -/
structure EntryLexer (L ε : Type) where
  lexToken : L → Token → Except Fault (L × Bool)
  rstatus : L → ReturnStatus
  entry : L → ε
  /-- What `getFullEntry` asserts. -/
  ready : L → Bool
  /-- A new entry is to be filled. -/
  start : L → L
  rstatus_start : ∀ l, rstatus (start l) = .active
  returns : BlockReader.Returns lexToken fun l => decide (rstatus l ≠ .active)
  newline : ∀ l, ∃ l', lexToken l .newline = .ok (l', false)

/-- `LoopTraceStreamer` and `CallTraceStreamer`: the lexer and its parser. -/
structure Streamer (L : Type) where
  lexer : L
  parser : BlockReader Token

namespace EntryLexer

variable {L ε : Type} (X : EntryLexer L ε)

/-- `getFullEntry` on a new entry, and whether it returned 1. -/
def getFullEntry (s : Streamer L) : Except Fault (Streamer L × ε × Bool) :=
  if X.ready s.lexer then
    match BlockReader.parseEntry cfcScanner X.lexToken (fun l => decide (X.rstatus l ≠ .active))
        (s.parser.calls cfcScanner + 1) (X.start s.lexer) s.parser with
    | .error e => .error e
    | .ok (lexer, parser, more) => .ok ({ lexer, parser }, X.entry lexer, more)
  else .error .assertFailed

/-- What `getNextEntry` works on. -/
def entryStream (lastAndFirstInvocationOverlap : ε → ε → Except Fault Bool)
    (mergeIntoAndReturnRemaining : ε → ε → Except Fault (ε × List ε)) :
    EntryStream (Streamer L) ε where
  getFullEntry := X.getFullEntry
  rstatus := fun s => X.rstatus s.lexer
  remaining := fun s => s.parser.calls cfcScanner
  lastAndFirstInvocationOverlap := lastAndFirstInvocationOverlap
  mergeIntoAndReturnRemaining := mergeIntoAndReturnRemaining

/-- The entries that the lexer finds in the tokens, one for each return, with its status. -/
inductive Finds : L → List Token → List (ε × ReturnStatus) → Prop
  | done {l l' : L} {ts : List Token} (hready : X.ready l = true)
      (h : lexUntil X.lexToken (X.start l) ts = .ok (l', [], false)) : Finds l ts []
  | next {l l' : L} {ts rest : List Token} {items : List (ε × ReturnStatus)}
      (hready : X.ready l = true)
      (h : lexUntil X.lexToken (X.start l) ts = .ok (l', rest, true)) (hrest : Finds l' rest items) :
      Finds l ts ((X.entry l', X.rstatus l') :: items)

namespace Finds

variable {X} {l : L} {ts toks : List Token} {items : List (ε × ReturnStatus)}

/-- An entry of a known status. -/
theorem piece {l' : L} {rest : List Token} {e : ε} {status : ReturnStatus}
    (hready : X.ready l = true) (h : lexUntil X.lexToken (X.start l) ts = .ok (l', rest, true))
    (he : X.entry l' = e) (hstatus : X.rstatus l' = status) (hrest : X.Finds l' rest items) :
    X.Finds l ts ((e, status) :: items) := by
  subst he hstatus
  exact .next hready h hrest

/-- In front of an entry the end of a line is skipped. -/
theorem skipNewline (h : X.Finds l ts items)
    (hskip : X.lexToken (X.start l) .newline = .ok (X.start l, false)) :
    X.Finds l (.newline :: ts) items := by
  have hsame : lexUntil X.lexToken (X.start l) (.newline :: ts)
      = lexUntil X.lexToken (X.start l) ts := by
    rw [lexUntil, hskip]
  cases h with
  | done hready h => exact .done hready (hsame.trans h)
  | next hready h hrest => exact .next hready (hsame.trans h) hrest

/-- The newline at the end makes no difference. -/
theorem dropNewline (h : X.Finds l toks items) (htoks : toks = ts ++ [.newline]) :
    X.Finds l ts items := by
  induction h generalizing ts with
  | @done l l' toks hready h =>
      rw [htoks, lexUntil_append] at h
      cases hlex : lexUntil X.lexToken (X.start l) ts with
      | error e =>
          rw [hlex] at h
          cases h
      | ok r =>
          rcases r with ⟨l₁, rest, _ | _⟩
          · rcases eq_nil_of_lexUntil hlex with rfl
            exact .done hready hlex
          · rw [hlex] at h
            simp at h
  | @next l l' toks rest items hready h _ ih =>
      rw [htoks, lexUntil_append] at h
      cases hlex : lexUntil X.lexToken (X.start l) ts with
      | error e =>
          rw [hlex] at h
          cases h
      | ok r =>
          rcases r with ⟨l₁, rest₁, _ | _⟩
          · -- the newline does not return
            rcases X.newline l₁ with ⟨l₂, hnewline⟩
            rw [hlex] at h
            simp [lexUntil, hnewline] at h
          · rw [hlex] at h
            rcases Prod.mk.inj (Except.ok.inj h) with ⟨rfl, hrest⟩
            exact .next hready hlex (ih (Prod.mk.inj hrest).1.symm)

/-- What the lexer finds in the tokens, the streamer finds in the file. -/
theorem yields {lastAndFirstInvocationOverlap : ε → ε → Except Fault Bool}
    {mergeIntoAndReturnRemaining : ε → ε → Except Fault (ε × List ε)} (h : X.Finds l ts items) :
    ∀ {p : BlockReader Token}, BlockReader.Course cfcScanner p ts true →
      (X.entryStream lastAndFirstInvocationOverlap mergeIntoAndReturnRemaining).Yields ⟨l, p⟩
        items := by
  have hactive : ∀ l, decide (X.rstatus (X.start l) ≠ .active) = false := by
    intro l
    rw [X.rstatus_start]
    rfl
  induction h with
  | @done l l' ts hready h =>
      intro p hcourse
      rcases hcourse.parseEntry_eq X.returns (Nat.lt_succ_self _) (hactive l) h with
        ⟨p', hentry, -⟩
      have hfull : X.getFullEntry ⟨l, p⟩ = .ok (⟨l', p'⟩, X.entry l', false) := by
        simp only [getFullEntry, hready, if_true, hentry]
      exact EntryStream.Yields.done hfull
  | @next l l' ts rest items hready h _ ih =>
      intro p hcourse
      rcases hcourse.parseEntry_eq X.returns (Nat.lt_succ_self _) (hactive l) h with
        ⟨p', hentry, hmore⟩
      rcases hmore rfl with ⟨hrest, hless⟩
      have hfull : X.getFullEntry ⟨l, p⟩ = .ok (⟨l', p'⟩, X.entry l', true) := by
        simp only [getFullEntry, hready, if_true, hentry]
      exact EntryStream.Yields.next hfull hless (ih hrest)

/-- The entries of a file with these tokens. -/
theorem serves {lastAndFirstInvocationOverlap : ε → ε → Except Fault Bool}
    {mergeIntoAndReturnRemaining : ε → ε → Except Fault (ε × List ε)} (h : X.Finds l toks items)
    {reads : List BzRead} (hfile : Tells reads toks) {es : List ε}
    (hjoin : (X.entryStream lastAndFirstInvocationOverlap mergeIntoAndReturnRemaining).joinEntries
      none items = .ok (es, none)) :
    (X.entryStream lastAndFirstInvocationOverlap mergeIntoAndReturnRemaining).Serves
      ⟨l, BlockReader.new reads⟩ es := by
  rcases hfile.course with ⟨ts, hcourse, htoks | htoks⟩
  · subst htoks
    exact ⟨items, h.yields hcourse, hjoin⟩
  · exact ⟨items, (h.dropNewline htoks).yields hcourse, hjoin⟩

end Finds
end EntryLexer
end CamAlias
