import CamAlias.Lexer.Run
import CamAlias.Lexer.Scanner

/-!
# BlockReader — a compressed trace, handed to its lexer block by block

`BZ2ParserState.cpp`.  Each `parseBlock` decompresses a block, cuts it in front of the last separator
and carries the rest over to the next block.  bzlib and the file are taken as the reads that they
deliver: pieces of any size, in any number of streams.  The lexer may stop after any token.

Which tokens a buffer has does not depend on the lexer.  `Course S p ts seen` says that the buffers
still to come hold the tokens `ts`, and whether the code gives up behind them; `calls` bounds the
calls that it takes.  What a lexer makes of `ts` it then makes of the file:

* `Course.call`: one call of `parseBlock`;
* `Course.parseAll_eq`, `Course.parseEntry_eq`: the loops around it.
-/

namespace CamAlias

/-- What one call of `BZ2_bzRead` delivers: the bytes, and whether the stream ends with them; the
number of bytes that have been read behind its end, and whether the end of the file has been seen. -/
structure BzRead where
  bytes : List Char
  streamEnd : Bool
  nUnused : Nat
  feof : Bool

/-- The text that is delivered. -/
def textOf (reads : List BzRead) : List Char :=
  reads.flatMap BzRead.bytes

/-- `BZ2ParserState`, with `bzf` for `bzf != NULL` and in `yybuf` the tokens of the active buffer not
yet given to the lexer; and the reads that are still to come. -/
structure BlockReader (τ : Type) where
  eof : Bool
  bzf : Bool
  nUnused : Nat
  remainder : List Char
  activeParser : Bool
  yybuf : List τ
  reads : List BzRead

namespace BlockReader

variable {σ τ : Type} (S : Scanner τ) (lexToken : σ → τ → Except Fault (σ × Bool))

/-- `BZ2ParserState::BZ2ParserState`. -/
def new (reads : List BzRead) : BlockReader τ where
  eof := false
  bzf := false
  nUnused := 0
  remainder := []
  activeParser := false
  yybuf := []
  reads := reads

/-- Nothing is left to be read, by `eof` and what bzlib has said. -/
def atEnd (p : BlockReader τ) : Bool :=
  p.eof && p.nUnused == 0 && !p.bzf

/-- `doLexing` on the tokens of the buffer, `closeFile`, and what `doLexing` returned. -/
def doLexing (l : σ) (p : BlockReader τ) (feof : Bool) : Except Fault (σ × BlockReader τ × Bool) :=
  let p := { p with eof := p.eof || feof }
  match lexUntil lexToken l p.yybuf with
  | .error e => .error e
  | .ok (l, yybuf, true) => .ok (l, { p with yybuf, activeParser := true }, true)
  | .ok (l, _, false) => .ok (l, { p with yybuf := [], activeParser := false }, !p.atEnd)

/-- Cut the buffer in front of the last separator.  `none` where the code gives up: no separator, or
none among the last `MAXREMAINDER` characters. -/
def split (buf : List Char) : Option (List Char × List Char) :=
  let rem := buf.reverse.findIdx isSeparator + 1
  if rem ≤ maxRemainder ∧ rem ≤ buf.length then
    some (buf.take (buf.length - rem), buf.drop (buf.length - rem))
  else none

/-- `parseBlock`, and what it returned.  A read with nothing left to read is the error
`BZ_UNEXPECTED_EOF`, and `exit(-1)` is taken as `abort()`. -/
def parseBlock (l : σ) (p : BlockReader τ) : Except Fault (σ × BlockReader τ × Bool) :=
  if p.activeParser then doLexing lexToken l p false
  else if !p.atEnd then
    match p.reads with
    | [] => .error .abort
    | r :: reads =>
        let buf := p.remainder ++ r.bytes
        let p := { p with
          reads
          bzf := !r.streamEnd
          nUnused := if r.streamEnd then r.nUnused else p.nUnused }
        -- an empty stream
        if r.streamEnd && buf.isEmpty then .ok (l, { p with eof := p.eof || r.feof }, true)
        else
          match split buf with
          | none => .error .abort
          | some (block, remainder) =>
              doLexing lexToken l { p with remainder, yybuf := S.tokens block } r.feof
  else doLexing lexToken l { p with yybuf := S.tokens p.remainder } false

/-- `parseAll`. -/
def parseAll : Nat → σ → BlockReader τ → Except Fault σ
  | 0, _, _ => .error .noFuel
  | fuel + 1, l, p =>
      match parseBlock S lexToken l p with
      | .error e => .error e
      | .ok (l, p, true) => parseAll fuel l p
      | .ok (l, _, false) => .ok l

/-- The loop of `getFullEntry`, until nothing is left or the lexer says by its status that it has
returned. -/
def parseEntry (returned : σ → Bool) : Nat → σ → BlockReader τ →
    Except Fault (σ × BlockReader τ × Bool)
  | 0, _, _ => .error .noFuel
  | fuel + 1, l, p =>
      match parseBlock S lexToken l p with
      | .error e => .error e
      | .ok (l, p, false) => .ok (l, p, false)
      | .ok (l, p, true) => if returned l then .ok (l, p, true) else parseEntry returned fuel l p

/-- A bound for the calls of `parseBlock`.  Each gives the lexer a token, makes a read or ends a
buffer. -/
def calls (p : BlockReader τ) : Nat :=
  p.yybuf.length + (if p.activeParser then 1 else 0) + (S.tokens (p.remainder ++ textOf p.reads)).length
    + p.reads.length

/-! ## Cutting -/

theorem split_append {block rest : List Char} {c : Char} (hc : isSeparator c = true)
    (hno : ∀ x ∈ rest, isSeparator x = false) (hlen : rest.length < maxRemainder) :
    split (block ++ c :: rest) = some (block, c :: rest) := by
  have hidx : (block ++ c :: rest).reverse.findIdx isSeparator = rest.length := by
    have hrev : (block ++ c :: rest).reverse = rest.reverse ++ c :: block.reverse := by simp
    have hskip : rest.reverse.findIdx isSeparator = rest.reverse.length := by
      rw [List.findIdx_eq_length]
      intro x hx
      exact hno x (List.mem_reverse.1 hx)
    rw [hrev, List.findIdx_append, hskip, if_neg (Nat.lt_irrefl _), List.findIdx_cons, hc]
    simp
  have hrem : (block ++ c :: rest).length - (rest.length + 1) = block.length := by
    rw [List.length_append, List.length_cons]
    omega
  simp only [split, hidx, hrem]
  rw [if_pos ⟨hlen, by simp⟩]
  simp

theorem split_eq_none {buf : List Char} (h : ∀ c ∈ buf, isSeparator c = false) :
    split buf = none := by
  have hidx : buf.reverse.findIdx isSeparator = buf.reverse.length := by
    rw [List.findIdx_eq_length]
    intro x hx
    exact h x (List.mem_reverse.1 hx)
  simp [split, hidx]

/-! ## The tokens of the buffers -/

variable {S} {lexToken}

/-- The next buffer holds the tokens `ts`.  The parser is `q` when the lexer has taken them all. -/
structure Gives (S : Scanner τ) (p : BlockReader τ) (ts : List τ) (q : BlockReader τ) : Prop where
  parseBlock_eq : ∀ {σ : Type} (lexToken : σ → τ → Except Fault (σ × Bool)) (l : σ),
    parseBlock S lexToken l p = doLexing lexToken l { q with yybuf := ts } false
  idle : q.activeParser = false
  yybuf : q.yybuf = []
  less : ts.length + calls S q < calls S p

/-- The buffers of `p` hold the tokens `ts`, and behind them `parseBlock` returns 0 if `seen`, and
gives up otherwise. -/
inductive Course (S : Scanner τ) : BlockReader τ → List τ → Bool → Prop
  | stop {p q : BlockReader τ}
      (h : ∀ {σ : Type} (lexToken : σ → τ → Except Fault (σ × Bool)) (l : σ),
        parseBlock S lexToken l p = .ok (l, q, false)) : Course S p [] true
  | last {p q : BlockReader τ} {ts : List τ} (h : Gives S p ts q) (hend : q.atEnd = true) :
      Course S p ts true
  | block {p q : BlockReader τ} {us ts : List τ} {seen : Bool} (h : Gives S p us q)
      (hmore : q.atEnd = false) (hrest : Course S q ts seen) : Course S p (us ++ ts) seen
  | opened {p q : BlockReader τ} {ts : List τ} {seen : Bool}
      (h : ∀ {σ : Type} (lexToken : σ → τ → Except Fault (σ × Bool)) (l : σ),
        parseBlock S lexToken l p = .ok (l, q, true))
      (hless : calls S q < calls S p) (hrest : Course S q ts seen) : Course S p ts seen
  | gaveUp {p : BlockReader τ}
      (h : ∀ {σ : Type} (lexToken : σ → τ → Except Fault (σ × Bool)) (l : σ),
        parseBlock S lexToken l p = .error .abort) : Course S p [] false

variable {l l' : σ} {p q : BlockReader τ} {ts us : List τ} {seen : Bool}

/-- A buffer that the lexer has not taken to its end. -/
def active (q : BlockReader τ) (yybuf : List τ) : BlockReader τ :=
  { q with yybuf, activeParser := true }

/-- It is gone on with in the next call. -/
theorem gives_active (hidle : q.activeParser = false) (hyybuf : q.yybuf = []) (us : List τ) :
    Gives S (q.active us) us q := by
  refine ⟨fun lexToken l => ?_, hidle, hyybuf, ?_⟩
  · rw [parseBlock, active, if_pos rfl]
    simp only [doLexing, hidle]
    rfl
  · simp only [calls, active, hidle, hyybuf, List.length_nil, if_true, Bool.false_eq_true, if_false]
    omega

theorem Gives.doLexing_eq (h : Gives S p ts q) (lexToken : σ → τ → Except Fault (σ × Bool))
    (l : σ) : parseBlock S lexToken l p
      = match lexUntil lexToken l ts with
        | .error e => .error e
        | .ok (l, us, true) => .ok (l, q.active us, true)
        | .ok (l, _, false) => .ok (l, q, !q.atEnd) := by
  have heof : (q.eof || false) = q.eof := Bool.or_false q.eof
  rw [h.parseBlock_eq]
  simp only [doLexing, heof]
  cases lexUntil lexToken l ts with
  | error e => rfl
  | ok r =>
      rcases r with ⟨l', us, _ | _⟩
      · rcases q with ⟨eof, bzf, nUnused, remainder, activeParser, yybuf, reads⟩
        rcases h.idle with rfl
        rcases h.yybuf with rfl
        rfl
      · rfl

/-- A stop leaves fewer calls. -/
theorem Gives.calls_active (h : Gives S p ts q) (hlt : us.length < ts.length) :
    calls S (q.active us) < calls S p := by
  have hless := h.less
  have hcalls : calls S (q.active us) = us.length + calls S q + 1 := by
    simp only [calls, active, h.idle, h.yybuf, List.length_nil, if_true, Bool.false_eq_true,
      if_false]
    omega
  omega

/-- One call of `parseBlock` on a parser with the tokens `ts`. -/
inductive Call (S : Scanner τ) (lexToken : σ → τ → Except Fault (σ × Bool)) (l : σ)
    (p : BlockReader τ) (ts : List τ) (seen : Bool) : Prop
  | failed {e : Fault} (hlex : lexUntil lexToken l ts = .error e)
      (hcall : parseBlock S lexToken l p = .error e)
  | stopped {l' : σ} {rest : List τ} {p' : BlockReader τ}
      (hlex : lexUntil lexToken l ts = .ok (l', rest, true))
      (hcall : parseBlock S lexToken l p = .ok (l', p', true)) (hless : calls S p' < calls S p)
      (hrest : Course S p' rest seen)
  | wentOn {l' : σ} {us rest : List τ} {p' : BlockReader τ} (hts : ts = us ++ rest)
      (hlex : lexUntil lexToken l us = .ok (l', [], false))
      (hcall : parseBlock S lexToken l p = .ok (l', p', true)) (hless : calls S p' < calls S p)
      (hrest : Course S p' rest seen)
  | done {l' : σ} {p' : BlockReader τ} (hlex : lexUntil lexToken l ts = .ok (l', [], false))
      (hcall : parseBlock S lexToken l p = .ok (l', p', false)) (hseen : seen = true)
  | gaveUp (hts : ts = []) (hcall : parseBlock S lexToken l p = .error .abort)
      (hseen : seen = false)

theorem Course.call (h : Course S p ts seen) (lexToken : σ → τ → Except Fault (σ × Bool)) (l : σ) :
    Call S lexToken l p ts seen := by
  cases h with
  | stop h => exact .done rfl (h lexToken l) rfl
  | gaveUp h => exact .gaveUp rfl (h lexToken l) rfl
  | opened h hless hrest => exact .wentOn (List.nil_append ts).symm rfl (h lexToken l) hless hrest
  | @last _ q _ h hend =>
      have hcall := h.doLexing_eq lexToken l
      cases hlex : lexUntil lexToken l ts with
      | error e => exact .failed hlex (by rw [hcall, hlex])
      | ok r =>
          rcases r with ⟨l', rest, _ | _⟩
          · rcases eq_nil_of_lexUntil hlex with rfl
            exact .done hlex (by rw [hcall, hlex, hend]; rfl) rfl
          · exact .stopped hlex (by rw [hcall, hlex])
              (h.calls_active (length_lt_of_lexUntil hlex))
              (.last (gives_active h.idle h.yybuf rest) hend)
  | @block _ q us ts _ h hmore hrest =>
      have hcall := h.doLexing_eq lexToken l
      have happend : lexUntil lexToken l (us ++ ts) = _ := lexUntil_append us ts l
      cases hlex : lexUntil lexToken l us with
      | error e => exact .failed (by rw [happend, hlex]) (by rw [hcall, hlex])
      | ok r =>
          rcases r with ⟨l', rest, _ | _⟩
          · rcases eq_nil_of_lexUntil hlex with rfl
            have hless : calls S q < calls S p := Nat.lt_of_le_of_lt (Nat.le_add_left _ _) h.less
            exact .wentOn rfl hlex (by rw [hcall, hlex, hmore]; rfl) hless hrest
          · exact .stopped (by rw [happend, hlex]) (by rw [hcall, hlex])
              (h.calls_active (length_lt_of_lexUntil hlex))
              (.block (gives_active h.idle h.yybuf rest) hmore hrest)

/-! ## Loops -/

/-- `parseAll` runs the lexer over the tokens, over its returns. -/
theorem Course.parseAll_eq {fuel : Nat} : ∀ {l : σ} {p : BlockReader τ} {ts : List τ},
    Course S p ts seen → calls S p < fuel → parseAll S lexToken fuel l p
      = (lexAll lexToken l ts).bind fun l' => if seen then .ok l' else .error .abort := by
  induction fuel with
  | zero => exact fun _ hfuel => absurd hfuel (Nat.not_lt_zero _)
  | succ fuel ih =>
      intro l p ts h hfuel
      rw [parseAll]
      cases h.call lexToken l with
      | failed hlex hcall => rw [hcall, lexAll_error_of_lexUntil hlex]; rfl
      | stopped hlex hcall hless hrest =>
          rw [hcall, lexAll_eq_of_lexUntil hlex]
          exact ih hrest (by omega)
      | wentOn hts hlex hcall hless hrest =>
          rw [hcall, hts, lexAll_append, lexAll_eq_of_lexUntil hlex]
          exact ih hrest (by omega)
      | done hlex hcall hseen => rw [hcall, hseen, lexAll_eq_of_lexUntil hlex]; rfl
      | gaveUp hts hcall hseen => rw [hcall, hts, hseen]; rfl

section Entry

variable {returned : σ → Bool}

/-- The lexer returns if and only if its status says so. -/
def Returns (lexToken : σ → τ → Except Fault (σ × Bool)) (returned : σ → Bool) : Prop :=
  ∀ l t l' more, lexToken l t = .ok (l', more) → returned l = false → returned l' = more

theorem Returns.lexUntil (h : Returns lexToken returned) {rest : List τ} {more : Bool} :
    ∀ {l l' : σ} {ts : List τ}, CamAlias.lexUntil lexToken l ts = .ok (l', rest, more) →
      returned l = false → returned l' = more := by
  intro l l' ts
  induction ts generalizing l with
  | nil =>
      intro hlex hl
      rcases Prod.mk.inj (Except.ok.inj hlex) with ⟨rfl, hmore⟩
      rw [← (Prod.mk.inj hmore).2, hl]
  | cons t ts ih =>
      intro hlex hl
      simp only [CamAlias.lexUntil] at hlex
      split at hlex
      · cases hlex
      · rename_i ht
        rcases Prod.mk.inj (Except.ok.inj hlex) with ⟨rfl, hmore⟩
        rw [h _ _ _ _ ht hl, ← (Prod.mk.inj hmore).2]
      · rename_i ht
        exact ih hlex (h _ _ _ _ ht hl)

/-- The loop of `getFullEntry` runs the lexer over the tokens, up to its next return. -/
theorem Course.parseEntry_eq (hreturns : Returns lexToken returned) {fuel : Nat} :
    ∀ {l l' : σ} {p : BlockReader τ} {ts rest : List τ} {more : Bool}, Course S p ts true →
      calls S p < fuel → returned l = false → lexUntil lexToken l ts = .ok (l', rest, more) →
      ∃ p', parseEntry S lexToken returned fuel l p = .ok (l', p', more) ∧
        (more = true → Course S p' rest true ∧ calls S p' < calls S p) := by
  induction fuel with
  | zero => exact fun _ hfuel => absurd hfuel (Nat.not_lt_zero _)
  | succ fuel ih =>
      intro l l' p ts rest more h hfuel hl hall
      rw [parseEntry]
      cases h.call lexToken l with
      | failed hlex hcall =>
          rw [hall] at hlex
          cases hlex
      | @stopped l₁ rest₁ p' hlex hcall hless hrest =>
          have hreturned := hreturns.lexUntil hlex hl
          rw [hall] at hlex
          rcases Prod.mk.inj (Except.ok.inj hlex) with ⟨rfl, hmore⟩
          rcases Prod.mk.inj hmore with ⟨rfl, rfl⟩
          rw [hcall]
          exact ⟨p', if_pos hreturned, fun _ => ⟨hrest, hless⟩⟩
      | @wentOn l₁ us rest₁ p' hts hlex hcall hless hrest =>
          have hreturned := hreturns.lexUntil hlex hl
          rw [hts, lexUntil_append, hlex] at hall
          rcases ih hrest (by omega) hreturned hall with ⟨p'', hentry, hmore⟩
          simp only [hcall, hreturned, Bool.false_eq_true, if_false]
          refine ⟨p'', hentry, fun htrue => ?_⟩
          exact ⟨(hmore htrue).1, Nat.lt_trans (hmore htrue).2 hless⟩
      | @done l₁ p' hlex hcall hseen =>
          rw [hall] at hlex
          rcases Prod.mk.inj (Except.ok.inj hlex) with ⟨rfl, hmore⟩
          rcases Prod.mk.inj hmore with ⟨-, rfl⟩
          rw [hcall]
          exact ⟨p', rfl, fun htrue => absurd htrue Bool.false_ne_true⟩
      | gaveUp hts hcall hseen => cases hseen

end Entry
end BlockReader
end CamAlias
