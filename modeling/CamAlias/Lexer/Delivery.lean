import CamAlias.Lexer.BlockReader

/-!
# Delivery — what a run over a whole file hands to the lexer

`Delivers` says which reads a file can come in.  Two defects of `BZ2ParserState.cpp` show.  The last
separator of a file is carried over as well, and `doLexing` has returned 0 before it is handed to
the lexer, so the newline at the end is a token only for lexers that have none for it.  And the end
of the file must have been seen with the end of the last stream, or a further stream is opened where
there is none.

* `BlockReader.course_of_delivers`: the tokens of the buffers, and whether the code gives up;
* `Delivered.course`: a file that is read to its end;
* `BlockReader.handsAll_iff`: when the lexer gets all tokens.
-/

namespace CamAlias

/-! ## What can be delivered -/

/-- The reads of one file, after `eof` has been seen or not.  A stream that is not at its end fills
the buffer.  Behind the end of a stream there is more in the file, unless it is the last. -/
inductive Delivers : Bool → List BzRead → Prop
  | last {eof : Bool} {r : BzRead} (hend : r.streamEnd = true) (hunused : r.nUnused = 0) :
      Delivers eof [r]
  | inside {eof : Bool} {r : BzRead} {reads : List BzRead} (hinside : r.streamEnd = false)
      (hbytes : r.bytes ≠ []) (hreads : Delivers (eof || r.feof) reads) : Delivers eof (r :: reads)
  | behind {eof : Bool} {r : BzRead} {reads : List BzRead} (hend : r.streamEnd = true)
      (hmore : r.nUnused ≠ 0 ∨ (eof || r.feof) = false) (hreads : Delivers (eof || r.feof) reads) :
      Delivers eof (r :: reads)

/-- The first bytes that are delivered contain a separator. -/
def FirstSeparated (reads : List BzRead) : Prop :=
  ∀ r, reads.find? (fun r => !r.bytes.isEmpty) = some r → ∃ c ∈ r.bytes, isSeparator c = true

theorem firstSeparated_cons {r : BzRead} {reads : List BzRead} :
    FirstSeparated (r :: reads) ↔
      if r.bytes = [] then FirstSeparated reads else ∃ c ∈ r.bytes, isSeparator c = true := by
  by_cases h : r.bytes = []
  · simp [FirstSeparated, h]
  · simp [FirstSeparated, h]

/-- The text comes in these reads, and the end of the file is seen with the end of the last stream. -/
structure Delivered (text : List Char) (reads : List BzRead) : Prop where
  delivers : Delivers false reads
  text : textOf reads = text
  first : FirstSeparated reads
  feof : ∃ r ∈ reads, r.feof = true

/-- The text of a trace: what lies between two separators is short, and it ends in a newline, if
anything has been written. -/
structure Lines (text : List Char) : Prop where
  short : ∀ rest, rest <:+: text → (∀ x ∈ rest, isSeparator x = false) → rest.length < maxRemainder
  newline : text = [] ∨ ∃ init, text = init ++ ['\n']

/-- Every 100 consecutive characters contain a separator, and the text ends in a newline. -/
structure TraceText (text : List Char) : Prop where
  separated : ∀ window, window <:+: text → window.length = maxRemainder →
    ∃ c ∈ window, isSeparator c = true
  newline : ∃ init, text = init ++ ['\n']

theorem TraceText.lines {text : List Char} (h : TraceText text) : Lines text := by
  refine ⟨fun rest hwithin hno => Nat.lt_of_not_le fun hle => ?_, Or.inr h.newline⟩
  have hwindow : rest.take maxRemainder <:+: text :=
    (List.take_prefix maxRemainder rest).isInfix.trans hwithin
  have hlen : (rest.take maxRemainder).length = maxRemainder := by
    rw [List.length_take]
    omega
  rcases h.separated _ hwindow hlen with ⟨c, hc, hsep⟩
  rw [hno c (List.mem_of_mem_take hc)] at hsep
  cases hsep

/-- The text in one read. -/
def wholeRead (text : List Char) : List BzRead :=
  [{ bytes := text, streamEnd := true, nUnused := 0, feof := true }]

theorem delivered_wholeRead {text : List Char} (h : text.any isSeparator = true) :
    Delivered text (wholeRead text) := by
  rcases List.any_eq_true.1 h with ⟨c, hc, hsep⟩
  refine ⟨.last rfl rfl, by simp [textOf, wholeRead], ?_, ⟨_, List.mem_singleton_self _, rfl⟩⟩
  rw [wholeRead, firstSeparated_cons, if_neg (List.ne_nil_of_mem hc)]
  exact ⟨c, hc, hsep⟩

theorem Lines.delivered {text : List Char} (h : Lines text) : Delivered text (wholeRead text) := by
  rcases h.newline with rfl | ⟨init, rfl⟩
  · exact ⟨.last rfl rfl, rfl, by simp [wholeRead, FirstSeparated],
      ⟨_, List.mem_singleton_self _, rfl⟩⟩
  · exact delivered_wholeRead (List.any_eq_true.2 ⟨'\n', by simp, rfl⟩)

/-- What one write leaves in a trace, or several. -/
structure PrintsLines (text : List Char) (toks : List Token) : Prop where
  prints : Prints text toks
  newline : text = [] ∨ ∃ init, text = init ++ ['\n']

namespace PrintsLines

variable {text text' : List Char} {toks toks' : List Token}

theorem nil : PrintsLines [] [] := ⟨Prints.nil, Or.inl rfl⟩

theorem append (h : PrintsLines text toks) (h' : PrintsLines text' toks') :
    PrintsLines (text ++ text') (toks ++ toks') := by
  refine ⟨h.prints.append h'.prints, ?_⟩
  rcases h'.newline with rfl | ⟨init, rfl⟩
  · rw [List.append_nil]
    exact h.newline
  · exact Or.inr ⟨text ++ init, (List.append_assoc _ _ _).symm⟩

theorem lines (h : PrintsLines text toks) : Lines text :=
  ⟨fun _ hwithin hno => h.prints.spaced.length_lt hwithin hno, h.newline⟩

end PrintsLines

/-- The text up to its last separator is the text without the newline at its end. -/
theorem Lines.eq_dropLast {text cut rest : List Char} {c : Char} (h : Lines text)
    (htext : text = cut ++ c :: rest) (hno : ∀ x ∈ rest, isSeparator x = false) :
    cut = text.dropLast := by
  rcases h.newline with rfl | ⟨init, rfl⟩
  · simp at htext
  · rw [List.dropLast_concat]
    rcases List.eq_nil_or_concat' rest with rfl | ⟨rest, x, rfl⟩
    · exact (List.append_inj' htext rfl).1.symm
    · have hlast : init ++ ['\n'] = (cut ++ c :: rest) ++ [x] := by simpa using htext
      rcases List.cons.inj (List.append_inj' hlast rfl).2 with ⟨rfl, -⟩
      exact absurd (hno '\n' (by simp)) (by decide)

namespace BlockReader

variable {τ : Type} {S : Scanner τ} {text cut : List Char} {p : BlockReader τ} {r : BzRead}
  {reads : List BzRead} {ts : List τ}

/-- Between two buffers: the lexer has been given the tokens of what has been cut off, and the rest
of the text is the remainder and what is still to be delivered. -/
structure Between (text cut : List Char) (p : BlockReader τ) : Prop where
  text_eq : text = cut ++ (p.remainder ++ textOf p.reads)
  idle : p.activeParser = false
  yybuf : p.yybuf = []
  remainder : (p.remainder = [] ∧ cut = []) ∨ ∃ c rest, p.remainder = c :: rest ∧
    isSeparator c = true ∧ ∀ x ∈ rest, isSeparator x = false

/-- The parser behind a read. -/
def afterRead (p : BlockReader τ) (r : BzRead) (reads : List BzRead) : BlockReader τ :=
  { p with
    eof := p.eof || r.feof
    reads
    bzf := !r.streamEnd
    nUnused := if r.streamEnd then r.nUnused else p.nUnused }

/-- The next buffer will have a separator. -/
def Separated (p : BlockReader τ) : Prop :=
  p.remainder ≠ [] ∨ FirstSeparated p.reads

/-- The condition on what is still to be delivered. -/
def Good (p : BlockReader τ) : Prop :=
  Separated p ∧ (p.eof = true ∨ ∃ r ∈ p.reads, r.feof = true)

theorem good_iff_of_read {q : BlockReader τ} (hreads : p.reads = r :: q.reads)
    (heof : q.eof = (p.eof || r.feof)) (hsep : Separated p ↔ Separated q) : Good p ↔ Good q := by
  rw [Good, Good, hsep, hreads, heof, List.exists_mem_cons_iff, Bool.or_eq_true, or_assoc]

/-- The course that the reads of a text have, from a parser that has cut off `cut`. -/
structure Comes (S : Scanner τ) (text cut : List Char) (p : BlockReader τ) (ts : List τ)
    (seen : Bool) : Prop where
  course : Course S p ts seen
  good : seen = true ↔ Good p
  tokens : Separated p → S.tokens cut ++ ts = S.tokens text.dropLast

namespace Between

/-- A buffer without a separator: the code gives up. -/
theorem comes_of_not_separated (h : Between text cut p) (hmore : p.atEnd = false)
    (hreads : p.reads = r :: reads) (hne : p.remainder ++ r.bytes ≠ [])
    (hno : ¬ ∃ c ∈ p.remainder ++ r.bytes, isSeparator c = true) :
    Comes S text cut p [] false := by
  have hsplit : split (p.remainder ++ r.bytes) = none :=
    split_eq_none fun c hc => Bool.eq_false_iff.2 fun hsep => hno ⟨c, hc, hsep⟩
  have hnonempty : (p.remainder ++ r.bytes).isEmpty = false := List.isEmpty_eq_false_iff.2 hne
  have hnot : ¬ Separated p := by
    intro hsep
    refine hno ?_
    rcases h.remainder with ⟨hfirst, -⟩ | ⟨c, rest, hrem, hc, -⟩
    · rw [hfirst, List.nil_append] at hne ⊢
      rw [Separated, hfirst, hreads, firstSeparated_cons, if_neg hne] at hsep
      exact hsep.resolve_left fun hnil => hnil rfl
    · exact ⟨c, by simp [hrem], hc⟩
  refine ⟨.gaveUp fun lexToken l => ?_, ⟨fun htrue => absurd htrue Bool.false_ne_true,
    fun hgood => absurd hgood.1 hnot⟩, fun hsep => absurd hsep hnot⟩
  simp [parseBlock, h.idle, hmore, hreads, hsplit, hnonempty]

/-- An empty stream is passed over. -/
theorem opened (h : Between text cut p) (hmore : p.atEnd = false) (hreads : p.reads = r :: reads)
    (hend : r.streamEnd = true) (hempty : p.remainder ++ r.bytes = []) :
    Between text cut (p.afterRead r reads) ∧
      ∀ {ts : List τ} {seen : Bool}, Comes S text cut (p.afterRead r reads) ts seen →
        Comes S text cut p ts seen := by
  rcases List.append_eq_nil_iff.1 hempty with ⟨hfirst, hnil⟩
  have hsep : Separated p ↔ Separated (p.afterRead r reads) := by
    rw [Separated, hreads, firstSeparated_cons, if_pos hnil]
    rfl
  refine ⟨⟨?_, h.idle, h.yybuf, h.remainder⟩, fun hrest => ⟨.opened ?_ ?_ hrest.course,
    hrest.good.trans (good_iff_of_read hreads rfl hsep).symm, fun h => hrest.tokens (hsep.1 h)⟩⟩
  · have htext := h.text_eq
    simpa [textOf, hreads, hnil, afterRead] using htext
  · intro σ lexToken l
    simp [parseBlock, h.idle, hmore, hreads, hend, hempty, afterRead]
  · have hsame : textOf (r :: reads) = textOf reads := by simp [textOf, hnil]
    simp only [calls, afterRead, hreads, hsame, List.length_cons]
    exact Nat.lt_succ_self _

/-- A read with a separator in reach: the buffer is cut. -/
theorem read (htext : Lines text) (h : Between text cut p) (hmore : p.atEnd = false)
    (hreads : p.reads = r :: reads)
    (hsep : ∃ c ∈ p.remainder ++ r.bytes, isSeparator c = true) :
    ∃ block q, Gives S p (S.tokens block) q ∧ Between text (cut ++ block) q ∧
      S.tokens cut ++ S.tokens block = S.tokens (cut ++ block) ∧ q.reads = reads ∧
      q.remainder ≠ [] ∧ q.eof = (p.eof || r.feof) ∧ q.bzf = !r.streamEnd ∧
      (r.streamEnd = true → q.nUnused = r.nUnused) ∧ (Good p ↔ Good q) := by
  rcases exists_last_separator hsep with ⟨block, c, rest, hbuf, hc, hno⟩
  have htext_eq : text = cut ++ (block ++ c :: rest) ++ textOf reads := by
    have hall := h.text_eq
    rw [hreads] at hall
    simpa [textOf, ← hbuf] using hall
  have hwithin : rest <:+: text :=
    ⟨cut ++ block ++ [c], textOf reads, by simp [htext_eq]⟩
  have hsplit : split (p.remainder ++ r.bytes) = some (block, c :: rest) := by
    rw [hbuf]
    exact split_append hc hno (htext.short rest hwithin hno)
  have hnonempty : (p.remainder ++ r.bytes).isEmpty = false := by simp [hbuf]
  let q : BlockReader τ := { p.afterRead r reads with remainder := c :: rest }
  have htokens : S.tokens cut ++ S.tokens block = S.tokens (cut ++ block) := by
    -- the block begins with a separator, or it is the first
    cases hblock : block with
    | nil => simp
    | cons x block' =>
        rcases h.remainder with ⟨-, hcut⟩ | ⟨c', rest', hrem, hc', -⟩
        · simp [hcut]
        · rw [hrem, hblock] at hbuf
          rcases List.cons.inj hbuf with ⟨rfl, -⟩
          exact (S.tokens_append cut block' c' hc').symm
  refine ⟨block, q, ⟨?_, h.idle, h.yybuf, ?_⟩, ⟨?_, h.idle, h.yybuf, Or.inr ⟨c, rest, rfl, hc, hno⟩⟩,
    htokens, rfl, List.cons_ne_nil _ _, rfl, rfl, ?_, ?_⟩
  · intro σ lexToken l
    simp only [parseBlock, h.idle, hmore, hreads, hnonempty, hsplit, q, afterRead, doLexing]
    simp
  · have hbufTokens : S.tokens (p.remainder ++ textOf (r :: reads))
        = S.tokens block ++ S.tokens (c :: rest ++ textOf reads) := by
      rw [textOf, List.flatMap_cons, ← List.append_assoc, hbuf, List.append_assoc]
      exact S.tokens_append block _ c hc
    simp only [calls, q, afterRead, hreads, hbufTokens, h.idle, h.yybuf,
      List.length_append, List.length_cons]
    omega
  · simpa [q, afterRead] using htext_eq
  · intro hend
    simp [q, afterRead, hend]
  · refine good_iff_of_read (q := q) hreads rfl ⟨fun _ => Or.inl (List.cons_ne_nil _ _), fun _ => ?_⟩
    rw [Separated, hreads]
    rcases h.remainder with ⟨hfirst, -⟩ | ⟨c', rest', hrem, -, -⟩
    · refine Or.inr (firstSeparated_cons.2 ?_)
      rw [hfirst, List.nil_append] at hsep
      split
      · rename_i hnil
        rw [hnil] at hsep
        simp at hsep
      · exact hsep
    · exact Or.inl (by rw [hrem]; exact List.cons_ne_nil _ _)

/-- Nothing is delivered any more.  If the end of the file has been seen nothing is left; otherwise
a further stream is opened behind it. -/
theorem comes_of_no_reads (h : Between text cut p) (hreads : p.reads = []) (hbzf : p.bzf = false)
    (hunused : p.nUnused = 0) (hnil : p.remainder = []) :
    Comes S text cut p [] p.eof := by
  have hatEnd : p.atEnd = p.eof := by simp [atEnd, hbzf, hunused]
  have hgood : p.eof = true ↔ Good p := by
    simp [Good, Separated, hreads, FirstSeparated]
  have hcut : cut = [] := by
    rcases h.remainder with ⟨-, hcut⟩ | ⟨c, rest, hrem, -⟩
    · exact hcut
    · rw [hnil] at hrem
      cases hrem
  have htokens : S.tokens cut ++ [] = S.tokens text.dropLast := by
    rw [h.text_eq, hreads, hnil, hcut]
    exact List.append_nil _
  cases heof : p.eof with
  | true =>
      rw [heof] at hatEnd hgood
      refine ⟨.stop (q := p) fun lexToken l => ?_, hgood, fun _ => htokens⟩
      have hidle := h.idle
      have hyybuf := h.yybuf
      rcases p with ⟨eof, bzf, nUnused, remainder, activeParser, yybuf, reads⟩
      simp only at heof hbzf hunused hnil hidle hyybuf
      subst heof hbzf hunused hnil hidle hyybuf
      simp [parseBlock, atEnd, doLexing, lexUntil]
  | false =>
      rw [heof] at hatEnd hgood
      exact ⟨.gaveUp fun lexToken l => by simp [parseBlock, h.idle, hatEnd, hreads], hgood,
        fun _ => htokens⟩

/-- The last read.  What is carried over from it is the newline at the end of the text. -/
theorem comes_of_last (htext : Lines text) (h : Between text cut p) (hmore : p.atEnd = false)
    (hreads : p.reads = [r]) (hend : r.streamEnd = true) (hunused : r.nUnused = 0) :
    ∃ ts seen, Comes S text cut p ts seen := by
  by_cases hempty : p.remainder ++ r.bytes = []
  · rcases h.opened (S := S) hmore hreads hend hempty with ⟨hbetween, hcomes⟩
    exact ⟨_, _, hcomes (hbetween.comes_of_no_reads rfl (by simp [afterRead, hend])
      (by simp [afterRead, hend, hunused]) (List.append_eq_nil_iff.1 hempty).1)⟩
  by_cases hsep : ∃ c ∈ p.remainder ++ r.bytes, isSeparator c = true
  · rcases h.read (S := S) htext hmore hreads hsep with
      ⟨block, q, hgives, hbetween, htokens, hreads', hrem, heof, hbzf, hunused', hgood⟩
    have hatEnd : q.atEnd = q.eof := by
      simp [atEnd, hbzf, hend, hunused' hend, hunused]
    have hseen : q.eof = true ↔ Good q := by
      simp [Good, Separated, hreads', hrem]
    have hall : S.tokens cut ++ S.tokens block = S.tokens text.dropLast := by
      rcases hbetween.remainder with ⟨hnil, -⟩ | ⟨c, rest, hrem', -, hno⟩
      · exact absurd hnil hrem
      · have hsplit := hbetween.text_eq
        rw [hrem', hreads', textOf, List.flatMap_nil, List.append_nil] at hsplit
        rw [htokens, htext.eq_dropLast hsplit hno]
    cases hcase : q.eof with
    | true =>
        rw [hcase] at hatEnd hseen
        exact ⟨_, true, .last hgives hatEnd, hseen.trans hgood.symm, fun _ => hall⟩
    | false =>
        rw [hcase] at hatEnd hseen
        -- a further stream is opened behind the end of the file
        have hcourse : Course S q [] false := .gaveUp fun lexToken l => by
          simp [parseBlock, hbetween.idle, hatEnd, hreads']
        exact ⟨_, false, .block hgives hatEnd hcourse, hseen.trans hgood.symm,
          fun _ => by rw [List.append_nil, hall]⟩
  · exact ⟨_, _, h.comes_of_not_separated hmore hreads hempty hsep⟩

/-- One read, with more reads behind it. -/
theorem comes_of_read (htext : Lines text) (h : Between text cut p) (hmore : p.atEnd = false)
    (hreads : p.reads = r :: reads) (hbytes : r.streamEnd = false → r.bytes ≠ [])
    (hnotEnd : r.streamEnd = true → r.nUnused ≠ 0 ∨ (p.eof || r.feof) = false)
    (ih : ∀ {q : BlockReader τ} {cut : List Char}, Between text cut q → q.reads = reads →
      q.eof = (p.eof || r.feof) → q.atEnd = false → ∃ ts seen, Comes S text cut q ts seen) :
    ∃ ts seen, Comes S text cut p ts seen := by
  have hopen : ∀ {q : BlockReader τ}, q.eof = (p.eof || r.feof) → q.bzf = !r.streamEnd →
      (r.streamEnd = true → q.nUnused = r.nUnused) → q.atEnd = false := by
    intro q heof hbzf hunused
    cases hend : r.streamEnd with
    | false => simp [atEnd, hbzf, hend]
    | true =>
        rcases hnotEnd hend with hne | heof'
        · simp [atEnd, hunused hend, hne]
        · simp [atEnd, heof, heof']
  by_cases hempty : p.remainder ++ r.bytes = []
  · have hend : r.streamEnd = true := by
      cases hcase : r.streamEnd with
      | true => rfl
      | false => exact absurd (List.append_eq_nil_iff.1 hempty).2 (hbytes hcase)
    rcases h.opened (S := S) hmore hreads hend hempty with ⟨hbetween, hcomes⟩
    have hnext : (p.afterRead r reads).atEnd = false :=
      hopen rfl rfl fun hend => by simp [afterRead, hend]
    rcases ih hbetween rfl rfl hnext with ⟨ts, seen, hrest⟩
    exact ⟨ts, seen, hcomes hrest⟩
  by_cases hsep : ∃ c ∈ p.remainder ++ r.bytes, isSeparator c = true
  · rcases h.read (S := S) htext hmore hreads hsep with
      ⟨block, q, hgives, hbetween, htokens, hreads', hrem, heof, hbzf, hunused, hgood⟩
    have hnext := hopen heof hbzf hunused
    rcases ih hbetween hreads' heof hnext with ⟨ts, seen, hrest⟩
    refine ⟨_, seen, .block hgives hnext hrest.course, hrest.good.trans hgood.symm, fun _ => ?_⟩
    rw [← List.append_assoc, htokens]
    exact hrest.tokens (Or.inl hrem)
  · exact ⟨_, _, h.comes_of_not_separated hmore hreads hempty hsep⟩

end Between

/-- The reads of a text hand its tokens to the lexer, except the newline at the end, or the code
gives up. -/
theorem course_of_delivers (S : Scanner τ) (htext : Lines text) {eof : Bool}
    (hreads : Delivers eof reads) :
    ∀ {p : BlockReader τ} {cut : List Char}, Between text cut p → p.reads = reads → p.eof = eof →
      p.atEnd = false → ∃ ts seen, Comes S text cut p ts seen := by
  induction hreads with
  | @last eof r hend hunused =>
      intro p cut h hpreads _ hmore
      exact h.comes_of_last htext hmore hpreads hend hunused
  | @inside eof r reads hinside hbytes _ ih =>
      intro p cut h hpreads heof hmore
      subst heof
      refine h.comes_of_read htext hmore hpreads (fun _ => hbytes) (fun hend => ?_) ih
      rw [hinside] at hend
      cases hend
  | @behind eof r reads hend hunused _ ih =>
      intro p cut h hpreads heof hmore
      subst heof
      refine h.comes_of_read htext hmore hpreads (fun hinside => ?_) (fun _ => hunused) ih
      rw [hend] at hinside
      cases hinside

theorem comes_new (S : Scanner τ) (htext : Lines (textOf reads)) (hreads : Delivers false reads) :
    ∃ ts seen, Comes S (textOf reads) [] (new reads) ts seen :=
  course_of_delivers S htext hreads ⟨rfl, rfl, rfl, Or.inl ⟨rfl, rfl⟩⟩ rfl rfl rfl

theorem good_new : Good (new reads : BlockReader τ) ↔
    FirstSeparated reads ∧ ∃ r ∈ reads, r.feof = true := by
  simp [Good, Separated, new]

end BlockReader

/-- The tokens of a file, whether its end is seen or not. -/
theorem Delivers.exists_course {τ : Type} (S : Scanner τ) {reads : List BzRead}
    (hreads : Delivers false reads) (hfirst : FirstSeparated reads) (htext : Lines (textOf reads)) :
    ∃ seen, BlockReader.Course S (BlockReader.new reads) (S.tokens (textOf reads).dropLast) seen := by
  rcases BlockReader.comes_new S htext hreads with ⟨ts, seen, hcourse, -, htokens⟩
  rw [← htokens (Or.inr hfirst), S.tokens_nil]
  exact ⟨seen, hcourse⟩

/-- A file that is read to its end. -/
theorem Delivered.course {τ : Type} (S : Scanner τ) {text : List Char} {reads : List BzRead}
    (h : Delivered text reads) (htext : Lines text) :
    BlockReader.Course S (BlockReader.new reads) (S.tokens text.dropLast) true := by
  rcases h with ⟨hdelivers, rfl, hfirst, hfeof⟩
  rcases BlockReader.comes_new S htext hdelivers with ⟨ts, seen, hcourse, hgood, htokens⟩
  rcases hgood.2 (BlockReader.good_new.2 ⟨hfirst, hfeof⟩) with rfl
  rw [← htokens (Or.inr hfirst), S.tokens_nil]
  exact hcourse

/-! ## All tokens -/

namespace BlockReader

variable {τ : Type} (S : Scanner τ) (stops : List τ → Bool)

/-- A lexer that keeps what it has been given, and stops where `stops` holds of it. -/
def collect (given : List τ) (t : τ) : Except Fault (List τ × Bool) :=
  .ok (given ++ [t], stops (given ++ [t]))

theorem lexAll_collect (ts : List τ) : ∀ given : List τ,
    lexAll (collect stops) given ts = .ok (given ++ ts) := by
  induction ts with
  | nil => simp [lexAll]
  | cons t ts ih =>
      intro given
      simp [lexAll, collect, ih]

/-- `parseAll` hands the lexer the tokens of the whole text. -/
def HandsAll (reads : List BzRead) : Prop :=
  ∃ fuel, parseAll S (collect stops) fuel [] (new reads) = .ok (S.tokens (textOf reads))

variable {S} {stops}

/-- More calls do not change what a run has returned. -/
theorem parseAll_mono {σ : Type} {lexToken : σ → τ → Except Fault (σ × Bool)} {fuel : Nat} :
    ∀ {l l' : σ} {p : BlockReader τ}, parseAll S lexToken fuel l p = .ok l' →
      ∀ k, parseAll S lexToken (fuel + k) l p = .ok l' := by
  induction fuel with
  | zero =>
      intro l l' p h
      cases h
  | succ fuel ih =>
      intro l l' p h k
      rw [Nat.add_right_comm]
      simp only [parseAll] at h ⊢
      split at h
      · cases h
      · exact ih h k
      · exact h

/-- The lexer gets all tokens if and only if the first bytes have a separator, the end of the file
has been seen with the end of the last stream, and the newline at the end is no token. -/
theorem handsAll_iff (S : Scanner τ) (stops : List τ → Bool) (reads : List BzRead)
    (hreads : Delivers false reads) (htext : TraceText (textOf reads)) :
    HandsAll S stops reads ↔
      FirstSeparated reads ∧ (∃ r ∈ reads, r.feof = true) ∧ S.tokens ['\n'] = [] := by
  rcases comes_new S htext.lines hreads with ⟨ts, seen, hcourse, hgood, htokens⟩
  have hall : S.tokens (textOf reads) = S.tokens (textOf reads).dropLast ++ S.tokens ['\n'] := by
    rcases htext.newline with ⟨init, hinit⟩
    rw [hinit, List.dropLast_concat, S.tokens_append init [] '\n' rfl]
  have hrun : ∀ fuel, calls S (new reads) < fuel →
      parseAll S (collect stops) fuel [] (new reads)
        = if seen then .ok ts else .error .abort := by
    intro fuel hfuel
    rw [hcourse.parseAll_eq hfuel, lexAll_collect, List.nil_append]
    rfl
  rw [HandsAll, hall, ← and_assoc, ← good_new (τ := τ), ← hgood]
  constructor
  · rintro ⟨fuel, hfuel⟩
    have hmore := parseAll_mono hfuel (calls S (new reads) + 1)
    rw [hrun _ (by omega)] at hmore
    cases seen with
    | false => cases hmore
    | true =>
        have hsame := Except.ok.inj hmore
        rw [← htokens (hgood.1 rfl).1, S.tokens_nil, List.nil_append] at hsame
        exact ⟨rfl, List.append_right_eq_self.1 hsame.symm⟩
  · rintro ⟨rfl, hnil⟩
    refine ⟨calls S (new reads) + 1, ?_⟩
    rw [hrun _ (Nat.lt_succ_self _), if_pos rfl, ← htokens (hgood.1 rfl).1, hnil, S.tokens_nil]
    simp

/-- Two streams of a memory trace, with a lexer that stops after every token. -/
theorem handsAll_iff_two_streams :
    let reads : List BzRead := [⟨['1', ',', '2'], true, 7, false⟩, ⟨['3', '\n'], true, 0, true⟩]
    Delivers false reads ∧ TraceText (textOf reads) ∧
      (HandsAll memoryScanner (fun _ => true) reads ↔ FirstSeparated reads ∧
        (∃ r ∈ reads, r.feof = true) ∧ memoryScanner.tokens ['\n'] = []) := by
  intro reads
  have hdelivers : Delivers false reads :=
    .behind rfl (Or.inl (by decide)) (.last rfl rfl)
  have htext : TraceText (textOf reads) := by
    refine ⟨?_, ['1', ',', '2', '3'], rfl⟩
    intro window hwithin hlen
    have hle := hwithin.length_le
    rw [hlen] at hle
    exact absurd hle (by decide)
  exact ⟨hdelivers, htext, handsAll_iff memoryScanner (fun _ => true) reads hdelivers htext⟩

/-- The newline at the end of a loop trace stays behind. -/
theorem not_handsAll_last_newline :
    let reads : List BzRead := [⟨['1', ',', '\n'], true, 0, true⟩]
    Delivers false reads ∧ TraceText (textOf reads) ∧
      ¬ HandsAll cfcScanner (fun _ => false) reads := by
  intro reads
  refine ⟨.last rfl rfl, ⟨?_, ['1', ','], rfl⟩, ?_⟩
  · intro window hwithin hlen
    have hle := hwithin.length_le
    rw [hlen] at hle
    exact absurd hle (by decide)
  · rintro ⟨fuel, hfuel⟩
    have hrun : parseAll cfcScanner (collect fun _ => false) 1 [] (new reads)
        = .ok [.number 1, .comma] := by
      rfl
    have hmore := parseAll_mono hrun fuel
    rw [Nat.add_comm, parseAll_mono hfuel 1] at hmore
    have hsame := Except.ok.inj hmore
    revert hsame
    decide

end BlockReader
end CamAlias
