import CamAlias.Lexer.Token
import CamAlias.Lib.Gap
import CamAlias.Memory.Lexer

/-!
# Scanner — a text cut in front of a separator

`BZ2ParserState.cpp` cuts the text of a trace in front of a space, a closing parenthesis, a comma or
the end of a line, and its lexer scans the blocks apart.  No rule of the generated scanners goes on
over such a character, so the blocks have the tokens of the text (`Scanner.tokens_append`).

What lies between two separators has to be short.  `Spaced` counts the characters behind the last
separator, and is known of a text if it is known of its pieces.
-/

namespace CamAlias

open Lib

/-- `MAXREMAINDER`. -/
def maxRemainder : Nat := 100

/-- The characters that `parseBlock` looks for from the back of its buffer. -/
def isSeparator (c : Char) : Bool :=
  c = ' ' || c = ')' || c = ',' || c = '\n'

theorem eq_of_isSeparator {c : Char} (hc : isSeparator c = true) :
    c = ' ' ∨ c = ')' ∨ c = ',' ∨ c = '\n' := by
  simpa [isSeparator, or_assoc] using hc

/-- A generated scanner.  No token goes on over a separator, so the text before a separator and the
text from it on are scanned apart. -/
structure Scanner (τ : Type) where
  tokens : List Char → List τ
  tokens_append : ∀ (text rest : List Char) (c : Char), isSeparator c = true →
    tokens (text ++ c :: rest) = tokens text ++ tokens (c :: rest)

@[simp] theorem Scanner.tokens_nil {τ : Type} (S : Scanner τ) : S.tokens [] = [] := by
  have h := S.tokens_append [] [] '\n' rfl
  rw [List.nil_append] at h
  exact List.append_left_eq_self.1 h.symm

/-! ## The scanners of the traces -/

theorem isPrefixOf_append_of_notMem {keyword : List Char} {c : Char} (hc : c ∉ keyword)
    (rest : List Char) : ∀ text : List Char,
      keyword.isPrefixOf (text ++ c :: rest) = keyword.isPrefixOf text := by
  induction keyword with
  | nil => simp
  | cons k keyword ih =>
      rcases not_or.1 (List.mem_cons.not.1 hc) with ⟨hk, hrest⟩
      intro text
      cases text with
      | nil => simp [List.isPrefixOf, Ne.symm hk]
      | cons x text => simp [List.isPrefixOf, ih hrest]

/-- A separator ends a number, and no keyword has one. -/
theorem scan_append_separator {c : Char} (hc : isSeparator c = true) (rest : List Char) :
    ∀ (text : List Char) (skip : Nat) (acc : Option Nat), skip ≤ text.length →
      scan skip acc (text ++ c :: rest) = scan skip acc text ++ tokenise (c :: rest) := by
  have hsep : IsSeparator c := by
    rcases eq_of_isSeparator hc with rfl | rfl | rfl | rfl <;> decide
  have hcomplete : c ∉ completeSymbol := by
    rcases eq_of_isSeparator hc with rfl | rfl | rfl | rfl <;> decide
  have hincomplete : c ∉ incompleteSymbol := by
    rcases eq_of_isSeparator hc with rfl | rfl | rfl | rfl <;> decide
  intro text
  induction text with
  | nil =>
      intro skip acc hskip
      rcases Nat.le_zero.1 hskip with rfl
      rw [List.nil_append, tokenise, scan_separator hsep, scan_separator hsep]
      simp [scan, numberTokens]
  | cons x text ih =>
      intro skip acc hskip
      -- inside a keyword only its letters are skipped
      cases skip with
      | succ skip =>
          have hle : skip ≤ text.length := Nat.le_of_succ_le_succ hskip
          simpa [scan] using ih skip none hle
      | zero =>
          have hprefix := isPrefixOf_append_of_notMem hcomplete rest (x :: text)
          have hprefix' := isPrefixOf_append_of_notMem hincomplete rest (x :: text)
          rw [List.cons_append] at hprefix hprefix'
          simp only [List.cons_append, scan, hprefix, hprefix']
          split
          · exact ih 0 _ (Nat.zero_le _)
          · split
            · rename_i hkeyword
              have hlen := (List.isPrefixOf_iff_prefix.1 hkeyword).length_le
              have hle : 7 ≤ text.length := Nat.le_of_succ_le_succ hlen
              simp [ih 7 none hle]
            · split
              · rename_i hkeyword
                have hlen := (List.isPrefixOf_iff_prefix.1 hkeyword).length_le
                have hle : 9 ≤ text.length := Nat.le_of_succ_le_succ hlen
                simp [ih 9 none hle]
              · simp [ih 0 none (Nat.zero_le _)]

theorem scanSigned_append (s : SignedScan) (xs ys : List Char) {c : Char}
    (hc : isSeparator c = true) : scanSigned s (xs ++ c :: ys)
      = scanSigned s xs ++ scanSigned .start (c :: ys) := by
  have hdigit : c.isDigit = false := by
    rcases eq_of_isSeparator hc with rfl | rfl | rfl | rfl <;> decide
  have hdash : c ≠ '-' := by
    rcases eq_of_isSeparator hc with rfl | rfl | rfl | rfl <;> decide
  induction xs generalizing s with
  | nil => simp [scanSigned, hdigit, hdash, SignedScan.numbers]
  | cons x xs ih =>
      rw [List.cons_append]
      by_cases hx : x.isDigit = true
      · simp only [scanSigned, if_pos hx]
        exact ih _
      · have hstep : ∀ zs, scanSigned s (x :: zs)
            = s.numbers ++ scanSigned (if x = '-' then .dash else .start) zs := by
          intro zs
          simp only [scanSigned, if_neg hx]
        rw [hstep, hstep, ih, List.append_assoc]

/-- The scanner of `loop_trace_cfc_parser.lex` and `call_trace_cfc_parser.lex`. -/
def cfcScanner : Scanner Token where
  tokens := tokenise
  tokens_append := fun text rest _ hc => scan_append_separator hc rest text 0 none (Nat.zero_le _)

/-- The scanner of `memory_trace_parser.lex`. -/
def memoryScanner : Scanner Int where
  tokens := scanSigned .start
  tokens_append := fun text rest _ hc => scanSigned_append .start text rest hc

/-! ## Short pieces -/

/-- With at most `k` characters behind the last separator in front of the text, fewer than
`MAXREMAINDER` lie between any two, and at most `m` behind the last. -/
abbrev Spaced (k : Nat) (text : List Char) (m : Nat) : Prop :=
  GapTo isSeparator maxRemainder k text m

/-- A number in front of a separator. -/
theorem spaced_decimal {c : Char} (hc : isSeparator c = true) {n k : Nat} (hn : n < 2 ^ 64)
    (hk : k < 80) : Spaced k (decimal n ++ [c]) 0 := by
  have hlength := length_decimal_le hn
  refine GapTo.before_separator hc ?_
  simp only [maxRemainder]
  omega

/-- A piece of a trace: it is scanned whatever follows, and ends with a separator. -/
structure Prints (text : List Char) (toks : List Token) : Prop where
  scans : Scans text toks
  spaced : Spaced 0 text 0

namespace Prints

variable {text text' : List Char} {toks toks' : List Token}

theorem nil : Prints [] [] := ⟨Scans.nil, GapTo.nil⟩

theorem append (h : Prints text toks) (h' : Prints text' toks') :
    Prints (text ++ text') (toks ++ toks') :=
  ⟨h.scans.append h'.scans, h.spaced.append h'.spaced⟩

theorem flatMap {γ : Type} {print : γ → List Char} {tokens : γ → List Token} {xs : List γ}
    (h : ∀ x ∈ xs, Prints (print x) (tokens x)) : Prints (xs.flatMap print) (xs.flatMap tokens) :=
  ⟨Scans.flatMap fun x hx => (h x hx).scans, GapTo.flatMap fun x hx => (h x hx).spaced⟩

theorem char {c : Char} (hc : isSeparator c = true) : Prints [c] (charTokens c) :=
  ⟨Scans.char (by rcases eq_of_isSeparator hc with rfl | rfl | rfl | rfl <;> decide),
    GapTo.separator hc⟩

theorem number {c : Char} (hc : isSeparator c = true) {n : Nat} (hn : n < 2 ^ 64) :
    Prints (decimal n ++ [c]) (.number n :: charTokens c) :=
  ⟨Scans.number (by rcases eq_of_isSeparator hc with rfl | rfl | rfl | rfl <;> decide) n,
    spaced_decimal hc hn (by omega)⟩

theorem newline : Prints ['\n'] [.newline] := char rfl

end Prints

/-- A text between two separators is short. -/
theorem Spaced.length_lt {text rest : List Char} {m : Nat} (h : Spaced 0 text m)
    (hwithin : rest <:+: text) (hno : ∀ x ∈ rest, isSeparator x = false) :
    rest.length < maxRemainder := by
  refine Nat.lt_of_not_le fun hle => ?_
  have hwindow : rest.take maxRemainder <:+: text :=
    (List.take_prefix maxRemainder rest).isInfix.trans hwithin
  have hlen : (rest.take maxRemainder).length = maxRemainder := by
    rw [List.length_take]
    omega
  rcases h.exists_separator (by decide) hwindow hlen with ⟨c, hc, hsep⟩
  rw [hno c (List.mem_of_mem_take hc)] at hsep
  cases hsep

/-- The last separator of a text. -/
theorem exists_last_separator {buf : List Char} (h : ∃ c ∈ buf, isSeparator c = true) :
    ∃ block c rest, buf = block ++ c :: rest ∧ isSeparator c = true ∧
      ∀ x ∈ rest, isSeparator x = false := by
  induction buf with
  | nil => simp at h
  | cons x buf ih =>
      by_cases hrest : ∃ c ∈ buf, isSeparator c = true
      · rcases ih hrest with ⟨block, c, rest, rfl, hc, hno⟩
        exact ⟨x :: block, c, rest, rfl, hc, hno⟩
      · refine ⟨[], x, buf, rfl, ?_, ?_⟩
        · rcases h with ⟨c, hc, hsep⟩
          rcases List.mem_cons.1 hc with rfl | hc
          · exact hsep
          · exact absurd ⟨c, hc, hsep⟩ hrest
        · intro y hy
          have hnot : ¬ isSeparator y = true := fun hsep => hrest ⟨y, hy, hsep⟩
          simpa using hnot

end CamAlias
