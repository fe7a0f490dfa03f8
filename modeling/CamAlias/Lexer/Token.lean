import CamAlias.Lib.Decimal
import CamAlias.Lib.Scan
import Mathlib.Data.List.Basic
import Mathlib.Tactic.Common

/-!
# Token — the scanner generated for the trace lexers

`loop_trace_cfc_parser.lex` and `call_trace_cfc_parser.lex` have the same rules, so one scanner
serves both.  flex takes the longest match: a run of digits is one `NUMBER`, and `COMPLETE` and
`INCOMPLETE` are keywords.  The rule `.` has an empty action and gives no token.

`Scans t toks` says that the text `t` gives the tokens `toks` whatever follows it; texts are
printed in pieces that have this property, and it is closed under concatenation.
-/

namespace CamAlias

inductive Token
  | number (value : Nat)
  | dash
  | closebrace
  | openparen
  | closeparen
  | comma
  | newline
  | complete
  | incomplete
  deriving DecidableEq, Repr

/-- `INVOC_COMPLETE_SYMBOL`. -/
def completeSymbol : List Char := ['C', 'O', 'M', 'P', 'L', 'E', 'T', 'E']

/-- `INVOC_INCOMPLETE_SYMBOL`. -/
def incompleteSymbol : List Char := 'I' :: 'N' :: completeSymbol

/-- The single-character rules. -/
def charTokens (c : Char) : List Token :=
  if c = '-' then [.dash]
  else if c = '}' then [.closebrace]
  else if c = '(' then [.openparen]
  else if c = ')' then [.closeparen]
  else if c = ',' then [.comma]
  else if c = '\n' then [.newline]
  else []

/-- The `NUMBER` that ends where a digit run ends. -/
def numberTokens : Option Nat → List Token
  | some n => [.number n]
  | none => []

/-- The scanner.  `skip` counts the characters left of a keyword already reported, `acc` is the
value of the digit run being read. -/
def scan : Nat → Option Nat → List Char → List Token
  | _, acc, [] => numberTokens acc
  | skip + 1, _, _ :: cs => scan skip none cs
  | 0, acc, c :: cs =>
      if c.isDigit then
        scan 0 (some (10 * acc.getD 0 + (c.toNat - '0'.toNat))) cs
      else if completeSymbol.isPrefixOf (c :: cs) then
        numberTokens acc ++ .complete :: scan 7 none cs
      else if incompleteSymbol.isPrefixOf (c :: cs) then
        numberTokens acc ++ .incomplete :: scan 9 none cs
      else
        numberTokens acc ++ charTokens c ++ scan 0 none cs

/-- The tokens of a whole text. -/
def tokenise (text : List Char) : List Token :=
  scan 0 none text

/-! ## Texts that scan the same before any other text -/

/-- The text `t` is scanned into `toks`, whatever comes after it. -/
abbrev Scans : List Char → List Token → Prop :=
  Lib.Scans (scan 0 none)

theorem Scans.tokenise {t : List Char} {toks : List Token} (h : Scans t toks) :
    CamAlias.tokenise t = toks :=
  h.eq rfl

/-- The characters that are scanned by themselves: no digits and no first letter of a keyword. -/
def IsSeparator (c : Char) : Prop :=
  c.isDigit = false ∧ c ≠ 'C' ∧ c ≠ 'I'

instance (c : Char) : Decidable (IsSeparator c) :=
  inferInstanceAs (Decidable (_ ∧ _))

theorem scan_separator {c : Char} (hc : IsSeparator c) (acc : Option Nat) (cs : List Char) :
    scan 0 acc (c :: cs) = numberTokens acc ++ charTokens c ++ scan 0 none cs := by
  rcases hc with ⟨hdigit, hC, hI⟩
  have hcomplete : completeSymbol.isPrefixOf (c :: cs) = false := by
    simp [completeSymbol, List.isPrefixOf, Ne.symm hC]
  have hincomplete : incompleteSymbol.isPrefixOf (c :: cs) = false := by
    simp [incompleteSymbol, List.isPrefixOf, Ne.symm hI]
  simp [scan, hdigit, hcomplete, hincomplete]

theorem Scans.char {c : Char} (hc : IsSeparator c) : Scans [c] (charTokens c) := by
  intro rest
  simpa [numberTokens] using scan_separator hc none rest

theorem scan_digits (ds : List Char) (hds : ∀ d ∈ ds, d.isDigit = true) (hne : ds ≠ [])
    (acc : Option Nat) (rest : List Char) :
    scan 0 acc (ds ++ rest) = scan 0 (some (Nat.ofDigitChars 10 ds (acc.getD 0))) rest := by
  induction ds generalizing acc with
  | nil => exact absurd rfl hne
  | cons d ds ih =>
      have hd : d.isDigit = true := hds d (by simp)
      have hstep : scan 0 acc (d :: ds ++ rest)
          = scan 0 (some (10 * acc.getD 0 + (d.toNat - '0'.toNat))) (ds ++ rest) := by
        simp [scan, hd]
      rw [hstep]
      cases ds with
      | nil => simp [Nat.ofDigitChars]
      | cons d' ds' =>
          rw [ih (fun x hx => hds x (List.mem_cons_of_mem _ hx)) (by simp)]
          simp [Nat.ofDigitChars]

/-- A printed number is read back, provided a separator follows it. -/
theorem Scans.number {c : Char} (hc : IsSeparator c) (n : Nat) :
    Scans (Lib.decimal n ++ [c]) (.number n :: charTokens c) := by
  intro rest
  have hdigits : ∀ d ∈ Lib.decimal n, d.isDigit = true := fun d hd =>
    Lib.isDigit_of_mem_decimal hd
  rw [List.append_assoc, scan_digits _ hdigits (Lib.decimal_ne_nil n)]
  rw [List.singleton_append, scan_separator hc]
  simp [numberTokens, Lib.ofDigitChars_decimal]

theorem Scans.completeSymbol : Scans completeSymbol [.complete] := by
  intro rest
  simp [CamAlias.completeSymbol, scan, List.isPrefixOf, numberTokens]

theorem Scans.incompleteSymbol : Scans incompleteSymbol [.incomplete] := by
  intro rest
  simp [CamAlias.incompleteSymbol, CamAlias.completeSymbol, scan, List.isPrefixOf, numberTokens]

end CamAlias
