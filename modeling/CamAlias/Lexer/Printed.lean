import CamAlias.Analyser.LoopRec
import CamAlias.Lexer.Run
import CamAlias.Tracer.Write

/-!
# Printed — repetition patterns and groups as they stand in a trace file

Both trace files are made of groups: ranges in braces, then a control flow, then the end of the
line.  `PrintedGroup` is what a group's text says.  The lexers read it with `readRepetitionPattern`
and `readCfc`; `toCfcGroup` is the group that the analyser builds from it.

* `prints_ranges`, `prints_print`: the tokens of the texts, and how far apart their separators are;
* `RepPatReader.readAll_rangesTokens`: the ranges are read back;
* `reads_pattern`, `reads_controlFlow`: what follows for a lexer that passes its tokens on to
  `readRepetitionPattern` or `readCfc`.
-/

namespace CamAlias

open Lib

/-! ## The tokens of ranges -/

/-- The tokens of one range. -/
def rangeTokens (r : Nat × Nat) : List Token :=
  if r.1 = r.2 then [.number r.1] else [.number r.1, .dash, .number r.2]

/-- The tokens of the ranges between the braces. -/
def rangesTokens : List (Nat × Nat) → List Token
  | [] => []
  | [r] => rangeTokens r
  | r :: rs => rangeTokens r ++ .comma :: rangesTokens rs

/-- One range in front of a separator. -/
theorem scans_printRange {c : Char} (hc : IsSeparator c) (r : Nat × Nat) :
    Scans (printRange r ++ [c]) (rangeTokens r ++ charTokens c) := by
  by_cases hr : r.1 = r.2
  · simpa [printRange, rangeTokens, hr] using Scans.number hc r.2
  · have hfirst : Scans (decimal r.1 ++ ['-']) [.number r.1, .dash] :=
      Scans.number (by decide) r.1
    have hboth := hfirst.append (Scans.number hc r.2)
    simpa [printRange, rangeTokens, hr] using hboth

theorem scans_printRangeList (rs : List (Nat × Nat)) :
    Scans (printRangeList rs) (rangesTokens rs ++ [.closebrace]) := by
  have hspace : Scans [' '] [] := Scans.char (by decide)
  induction rs with
  | nil =>
      have hclose : Scans ['}'] [.closebrace] := Scans.char (by decide)
      exact hclose.append hspace
  | cons r rs ih =>
      cases rs with
      | nil =>
          have hlast := (scans_printRange (c := '}') (by decide) r).append hspace
          simpa [printRangeList, rangesTokens, charTokens] using hlast
      | cons r' rs =>
          have hhead := (scans_printRange (c := ',') (by decide) r).append ih
          simpa [printRangeList, rangesTokens, charTokens] using hhead

/-- The ranges of a group: the longest text between two separators is a range of two numbers. -/
theorem prints_ranges {rs : List (Nat × Nat)} (hrs : ∀ r ∈ rs, r.1 ≤ r.2 ∧ r.2 < 2 ^ 64) :
    Prints ('{' :: printRangeList rs) (rangesTokens rs ++ [.closebrace]) := by
  have hopen : Scans ['{'] [] := Scans.char (by decide)
  refine ⟨by simpa using hopen.append (scans_printRangeList rs), ?_⟩
  -- 20 digits for each number and the hyphen between them
  have hlength : ∀ r : Nat × Nat, r.1 ≤ r.2 ∧ r.2 < 2 ^ 64 → (printRange r).length ≤ 41 := by
    intro r hr
    have h₁ := length_decimal_le (Nat.lt_of_le_of_lt hr.1 hr.2)
    have h₂ := length_decimal_le hr.2
    rw [printRange]
    split
    · omega
    · rw [List.length_append, List.length_cons]
      omega
  have hone : ∀ {k : Nat} {r : Nat × Nat} {s : List Char} {c : Char}, isSeparator c = true →
      r.1 ≤ r.2 ∧ r.2 < 2 ^ 64 → k + s.length ≤ 2 →
      Spaced k (printRange r ++ s ++ [c]) 0 := by
    intro k r s c hc hr hk
    have := hlength r hr
    refine GapTo.before_separator hc ?_
    simp only [List.length_append, maxRemainder]
    omega
  have hlist : ∀ {rs : List (Nat × Nat)}, (∀ r ∈ rs, r.1 ≤ r.2 ∧ r.2 < 2 ^ 64) →
      ∀ {k : Nat}, k ≤ 1 → Spaced k (printRangeList rs) 0 := by
    intro rs
    induction rs with
    | nil =>
        intro _ k hk
        refine GapTo.before_separator (l := ['}']) (x := ' ') rfl ?_
        simp only [List.length_singleton, maxRemainder]
        omega
    | cons r rs ih =>
        intro hrs k hk
        have hr := hrs r List.mem_cons_self
        cases rs with
        | nil =>
            have hlast := hone (c := ' ') (s := ['}']) (k := k) rfl hr
              (Nat.succ_le_succ hk)
            simpa [printRangeList] using hlast
        | cons r' rs =>
            have hhead := hone (c := ',') (s := []) (k := k) rfl hr
              (Nat.le_succ_of_le hk)
            have htail := ih (fun r hr => hrs r (List.mem_cons_of_mem _ hr)) (Nat.zero_le 1)
            simpa [printRangeList] using hhead.append htail
  have hbrace : Spaced 0 ['{'] 1 := GapTo.of_length (by decide)
  exact hbrace.append (hlist hrs (Nat.le_refl 1))

/-! ## Reading ranges -/

/-- The part of the lexer states that `readRepetitionPattern` works on. -/
structure RepPatReader where
  reppatState : Nat
  invocNum : Nat

namespace RepPatReader

/-- `readRepetitionPattern` of the second pass, and the range that is added. -/
def readRepetitionPattern (r : RepPatReader) : Token → RepPatReader × Option (Nat × Nat)
  | .number value =>
      if r.reppatState = 0 then
        ({ reppatState := r.reppatState + 1, invocNum := strtoull value }, none)
      else if r.reppatState = 2 then
        ({ r with reppatState := 0 }, some (r.invocNum, strtoull value))
      else (r, none)
  | .dash => ({ r with reppatState := r.reppatState + 1 }, none)
  | .comma =>
      ({ r with reppatState := 0 },
        if r.reppatState = 1 then some (r.invocNum, r.invocNum) else none)
  | .closebrace =>
      ({ r with reppatState := 0 },
        if r.reppatState = 1 then some (r.invocNum, r.invocNum) else none)
  | _ => (r, none)

/-- Token after token, with the ranges in order. -/
def readAll (r : RepPatReader) : List Token → RepPatReader × List (Nat × Nat)
  | [] => (r, [])
  | t :: ts =>
      let (r', range) := r.readRepetitionPattern t
      let (r'', ranges) := readAll r' ts
      (r'', range.toList ++ ranges)

/-- The ranges in front of the closing brace are read back, the last of them with the brace. -/
theorem readAll_rangesTokens (rs : List (Nat × Nat)) (h : ∀ r ∈ rs, r.1 ≤ r.2 ∧ r.2 < 2 ^ 64) :
    ∀ r : RepPatReader, r.reppatState = 0 →
      ∃ r', r.readAll (rangesTokens rs ++ [.closebrace]) = (r', rs) ∧ r'.reppatState = 0 := by
  induction rs with
  | nil =>
      intro r hr
      exact ⟨{ r with reppatState := 0 }, by
        simp [rangesTokens, readAll, readRepetitionPattern, hr], rfl⟩
  | cons range rs ih =>
      intro r hr
      have hrange := h range (by simp)
      have h1 : strtoull range.1 = range.1 := strtoull_of_lt (by omega)
      have h2 : strtoull range.2 = range.2 := strtoull_of_lt hrange.2
      cases rs with
      | nil =>
          by_cases heq : range.1 = range.2
          · refine ⟨{ reppatState := 0, invocNum := range.1 }, ?_, rfl⟩
            simp [rangesTokens, rangeTokens, readAll, readRepetitionPattern, hr, heq, h2,
              Prod.ext_iff]
          · refine ⟨{ reppatState := 0, invocNum := range.1 }, ?_, rfl⟩
            simp [rangesTokens, rangeTokens, readAll, readRepetitionPattern, hr, heq, h1, h2]
      | cons range' rs =>
          have hrest := ih fun r' hr' => h r' (List.mem_cons_of_mem _ hr')
          rcases hrest { reppatState := 0, invocNum := range.1 } rfl with ⟨r', hread, hr'⟩
          refine ⟨r', ?_, hr'⟩
          by_cases heq : range.1 = range.2
          · rw [heq] at hread
            simp [rangesTokens, rangeTokens, readAll, readRepetitionPattern, hr, heq, h2, hread,
              Prod.ext_iff]
          · simp [rangesTokens, rangeTokens, readAll, readRepetitionPattern, hr, heq, h1, h2, hread]

end RepPatReader

/-- A token of a repetition pattern. -/
def IsPatternToken : Token → Prop
  | .number _ | .dash | .comma => True
  | _ => False

theorem isPatternToken_of_mem_rangesTokens {rs : List (Nat × Nat)} :
    ∀ t ∈ rangesTokens rs, IsPatternToken t := by
  have hone : ∀ r : Nat × Nat, ∀ t ∈ rangeTokens r, IsPatternToken t := by
    intro r t ht
    by_cases hr : r.1 = r.2
    · simp only [rangeTokens, if_pos hr, List.mem_singleton] at ht
      subst ht
      trivial
    · simp only [rangeTokens, if_neg hr, List.mem_cons, List.not_mem_nil, or_false] at ht
      rcases ht with rfl | rfl | rfl <;> trivial
  induction rs with
  | nil => simp [rangesTokens]
  | cons r rs ih =>
      cases rs with
      | nil => exact hone r
      | cons r' rs =>
          intro t ht
          rcases List.mem_append.1 ht with ht | ht
          · exact hone r t ht
          · rcases List.mem_cons.1 ht with rfl | ht
            · trivial
            · exact ih t ht

section Passing

variable {L : Type} {lexToken : L → Token → Except Fault (L × Bool)}

/-- A lexer that passes the tokens of a pattern on reads the pattern.  `reading r rs` is its state
after the ranges `rs`, `done r rs` the one behind the closing brace. -/
theorem reads_pattern {reading done : RepPatReader → List (Nat × Nat) → L}
    (htoken : ∀ r rs t, IsPatternToken t → lexToken (reading r rs) t
      = .ok (reading (r.readRepetitionPattern t).1
          (rs ++ (r.readRepetitionPattern t).2.toList), false))
    (hclose : ∀ r rs, lexToken (reading r rs) .closebrace
      = .ok (done (r.readRepetitionPattern .closebrace).1
          (rs ++ (r.readRepetitionPattern .closebrace).2.toList), false))
    {ranges : List (Nat × Nat)} (hranges : ∀ r ∈ ranges, r.1 ≤ r.2 ∧ r.2 < 2 ^ 64)
    {r : RepPatReader} (hr : r.reppatState = 0) :
    ∃ r', Reads lexToken (reading r []) (rangesTokens ranges ++ [.closebrace]) (done r' ranges) ∧
      r'.reppatState = 0 := by
  have hread : ∀ (ts : List Token), (∀ t ∈ ts, IsPatternToken t) →
      ∀ (r : RepPatReader) (rs : List (Nat × Nat)),
        Reads lexToken (reading r rs) (ts ++ [.closebrace])
          (done (r.readAll (ts ++ [.closebrace])).1 (rs ++ (r.readAll (ts ++ [.closebrace])).2)) := by
    intro ts
    induction ts with
    | nil =>
        intro _ r rs
        refine Reads.token ?_
        simpa [RepPatReader.readAll] using hclose r rs
    | cons t ts ih =>
        intro hts r rs
        have hrest := ih (fun t' ht' => hts t' (List.mem_cons_of_mem _ ht'))
          (r.readRepetitionPattern t).1 (rs ++ (r.readRepetitionPattern t).2.toList)
        refine Reads.cons (htoken r rs t (hts t (by simp))) ?_
        simpa [RepPatReader.readAll, List.append_assoc] using hrest
  rcases RepPatReader.readAll_rangesTokens ranges hranges r hr with ⟨r', hall, hr'⟩
  have := hread (rangesTokens ranges) isPatternToken_of_mem_rangesTokens r []
  rw [hall, List.nil_append] at this
  exact ⟨r', this, hr'⟩

/-- A lexer that passes the tokens of a control flow on reads it.  `reading c cps` is its state
after the patterns `cps`. -/
theorem reads_controlFlow {reading : CfcReader → List CompressionPattern → L}
    (htoken : ∀ c cps t, TracerCompressionPattern.IsCfcToken t → lexToken (reading c cps) t
      = (c.readCfc t).map fun done => (reading done.1 (cps ++ done.2.toList), false))
    {patterns : List TracerCompressionPattern}
    (hpatterns : TracerCompressionPattern.WellFormedAll patterns) :
    Reads lexToken (reading CfcReader.init []) (TracerCompressionPattern.tokensAll patterns)
      (reading CfcReader.init (TracerCompressionPattern.toCompressionPatterns patterns)) := by
  have hread : ∀ (ts : List Token), (∀ t ∈ ts, TracerCompressionPattern.IsCfcToken t) →
      ∀ (c c' : CfcReader) (cps cps' : List CompressionPattern), c.readAll ts = .ok (c', cps') →
        Reads lexToken (reading c cps) ts (reading c' (cps ++ cps')) := by
    intro ts
    -- token by token, in step with the reader of control flows
    induction ts with
    | nil =>
        intro _ c c' cps cps' h
        simp only [CfcReader.readAll, Except.ok.injEq, Prod.mk.injEq] at h
        rcases h with ⟨rfl, rfl⟩
        rw [List.append_nil]
        exact Reads.nil
    | cons t ts ih =>
        intro hts c c' cps cps' h
        have hstep := htoken c cps t (hts t (by simp))
        simp only [CfcReader.readAll] at h
        cases hcfc : c.readCfc t with
        | error e => simp [hcfc] at h
        | ok next =>
            rw [hcfc] at hstep
            simp only [hcfc] at h
            cases hrest : next.1.readAll ts with
            | error e => simp [hrest] at h
            | ok last =>
                simp only [hrest, Except.ok.injEq, Prod.mk.injEq] at h
                rcases h with ⟨rfl, rfl⟩
                have hrec := ih (fun t' ht' => hts t' (List.mem_cons_of_mem _ ht')) next.1 last.1
                  (cps ++ next.2.toList) last.2 hrest
                refine Reads.cons hstep ?_
                simpa [List.append_assoc] using hrec
  have := hread _ (TracerCompressionPattern.isCfcToken_of_mem_tokensAll patterns) CfcReader.init
    CfcReader.init [] _ (CfcReader.readAll_init hpatterns)
  simpa using this

end Passing

/-! ## Groups -/

/-- What the text of an iteration group or a call instance group says. -/
structure PrintedGroup where
  ranges : List (Nat × Nat)
  patterns : List TracerCompressionPattern

namespace PrintedGroup

/-- The line of the group. -/
def print (g : PrintedGroup) : List Char :=
  '{' :: printRangeList g.ranges ++ (TracerCompressionPattern.printAll g.patterns ++ ['\n'])

def tokens (g : PrintedGroup) : List Token :=
  rangesTokens g.ranges ++ [.closebrace] ++
    (TracerCompressionPattern.tokensAll g.patterns ++ [.newline])

/-- The group that the analyser builds. -/
def toCfcGroup (g : PrintedGroup) : CfcGroup where
  repetitions := g.ranges
  controlFlow := TracerCompressionPattern.toCompressionPatterns g.patterns
  numInstancesLut := ∅

/-- Numbers that `strtoull` reads back, and well-formed patterns. -/
structure Valid (g : PrintedGroup) : Prop where
  ranges : ∀ r ∈ g.ranges, r.1 ≤ r.2 ∧ r.2 < 2 ^ 64
  patterns : TracerCompressionPattern.WellFormedAll g.patterns

theorem prints_print {g : PrintedGroup} (hranges : ∀ r ∈ g.ranges, r.1 ≤ r.2 ∧ r.2 < 2 ^ 64)
    (hpatterns : TracerCompressionPattern.Printable g.patterns) : Prints g.print g.tokens := by
  have hflow := TracerCompressionPattern.prints_printAll hpatterns
  have hall := (prints_ranges hranges).append (hflow.append Prints.newline)
  simpa [print, tokens] using hall

end PrintedGroup

end CamAlias
