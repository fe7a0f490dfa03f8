import CamAlias.Compressor.ControlFlow
import CamAlias.Lexer.Scanner
import CamAlias.Analyser.CompressionPattern

/-!
# Cfc — printed control flow and its reader

The tracer prints patterns with `operator<<`; the lexers read them back with `readCfc`, a stack of
unfinished patterns and a one-bit comma state.  `readCfc` is the same in both lexers up to the
place where a finished pattern goes, so it returns that pattern to its caller.

`readCfcText_print` is the round trip: same tree shape, same symbols, same counts.
-/

namespace CamAlias

namespace TracerCompressionPattern

mutual

/-- `operator<<(ostream&, const TracerCompressionPattern&)`. -/
def print : TracerCompressionPattern → List Char
  | .sym s => ['('] ++ (Lib.decimal s.toNat ++ [')'])
  | .rep ps n => ['('] ++ (printAll ps ++ ([','] ++ (Lib.decimal n ++ [')'])))

def printAll : List TracerCompressionPattern → List Char
  | [] => []
  | p :: ps => print p ++ printAll ps

end

mutual

/-- The tokens of a printed pattern. -/
def tokens : TracerCompressionPattern → List Token
  | .sym s => [.openparen] ++ [.number s.toNat, .closeparen]
  | .rep ps n => [.openparen] ++ (tokensAll ps ++ ([.comma] ++ [.number n, .closeparen]))

def tokensAll : List TracerCompressionPattern → List Token
  | [] => []
  | p :: ps => tokens p ++ tokensAll ps

end

mutual

theorem scans_print : ∀ p : TracerCompressionPattern, Scans (print p) (tokens p)
  | .sym s => by
      have hopen : Scans ['('] [.openparen] := Scans.char (by decide)
      have hnum : Scans (Lib.decimal s.toNat ++ [')']) [.number s.toNat, .closeparen] :=
        Scans.number (by decide) _
      simpa only [print, tokens] using hopen.append hnum
  | .rep ps n => by
      have hopen : Scans ['('] [.openparen] := Scans.char (by decide)
      have hcomma : Scans [','] [.comma] := Scans.char (by decide)
      have hnum : Scans (Lib.decimal n ++ [')']) [.number n, .closeparen] :=
        Scans.number (by decide) _
      have hbody := (scans_printAll ps).append (hcomma.append hnum)
      simpa only [print, tokens] using hopen.append hbody

theorem scans_printAll : ∀ ps : List TracerCompressionPattern,
    Scans (printAll ps) (tokensAll ps)
  | [] => by simpa [printAll, tokensAll] using Lib.Scans.nil
  | p :: ps => by
      simpa only [printAll, tokensAll] using (scans_print p).append (scans_printAll ps)

end

mutual

/-- The parentheses in front of a symbol and its digits. -/
theorem spaced_print : ∀ (p : TracerCompressionPattern) {k : Nat}, WellFormed p →
    k + depth p < 80 → Spaced k (print p) 0
  | .sym s, k, _, hk => by
      rw [depth] at hk
      have hopen : Spaced k ['('] (k + 1) :=
        Lib.GapTo.of_length (by simp only [List.length_singleton, maxRemainder]; omega)
      exact hopen.append (spaced_decimal rfl s.toNat_lt hk)
  | .rep ps n, k, h, hk => by
      rcases (by simpa only [WellFormed] using h) with ⟨_, _, hn, hps⟩
      rw [depth] at hk
      have hopen : Spaced k ['('] (k + 1) :=
        Lib.GapTo.of_length (by simp only [List.length_singleton, maxRemainder]; omega)
      have hcomma : Spaced (k + 1) [','] 0 := Lib.GapTo.separator rfl
      have hbody := (spaced_printAll ps (k := k + 1) hps (by omega)).append hcomma
      have hall := hopen.append (hbody.append (spaced_decimal (c := ')') rfl hn (by omega)))
      simpa only [print, List.append_assoc] using hall

theorem spaced_printAll : ∀ (ps : List TracerCompressionPattern) {k : Nat}, WellFormedAll ps →
    k + depthAll ps < 80 → Spaced k (printAll ps) k
  | [], _, _, _ => Lib.GapTo.nil
  | p :: ps, k, h, hk => by
      rcases (by simpa only [WellFormedAll] using h) with ⟨hp, hps⟩
      rw [depthAll] at hk
      have hfirst := spaced_print p (k := k) hp (by omega)
      have hrest := spaced_printAll ps (k := 0) hps (by omega)
      exact (hfirst.append hrest).mono (Nat.le_refl k) (Nat.zero_le k)

end

theorem prints_printAll {ps : List TracerCompressionPattern} (h : Printable ps) :
    Prints (printAll ps) (tokensAll ps) := by
  have hdepth := h.depth_le
  exact ⟨scans_printAll ps, spaced_printAll ps h.wellFormed (by omega)⟩

/-- A token of a control flow. -/
def IsCfcToken : Token → Prop
  | .number _ | .openparen | .closeparen | .comma => True
  | _ => False

mutual

theorem isCfcToken_of_mem_tokens : ∀ (p : TracerCompressionPattern), ∀ t ∈ tokens p, IsCfcToken t
  | .sym s => by
      intro t ht
      simp only [tokens, List.mem_append, List.mem_cons, List.not_mem_nil, or_false] at ht
      rcases ht with rfl | rfl | rfl <;> trivial
  | .rep ps n => by
      intro t ht
      simp only [tokens, List.mem_append, List.mem_cons, List.not_mem_nil, or_false] at ht
      rcases ht with rfl | ht | rfl | rfl | rfl
      · trivial
      · exact isCfcToken_of_mem_tokensAll ps t ht
      · trivial
      · trivial
      · trivial

theorem isCfcToken_of_mem_tokensAll : ∀ (ps : List TracerCompressionPattern),
    ∀ t ∈ tokensAll ps, IsCfcToken t
  | [] => by simp [tokensAll]
  | p :: ps => by
      intro t ht
      rcases List.mem_append.1 ht with ht | ht
      · exact isCfcToken_of_mem_tokens p t ht
      · exact isCfcToken_of_mem_tokensAll ps t ht

end

mutual

/-- The analyser's pattern of the same tree shape, symbols and counts. -/
def toCompressionPattern : TracerCompressionPattern → CompressionPattern
  | .sym s => .leaf s
  | .rep ps n => .node 0 (toCompressionPatterns ps) n

def toCompressionPatterns : List TracerCompressionPattern → List CompressionPattern
  | [] => []
  | p :: ps => toCompressionPattern p :: toCompressionPatterns ps

end

theorem toCompressionPatterns_eq_map (ps : List TracerCompressionPattern) :
    toCompressionPatterns ps = ps.map toCompressionPattern := by
  induction ps with
  | nil => simp [toCompressionPatterns]
  | cons p ps ih => simp [toCompressionPatterns, ih]

mutual

theorem expand_toCompressionPattern : ∀ p : TracerCompressionPattern,
    (toCompressionPattern p).expand = p.expand
  | .sym s => by simp [toCompressionPattern, CompressionPattern.expand]
  | .rep ps n => by
      simp [toCompressionPattern, CompressionPattern.expand, expand,
        expandAll_toCompressionPatterns ps]

theorem expandAll_toCompressionPatterns : ∀ ps : List TracerCompressionPattern,
    CompressionPattern.expandAll (toCompressionPatterns ps) = expandAll ps
  | [] => by simp [toCompressionPatterns]
  | p :: ps => by
      simp [toCompressionPatterns, expand_toCompressionPattern p,
        expandAll_toCompressionPatterns ps]

end

mutual

theorem positive_toCompressionPattern : ∀ p : TracerCompressionPattern, WellFormed p →
    (toCompressionPattern p).Positive
  | .sym s, _ => by simp [toCompressionPattern, CompressionPattern.Positive]
  | .rep ps n, h => by
      rcases (by simpa only [WellFormed] using h) with ⟨_, hn, _, hps⟩
      have hall := positiveAll_toCompressionPatterns ps hps
      simp only [toCompressionPattern, CompressionPattern.Positive]
      exact ⟨by omega, hall⟩

theorem positiveAll_toCompressionPatterns : ∀ ps : List TracerCompressionPattern,
    WellFormedAll ps → CompressionPattern.PositiveAll (toCompressionPatterns ps)
  | [], _ => by simp [toCompressionPatterns, CompressionPattern.PositiveAll]
  | p :: ps, h => by
      rcases (by simpa only [WellFormedAll] using h) with ⟨hp, hps⟩
      simp only [toCompressionPatterns, CompressionPattern.PositiveAll]
      exact ⟨positive_toCompressionPattern p hp, positiveAll_toCompressionPatterns ps hps⟩

end

end TracerCompressionPattern

/-- `operator<<(ostream&, const ControlFlowCompressor&)`: `storedPatterns`, then the window. -/
def ControlFlowCompressor.print (c : ControlFlowCompressor) : List Char :=
  TracerCompressionPattern.printAll c.storedPatterns ++
    TracerCompressionPattern.printAll c.window.reverse

theorem ControlFlowCompressor.print_eq (c : ControlFlowCompressor) :
    c.print = TracerCompressionPattern.printAll c.contents := by
  have happend : ∀ ps qs : List TracerCompressionPattern,
      TracerCompressionPattern.printAll (ps ++ qs)
        = TracerCompressionPattern.printAll ps ++ TracerCompressionPattern.printAll qs := by
    intro ps qs
    induction ps with
    | nil => simp [TracerCompressionPattern.printAll]
    | cons p ps ih => simp [TracerCompressionPattern.printAll, ih]
  simp [print, contents, happend]

/-! ## The reader -/

/-- The part of the lexer states that `readCfc` works on. -/
structure CfcReader where
  cfc_state : Nat
  patternStack : List CompressionPattern

namespace CfcReader

/-- No comma pending, and the given stack. -/
def onStack (patternStack : List CompressionPattern) : CfcReader :=
  { cfc_state := 0, patternStack }

/-- The state of a lexer before a control flow. -/
def init : CfcReader := onStack []

/-- `readCfc` of the second pass.  The pattern finished by the token, if any, goes to `addCfc`
(`addCallCfc`) in the caller.  `top` and `pop` need a non-empty stack. -/
def readCfc (r : CfcReader) : Token → Except Fault (CfcReader × Option CompressionPattern)
  | .openparen =>
      .ok ({ r with patternStack := CompressionPattern.new :: r.patternStack }, none)
  | .closeparen =>
      match r.patternStack with
      | [] => .error .outOfRange
      | [cp] => .ok ({ r with patternStack := [] }, some cp)
      | cp :: top :: rest => .ok ({ r with patternStack := top.addPattern cp :: rest }, none)
  -- the number behind the comma is the number of repetitions
  | .comma => .ok ({ r with cfc_state := 1 }, none)
  | .number value =>
      match r.patternStack with
      | [] => .error .outOfRange
      | top :: rest =>
          if r.cfc_state = 1 then
            match top.setNumRepetitions (Lib.strtoull value) with
            | .error e => .error e
            | .ok top' => .ok (onStack (top' :: rest), none)
          else
            .ok ({ r with
              patternStack := top.setSymbol (UInt64.ofNat (Lib.strtoull value)) :: rest }, none)
  | _ => .ok (r, none)

/-- `readCfc` token after token, with the finished patterns in order. -/
def readAll (r : CfcReader) : List Token → Except Fault (CfcReader × List CompressionPattern)
  | [] => .ok (r, [])
  | t :: ts =>
      match r.readCfc t with
      | .error e => .error e
      | .ok (r', done) =>
          match readAll r' ts with
          | .error e => .error e
          | .ok (r'', cps) => .ok (r'', done.toList ++ cps)

theorem readAll_append (r : CfcReader) (ts us : List Token) :
    r.readAll (ts ++ us) = (r.readAll ts).bind fun x =>
      (x.1.readAll us).map fun y => (y.1, x.2 ++ y.2) := by
  induction ts generalizing r with
  | nil =>
      cases h : r.readAll us with
      | error e => simp [readAll, Except.bind, Except.map, h]
      | ok y => simp [readAll, Except.bind, Except.map, h]
  | cons t ts ih =>
      cases ht : r.readCfc t with
      | error e => simp [readAll, ht, Except.bind]
      | ok x =>
          rcases x with ⟨r', done⟩
          cases hts : r'.readAll ts with
          | error e => simp [readAll, ht, ih, hts, Except.bind]
          | ok y =>
              rcases y with ⟨r'', cps⟩
              cases hus : r''.readAll us with
              | error e => simp [readAll, ht, ih, hts, hus, Except.bind, Except.map]
              | ok z => simp [readAll, ht, ih, hts, hus, Except.bind, Except.map]

/-- Where a finished pattern goes: to the pattern below it on the stack, or out. -/
def finish (cp : CompressionPattern) : List CompressionPattern → CfcReader × List CompressionPattern
  | [] => (init, [cp])
  | top :: rest => (onStack (top.addPattern cp :: rest), [])

/-- Patterns finished one after the other on top of the same stack. -/
def finishAll : List CompressionPattern → List CompressionPattern →
    CfcReader × List CompressionPattern
  | [], stack => (onStack stack, [])
  | cp :: cps, [] => let (r, out) := finishAll cps []; (r, cp :: out)
  | cp :: cps, top :: rest => finishAll cps (top.addPattern cp :: rest)

theorem finishAll_nil (cps : List CompressionPattern) : finishAll cps [] = (init, cps) := by
  induction cps with
  | nil => rfl
  | cons cp cps ih => simp [finishAll, ih]

/-- A pattern that has just been opened collects its children in order. -/
theorem finishAll_new {cps : List CompressionPattern} (hne : cps ≠ [])
    (rest : List CompressionPattern) :
    finishAll cps (CompressionPattern.new :: rest)
      = (onStack (.node 0 cps 0 :: rest), []) := by
  have hnode : ∀ (cps qs : List CompressionPattern),
      finishAll cps (.node 0 qs 0 :: rest)
        = (onStack (.node 0 (qs ++ cps) 0 :: rest), []) := by
    intro cps
    induction cps with
    | nil =>
        intro qs
        simp [finishAll]
    | cons cp cps ih =>
        intro qs
        simp [finishAll, CompressionPattern.addPattern, ih]
  cases cps with
  | nil => exact absurd rfl hne
  | cons cp cps =>
      simp [finishAll, CompressionPattern.new, CompressionPattern.addPattern, hnode]

open TracerCompressionPattern

mutual

/-- Reading one printed pattern finishes it, on any stack. -/
theorem readAll_tokens : ∀ (p : TracerCompressionPattern) (stack : List CompressionPattern),
    Representable p →
    (onStack stack).readAll (tokens p)
      = .ok (finish (toCompressionPattern p) stack)
  | .sym s, stack, _ => by
      have hs : UInt64.ofNat (Lib.strtoull s.toNat) = s := by
        rw [Lib.strtoull_of_lt s.toNat_lt]
        exact UInt64.ofNat_toNat
      cases stack with
      | nil =>
          simp [tokens, readAll, readCfc, CompressionPattern.new, CompressionPattern.setSymbol,
            hs, finish, toCompressionPattern, init, onStack]
      | cons top rest =>
          simp [tokens, readAll, readCfc, CompressionPattern.new, CompressionPattern.setSymbol,
            hs, finish, toCompressionPattern, onStack]
  | .rep ps n, stack, h => by
      rcases (by simpa only [Representable] using h) with ⟨hne, hn, hps⟩
      have hn64 : Lib.strtoull n = n := Lib.strtoull_of_lt hn
      have hne' : toCompressionPatterns ps ≠ [] := by
        cases ps with
        | nil => exact absurd rfl hne
        | cons p ps => simp [toCompressionPatterns]
      have hbody := readAll_tokensAll ps (CompressionPattern.new :: stack) hps
      rw [finishAll_new hne'] at hbody
      have hopen : (onStack stack).readAll [.openparen]
          = .ok (onStack (CompressionPattern.new :: stack), []) := by
        simp [readAll, readCfc, onStack]
      -- the count is read after the comma, then the node is closed
      have hclose : (onStack (.node 0 (toCompressionPatterns ps) 0 :: stack)).readAll
          ([.comma] ++ [.number n, .closeparen])
          = .ok (finish (toCompressionPattern (.rep ps n)) stack) := by
        cases stack with
        | nil =>
            simp [readAll, readCfc, CompressionPattern.setNumRepetitions, hn64, finish, init,
              toCompressionPattern, onStack]
        | cons top rest =>
            simp [readAll, readCfc, CompressionPattern.setNumRepetitions, hn64, finish,
              toCompressionPattern, onStack]
      rw [tokens, readAll_append, hopen]
      simp only [Except.bind]
      rw [readAll_append, hbody]
      simp only [Except.bind, hclose, Except.map, List.nil_append]

theorem readAll_tokensAll : ∀ (ps : List TracerCompressionPattern)
    (stack : List CompressionPattern), RepresentableAll ps →
    (onStack stack).readAll (tokensAll ps)
      = .ok (finishAll (toCompressionPatterns ps) stack)
  | [], stack, _ => by simp [tokensAll, readAll, finishAll, toCompressionPatterns]
  | p :: ps, stack, h => by
      rcases (by simpa only [RepresentableAll] using h) with ⟨hp, hps⟩
      rw [tokensAll, readAll_append, readAll_tokens p stack hp]
      cases stack with
      | nil =>
          have hrest := readAll_tokensAll ps [] hps
          simp only [finish, Except.bind, init, hrest, Except.map, toCompressionPatterns,
            finishAll, List.singleton_append]
      | cons top rest =>
          have hrest := readAll_tokensAll ps
            (top.addPattern (toCompressionPattern p) :: rest) hps
          simp only [finish, Except.bind, hrest, Except.map, toCompressionPatterns, finishAll,
            List.nil_append]

end

/-- A printed control flow is read back into patterns of the same shape. -/
theorem readAll_init {ps : List TracerCompressionPattern} (h : WellFormedAll ps) :
    init.readAll (tokensAll ps) = .ok (init, toCompressionPatterns ps) := by
  have := readAll_tokensAll ps [] h.representableAll
  rw [finishAll_nil] at this
  exact this

end CfcReader

/-- Feed a text to `readCfc`, starting before a control flow. -/
def readCfcText (text : List Char) : Except Fault (List CompressionPattern) :=
  (CfcReader.init.readAll (tokenise text)).map Prod.snd

/-- Printed control flow is read back: the same shapes, symbols and repetition counts, and the
summed instance maps hold every symbol's number of occurrences and no other key. -/
theorem readCfcText_print (maxWindowLength : Nat) (symbols : List TracerSymbol)
    (hbound : ∀ s, symbols.count s < 2 ^ 64) :
    let c := (ControlFlowCompressor.new maxWindowLength).insertSymbols symbols
    ∃ cps, readCfcText c.print = .ok cps ∧
      cps = c.contents.map TracerCompressionPattern.toCompressionPattern ∧
      ∀ s, (CompressionPattern.sumInstances cps)[s]?
        = if s ∈ symbols then some (symbols.count s) else none := by
  intro c
  rcases ControlFlowCompressor.compresses_insertSymbols maxWindowLength hbound with ⟨hexp, hwf⟩
  refine ⟨TracerCompressionPattern.toCompressionPatterns c.contents, ?_, ?_, ?_⟩
  · have htokens := (TracerCompressionPattern.scans_printAll c.contents).tokenise
    have hread : CfcReader.init.readAll (TracerCompressionPattern.tokensAll c.contents)
        = .ok (CfcReader.init, TracerCompressionPattern.toCompressionPatterns c.contents) :=
      CfcReader.readAll_init hwf
    simp only [readCfcText, ControlFlowCompressor.print_eq, htokens, hread, Except.map]
  · exact TracerCompressionPattern.toCompressionPatterns_eq_map c.contents
  · intro s
    have hcounts := CompressionPattern.counts_sumInstances
      (TracerCompressionPattern.positiveAll_toCompressionPatterns _ hwf) s
    rw [TracerCompressionPattern.expandAll_toCompressionPatterns, hexp] at hcounts
    rw [hcounts, Nat.mod_eq_of_lt (hbound s)]

theorem readCfcText_print_aab :
    (∀ s, ([7, 7, 9] : List TracerSymbol).count s < 2 ^ 64) ∧
    let c := (ControlFlowCompressor.new 4).insertSymbols [7, 7, 9]
    ∃ cps, readCfcText c.print = .ok cps ∧
      cps = c.contents.map TracerCompressionPattern.toCompressionPattern ∧
      ∀ s, (CompressionPattern.sumInstances cps)[s]?
        = if s ∈ ([7, 7, 9] : List TracerSymbol) then some (([7, 7, 9] : List TracerSymbol).count s)
          else none := by
  have hbound : ∀ s, ([7, 7, 9] : List TracerSymbol).count s < 2 ^ 64 := by
    intro s
    have := List.count_le_length (a := s) (l := ([7, 7, 9] : List TracerSymbol))
    simp only [List.length_cons, List.length_nil] at this
    omega
  exact ⟨hbound, readCfcText_print 4 [7, 7, 9] hbound⟩

end CamAlias
