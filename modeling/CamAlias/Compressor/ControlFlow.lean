import CamAlias.Lib.Iterate
import CamAlias.Compressor.Pattern

/-!
# ControlFlow — the control flow compressor is lossless

`ControlFlowCompressor` of `ControlFlowCompressor.cpp`.  The window is a deque whose front is the
youngest pattern, so it is a list read from the young end; `storedPatterns` is filled at its back
and is read from the old end.

Inserting a symbol rewrites the young end of the window with `match?` and `merge?` until neither
applies.  Each rewrite is described once, by `match?_eq_some` and `merge?_eq_some`, and the
invariant `Compresses` is carried through them.
-/

namespace CamAlias

open TracerCompressionPattern

/-- `TracerCompressionPattern::patternMatchesSymbols`: the pattern is walked from its end, the
symbols from the young end of the window. -/
def patternMatchesSymbols : List TracerCompressionPattern → List TracerCompressionPattern → Bool
  | [], _ => true
  | pat :: pats, p :: syms => beq p pat && patternMatchesSymbols pats syms
  | _ :: _, [] => false

/-- `ControlFlowCompressor`. -/
structure ControlFlowCompressor where
  window : List TracerCompressionPattern
  storedPatterns : List TracerCompressionPattern
  maxWindowLength : Nat

namespace ControlFlowCompressor

/-- `ControlFlowCompressor(alloc, maxWindowLength_p)`. -/
def new (maxWindowLength : Nat) : ControlFlowCompressor :=
  { window := [], storedPatterns := [], maxWindowLength }

/-- The patterns in the order of the iterator and of `operator<<`: oldest first. -/
def contents (c : ControlFlowCompressor) : List TracerCompressionPattern :=
  c.storedPatterns ++ c.window.reverse

/-- `ControlFlowCompressor::clear`. -/
def clear (c : ControlFlowCompressor) : ControlFlowCompressor :=
  { c with window := [], storedPatterns := [] }

/-- `numRepetitions++` on a `uint64_t`. -/
def incRepetitions (numRepetitions : Nat) : Nat :=
  (numRepetitions + 1) % 2 ^ 64

/-! ## match and merge -/

/-- The loop of `ControlFlowCompressor::match`, from `patternIndex` down to 1. -/
def matchFrom (window : List TracerCompressionPattern) :
    Nat → Option (List TracerCompressionPattern)
  | 0 => none
  | patternIndex + 1 =>
      match window[patternIndex + 1]? with
      | some (.rep ps n) =>
          if patternIndex + 1 = ps.length ∧ patternMatchesSymbols ps.reverse window then
            some (.rep ps (incRepetitions n) :: window.drop (patternIndex + 2))
          else matchFrom window patternIndex
      | _ => matchFrom window patternIndex

/-- `ControlFlowCompressor::match`; `none` where the source returns false. -/
def match? (maxWindowLength : Nat) (window : List TracerCompressionPattern) :
    Option (List TracerCompressionPattern) :=
  matchFrom window (min (maxWindowLength / 2 + 1) (window.length - 1))

/-- `ControlFlowCompressor::isRepeatedSequence`. -/
def isRepeatedSequence (window : List TracerCompressionPattern) (width : Nat) : Bool :=
  beqAll (window.take width) (window.drop width)

/-- The loop of `ControlFlowCompressor::merge`, from `width` down to 1. -/
def mergeFrom (window : List TracerCompressionPattern) :
    Nat → Option (List TracerCompressionPattern)
  | 0 => none
  | width + 1 =>
      if isRepeatedSequence window (width + 1) then
        some (.rep (window.take (width + 1)).reverse 2 :: window.drop (2 * (width + 1)))
      else mergeFrom window width

/-- `ControlFlowCompressor::merge`. -/
def merge? (window : List TracerCompressionPattern) : Option (List TracerCompressionPattern) :=
  mergeFrom window (window.length / 2)

/-- The condition of `while( match() || merge() )`. -/
def matchOrMerge? (maxWindowLength : Nat) (window : List TracerCompressionPattern) :
    Option (List TracerCompressionPattern) :=
  (match? maxWindowLength window).or (merge? window)

/-- `ControlFlowCompressor::insertSymbol`. -/
def insertSymbol (c : ControlFlowCompressor) (symbol : TracerSymbol) : ControlFlowCompressor :=
  let pushed := .sym symbol :: c.window
  let window := Lib.iterate (matchOrMerge? c.maxWindowLength) pushed.length pushed
  if window.length > c.maxWindowLength then
    { c with
      window := window.dropLast
      storedPatterns := c.storedPatterns ++ window.getLast?.toList }
  else { c with window := window }

/-- A sequence of `insertSymbol` calls. -/
def insertSymbols (c : ControlFlowCompressor) (symbols : List TracerSymbol) :
    ControlFlowCompressor :=
  symbols.foldl insertSymbol c

/-- `ControlFlowCompressor::decompress`. -/
def decompress (c : ControlFlowCompressor) : Option (List TracerSymbol) :=
  match decompressAll c.storedPatterns, decompressAll c.window.reverse with
  | some v, some w => some (v ++ w)
  | _, _ => none

/-! ## What one rewrite of the window does -/

theorem patternMatchesSymbols_eq_true :
    ∀ {pats syms : List TracerCompressionPattern}, patternMatchesSymbols pats syms = true →
      syms = pats ++ syms.drop pats.length := by
  intro pats
  induction pats with
  | nil =>
      intro syms _
      simp
  | cons pat pats ih =>
      intro syms h
      cases syms with
      | nil => simp [patternMatchesSymbols] at h
      | cons p syms =>
          simp only [patternMatchesSymbols, Bool.and_eq_true, beq_iff] at h
          rcases h with ⟨rfl, hrest⟩
          simpa using ih hrest

theorem matchFrom_eq_some {window w' : List TracerCompressionPattern} :
    ∀ {patternIndex : Nat}, matchFrom window patternIndex = some w' →
      ∃ ps n rest, ps ≠ [] ∧ window = ps.reverse ++ .rep ps n :: rest ∧
        w' = .rep ps (incRepetitions n) :: rest := by
  intro patternIndex
  induction patternIndex with
  | zero =>
      intro h
      simp [matchFrom] at h
  | succ patternIndex ih =>
      intro h
      cases hget : window[patternIndex + 1]? with
      | none => exact ih (by simpa [matchFrom, hget] using h)
      | some p =>
          cases p with
          | sym s => exact ih (by simpa [matchFrom, hget] using h)
          | rep ps n =>
              simp only [matchFrom, hget] at h
              split at h
              · rename_i hmatch
                rcases hmatch with ⟨hlen, hmatch⟩
                refine ⟨ps, n, window.drop (patternIndex + 2), ?_, ?_, by simpa using h.symm⟩
                · intro hnil
                  simp [hnil] at hlen
                · have hsplit := patternMatchesSymbols_eq_true hmatch
                  have hlt : patternIndex + 1 < window.length :=
                    (List.getElem?_eq_some_iff.1 hget).1
                  have hdrop : window.drop (patternIndex + 1)
                      = .rep ps n :: window.drop (patternIndex + 2) := by
                    rw [List.drop_eq_getElem_cons hlt, (List.getElem?_eq_some_iff.1 hget).2]
                  rw [← hdrop]
                  simpa [hlen] using hsplit
              · exact ih h

/-- What `match` does: the young end repeats the body of the pattern behind it. -/
theorem match?_eq_some {maxWindowLength : Nat} {window w' : List TracerCompressionPattern}
    (h : match? maxWindowLength window = some w') :
    ∃ ps n rest, ps ≠ [] ∧ window = ps.reverse ++ .rep ps n :: rest ∧
      w' = .rep ps (incRepetitions n) :: rest :=
  matchFrom_eq_some h

theorem mergeFrom_eq_some {window w' : List TracerCompressionPattern} :
    ∀ {width : Nat}, 2 * width ≤ window.length → mergeFrom window width = some w' →
      ∃ ps rest, ps ≠ [] ∧ window = ps.reverse ++ (ps.reverse ++ rest) ∧
        w' = .rep ps 2 :: rest := by
  intro width
  induction width with
  | zero =>
      intro _ h
      simp [mergeFrom] at h
  | succ width ih =>
      intro hwidth h
      simp only [mergeFrom] at h
      split at h
      · rename_i hrep
        -- `beqAll` stops with its first argument, so the older half is cut to the width first.
        have htake : window.take (width + 1) = (window.drop (width + 1)).take (width + 1) := by
          have hprefix : ∀ {xs ys : List TracerCompressionPattern},
              beqAll xs ys = true → xs = ys.take xs.length := by
            intro xs
            induction xs with
            | nil => simp
            | cons x xs ihxs =>
                intro ys hxy
                cases ys with
                | nil => simp [beqAll] at hxy
                | cons y ys =>
                    simp only [beqAll, Bool.and_eq_true, beq_iff] at hxy
                    simp [hxy.1, ← ihxs hxy.2]
          have hlen : (window.take (width + 1)).length = width + 1 := by
            simp
            omega
          simpa [hlen] using hprefix hrep
        refine ⟨(window.take (width + 1)).reverse, window.drop (2 * (width + 1)), ?_, ?_,
          by simpa using h.symm⟩
        · intro hnil
          have hlen := congrArg List.length hnil
          simp only [List.length_reverse, List.length_take, List.length_nil] at hlen
          omega
        · have hsecond : window.drop (width + 1)
              = window.take (width + 1) ++ window.drop (2 * (width + 1)) := by
            conv_lhs => rw [← List.take_append_drop (width + 1) (window.drop (width + 1))]
            rw [← htake, List.drop_drop]
            congr 2
            omega
          rw [List.reverse_reverse, ← hsecond, List.take_append_drop]
      · exact ih (by omega) h

/-- What `merge` does: two equal blocks at the young end become one pattern. -/
theorem merge?_eq_some {window w' : List TracerCompressionPattern} (h : merge? window = some w') :
    ∃ ps rest, ps ≠ [] ∧ window = ps.reverse ++ (ps.reverse ++ rest) ∧ w' = .rep ps 2 :: rest :=
  mergeFrom_eq_some (by omega) h

theorem matchOrMerge?_eq_some {maxWindowLength : Nat} {window w' : List TracerCompressionPattern}
    (h : matchOrMerge? maxWindowLength window = some w') :
    (∃ ps n rest, ps ≠ [] ∧ window = ps.reverse ++ .rep ps n :: rest ∧
      w' = .rep ps (incRepetitions n) :: rest) ∨
    (∃ ps rest, ps ≠ [] ∧ window = ps.reverse ++ (ps.reverse ++ rest) ∧
      w' = .rep ps 2 :: rest) := by
  cases hm : match? maxWindowLength window with
  | some w =>
      left
      have hw : w = w' := by simpa [matchOrMerge?, hm] using h
      exact match?_eq_some (hw ▸ hm)
  | none =>
      right
      exact merge?_eq_some (by simpa [matchOrMerge?, hm] using h)

/-- Every rewrite shortens the window, so the loop of `insertSymbol` ends. -/
theorem length_lt_of_matchOrMerge? {maxWindowLength : Nat}
    {window w' : List TracerCompressionPattern}
    (h : matchOrMerge? maxWindowLength window = some w') : w'.length < window.length := by
  rcases matchOrMerge?_eq_some h with ⟨ps, n, rest, hne, rfl, rfl⟩ | ⟨ps, rest, hne, rfl, rfl⟩
  all_goals
    have hpos : 0 < ps.length := List.length_pos_iff.2 hne
    simp
    omega

/-- After the loop of `insertSymbol` neither `match` nor `merge` applies. -/
theorem matchOrMerge?_iterate (maxWindowLength : Nat) (window : List TracerCompressionPattern) :
    matchOrMerge? maxWindowLength
      (Lib.iterate (matchOrMerge? maxWindowLength) window.length window) = none :=
  Lib.iterate_final List.length (fun _ _ => length_lt_of_matchOrMerge?) _ _ (Nat.le_refl _)

/-! ## The invariant -/

/-- `ps` stands for `syms`, is well formed, and no repetition count can leave 64 bits. -/
structure Compresses (ps : List TracerCompressionPattern) (syms : List TracerSymbol) : Prop where
  expand_eq : expandAll ps = syms
  wellFormed : WellFormedAll ps
  count_lt : ∀ s, syms.count s < 2 ^ 64

theorem Compresses.printable {ps : List TracerCompressionPattern} {syms : List TracerSymbol}
    (h : Compresses ps syms) : Printable ps :=
  printable_of_count_lt h.wellFormed (h.expand_eq ▸ h.count_lt)

theorem Compresses.matchOrMerge? {maxWindowLength : Nat}
    {stored window w' : List TracerCompressionPattern} {syms : List TracerSymbol}
    (h : ControlFlowCompressor.matchOrMerge? maxWindowLength window = some w')
    (hc : Compresses (stored ++ window.reverse) syms) :
    Compresses (stored ++ w'.reverse) syms := by
  rcases hc with ⟨hexp, hwf, hbound⟩
  simp only [wellFormedAll_iff] at hwf
  rcases matchOrMerge?_eq_some h with ⟨ps, n, rest, hne, rfl, rfl⟩ | ⟨ps, rest, hne, rfl, rfl⟩
  · have hrep : WellFormed (.rep ps n) := hwf _ (by simp)
    rcases (by simpa only [WellFormed] using hrep) with ⟨_, hn, _, hps⟩
    have hsyms : syms = expandAll (stored ++ rest.reverse ++ [.rep ps (n + 1)]) := by
      rw [← hexp]
      simp [expand_rep_succ]
    -- the new count is bounded by the occurrences of a symbol of the body
    have hlt : n + 1 < 2 ^ 64 := by
      rcases exists_numRepetitions_le_count (n + 1) (expandAll_ne_nil ps hps hne) with ⟨s, hs⟩
      have hle : n + 1 ≤ syms.count s := by
        rw [hsyms]
        simp only [expandAll_append, expandAll_cons, expandAll_nil, List.append_nil,
          List.count_append]
        omega
      have := hbound s
      omega
    have hinc : incRepetitions n = n + 1 := Nat.mod_eq_of_lt hlt
    refine ⟨?_, ?_, hbound⟩
    · rw [hsyms, hinc]
      simp
    · rw [wellFormedAll_iff]
      intro p hp
      simp only [List.reverse_cons, List.mem_append, List.mem_singleton] at hp
      rcases hp with hp | hp | rfl
      · exact hwf p (by simp [hp])
      · exact hwf p (by
          have := List.mem_reverse.1 hp
          simp [this])
      · simp only [WellFormed, hinc]
        exact ⟨hne, by omega, hlt, hps⟩
  · refine ⟨?_, ?_, hbound⟩
    · rw [← hexp]
      simp [expand_rep_two]
    · rw [wellFormedAll_iff]
      intro p hp
      simp only [List.reverse_cons, List.mem_append, List.mem_singleton] at hp
      rcases hp with hp | hp | rfl
      · exact hwf p (by simp [hp])
      · exact hwf p (by
          have := List.mem_reverse.1 hp
          simp [this])
      · have hps : WellFormedAll ps := by
          rw [wellFormedAll_iff]
          intro q hq
          exact hwf q (by simp [hq])
        simp only [WellFormed]
        exact ⟨hne, Nat.le_refl _, by omega, hps⟩

theorem Compresses.insertSymbol {c : ControlFlowCompressor} {syms : List TracerSymbol}
    {symbol : TracerSymbol} (hbound : ∀ s, (syms ++ [symbol]).count s < 2 ^ 64)
    (hc : Compresses c.contents syms) :
    Compresses (c.insertSymbol symbol).contents (syms ++ [symbol]) := by
  have hpush : Compresses (c.storedPatterns ++ (.sym symbol :: c.window).reverse)
      (syms ++ [symbol]) := by
    refine ⟨?_, ?_, hbound⟩
    · simp [← hc.expand_eq, contents]
    · have hwf := hc.wellFormed
      rw [wellFormedAll_iff] at hwf ⊢
      intro p hp
      simp only [List.reverse_cons, ← List.append_assoc, List.mem_append, List.mem_singleton] at hp
      rcases hp with hp | rfl
      · exact hwf p (by simpa [contents] using hp)
      · simp [WellFormed]
  have hloop := Lib.iterate_induction
    (fun w => Compresses (c.storedPatterns ++ w.reverse) (syms ++ [symbol]))
    (fun w w' (h : ControlFlowCompressor.matchOrMerge? c.maxWindowLength w = some w') hw =>
      hw.matchOrMerge? h)
    (c.window.length + 1) (.sym symbol :: c.window) hpush
  simp only [ControlFlowCompressor.insertSymbol, List.length_cons]
  generalize Lib.iterate _ _ _ = window at hloop ⊢
  split
  · -- the overflowing pattern moves from one end of `contents` to the same place
    rename_i hover
    have hne : window ≠ [] := by
      intro hnil
      simp [hnil] at hover
    have hmove : c.storedPatterns ++ window.getLast?.toList ++ window.dropLast.reverse
        = c.storedPatterns ++ window.reverse := by
      conv_rhs => rw [← List.dropLast_append_getLast hne]
      simp [List.getLast?_eq_some_getLast hne]
    simpa only [contents, hmove] using hloop
  · simpa only [contents] using hloop

theorem Compresses.insertSymbols {c : ControlFlowCompressor} {syms : List TracerSymbol} :
    ∀ {symbols : List TracerSymbol}, (∀ s, (syms ++ symbols).count s < 2 ^ 64) →
      Compresses c.contents syms →
      Compresses (c.insertSymbols symbols).contents (syms ++ symbols) := by
  intro symbols
  induction symbols generalizing c syms with
  | nil =>
      intro _ hc
      simpa [ControlFlowCompressor.insertSymbols] using hc
  | cons symbol symbols ih =>
      intro hbound hc
      have hone : ∀ s, (syms ++ [symbol]).count s < 2 ^ 64 := by
        intro s
        have := hbound s
        simp only [List.count_append, List.count_cons, List.count_nil] at this ⊢
        omega
      have hstep := hc.insertSymbol hone
      have hrest := ih (by simpa using hbound) hstep
      simpa [ControlFlowCompressor.insertSymbols] using hrest

/-- Whatever is inserted into an empty compressor is what its contents stand for. -/
theorem compresses_insertSymbols (maxWindowLength : Nat) {symbols : List TracerSymbol}
    (hbound : ∀ s, symbols.count s < 2 ^ 64) :
    Compresses ((new maxWindowLength).insertSymbols symbols).contents symbols := by
  have hnew : Compresses (new maxWindowLength).contents [] :=
    { expand_eq := by simp [new, contents]
      wellFormed := by simp [new, contents, WellFormedAll]
      count_lt := by simp }
  exact hnew.insertSymbols (by simpa using hbound)

/-! ## Losslessness -/

/-- Below `2 ^ 32` symbols, `decompress` returns what the contents stand for. -/
theorem Compresses.decompress_eq {c : ControlFlowCompressor} {symbols : List TracerSymbol}
    (h : Compresses c.contents symbols) (hlen : symbols.length < 2 ^ 32) :
    c.decompress = some symbols := by
  rcases h with ⟨hexp, hwf, -⟩
  rw [wellFormedAll_iff] at hwf
  simp only [contents, expandAll_append] at hexp
  have hlens : (expandAll c.storedPatterns).length + (expandAll c.window.reverse).length
      = symbols.length := by
    rw [← hexp, List.length_append]
  have hstored := decompressAll_eq_expandAll c.storedPatterns
    ((wellFormedAll_iff _).2 fun p hp => hwf p (by simp [contents, hp])) (by omega)
  have hwindow := decompressAll_eq_expandAll c.window.reverse
    ((wellFormedAll_iff _).2 fun p hp => hwf p (by
      have := List.mem_reverse.1 hp
      simp [contents, this])) (by omega)
  simp [decompress, hstored, hwindow, hexp]

/-- Control flow compression is lossless: below `2 ^ 32` symbols, `decompress` returns exactly
what was inserted, for every window length. -/
theorem decompress_insertSymbols (maxWindowLength : Nat) (symbols : List TracerSymbol)
    (hlen : symbols.length < 2 ^ 32) :
    ((new maxWindowLength).insertSymbols symbols).decompress = some symbols := by
  have hbound : ∀ s, symbols.count s < 2 ^ 64 := by
    intro s
    have := List.count_le_length (a := s) (l := symbols)
    omega
  exact (compresses_insertSymbols maxWindowLength hbound).decompress_eq hlen

theorem decompress_insertSymbols_abab :
    ([1, 2, 1, 2, 1, 2] : List TracerSymbol).length < 2 ^ 32 ∧
      ((new 3).insertSymbols [1, 2, 1, 2, 1, 2]).decompress = some [1, 2, 1, 2, 1, 2] :=
  ⟨by decide, decompress_insertSymbols 3 [1, 2, 1, 2, 1, 2] (by decide)⟩

end ControlFlowCompressor
end CamAlias
