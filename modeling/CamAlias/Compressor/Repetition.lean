import CamAlias.Compressor.Equality

/-!
# Repetition — what the control flow compressor leaves uncompressed

`match` and `merge` look at the young end of the window only, and `match` only at patterns up to
half the window length.  Between two insertions nothing in the window can be compressed all the
same: while the loop of `insertSymbol` runs, only the youngest pattern can be part of a
repetition, and the loop ends when it is not.

Blocks are read in the order of time, oldest pattern first.

- `Repetition`: two equal blocks in a row, or a compound pattern in front of its own body;
- `Settling.matchOrMerge?`: what a round of the loop keeps;
- `compact_insertSymbol`: the state after every insertion.
-/

namespace CamAlias

namespace TracerCompressionPattern

/-- A block that `merge` or `match` would shorten. -/
def Repetition (block : List TracerCompressionPattern) : Prop :=
  (∃ ps, ps ≠ [] ∧ block = ps ++ ps) ∨ ∃ ps n, block = .rep ps n :: ps

/-- There is no repetition anywhere in the sequence. -/
def NoRepetition (patterns : List TracerCompressionPattern) : Prop :=
  ∀ block, block <:+: patterns → ¬ Repetition block

theorem NoRepetition.infix {ps qs : List TracerCompressionPattern} (h : NoRepetition ps)
    (hqs : qs <:+: ps) : NoRepetition qs :=
  fun block hblock => h block (hblock.trans hqs)

/-- A new pattern at the young end can only be the end of a repetition. -/
theorem NoRepetition.concat {ps : List TracerCompressionPattern} {p : TracerCompressionPattern}
    (h : NoRepetition ps) (hend : ∀ block, block <:+ ps ++ [p] → ¬ Repetition block) :
    NoRepetition (ps ++ [p]) := by
  intro block hblock
  rcases List.infix_concat_iff.1 hblock with hsuffix | hinfix
  · exact hend block hsuffix
  · exact h block hinfix

mutual

/-- The body of every compound pattern is not empty, at most half a window long and free of
repetitions, at every depth. -/
def Compact (maxWindowLength : Nat) : TracerCompressionPattern → Prop
  | .sym _ => True
  | .rep ps _ =>
      ps ≠ [] ∧ ps.length ≤ maxWindowLength / 2 + 1 ∧ NoRepetition ps ∧
        CompactAll maxWindowLength ps

def CompactAll (maxWindowLength : Nat) : List TracerCompressionPattern → Prop
  | [] => True
  | p :: ps => Compact maxWindowLength p ∧ CompactAll maxWindowLength ps

end

theorem compactAll_iff (maxWindowLength : Nat) (ps : List TracerCompressionPattern) :
    CompactAll maxWindowLength ps ↔ ∀ p ∈ ps, Compact maxWindowLength p := by
  induction ps with
  | nil => simp [CompactAll]
  | cons p ps ih => simp [CompactAll, ih]

end TracerCompressionPattern

namespace ControlFlowCompressor

open TracerCompressionPattern

/-! ## When the loop stops -/

theorem patternMatchesSymbols_append (pats rest : List TracerCompressionPattern) :
    patternMatchesSymbols pats (pats ++ rest) = true := by
  induction pats with
  | nil => rfl
  | cons pat pats ih =>
      rw [List.cons_append, patternMatchesSymbols, (TracerCompressionPattern.beq_iff pat pat).2 rfl,
        ih]
      rfl

theorem beqAll_append (ps rest : List TracerCompressionPattern) :
    beqAll ps (ps ++ rest) = true := by
  induction ps with
  | nil => rfl
  | cons p ps ih =>
      rw [List.cons_append, beqAll, (TracerCompressionPattern.beq_iff p p).2 rfl, ih]
      rfl

theorem matchFrom_eq_none {window : List TracerCompressionPattern} {patternIndex : Nat}
    (h : matchFrom window patternIndex = none) {ps rest : List TracerCompressionPattern} {n : Nat}
    (hne : ps ≠ []) (hlen : ps.length ≤ patternIndex) :
    window ≠ ps.reverse ++ .rep ps n :: rest := by
  intro hwindow
  have hpos : 0 < ps.length := List.length_pos_iff.2 hne
  induction patternIndex with
  | zero => omega
  | succ patternIndex ih =>
      by_cases hindex : ps.length = patternIndex + 1
      · have hget : window[patternIndex + 1]? = some (.rep ps n) := by
          rw [hwindow, ← hindex, List.getElem?_append_right (by simp)]
          simp
        have hmatch : patternMatchesSymbols ps.reverse window = true := by
          rw [hwindow]
          exact patternMatchesSymbols_append _ _
        rw [matchFrom, hget] at h
        simp [hindex, hmatch] at h
      · refine ih ?_ (by omega)
        -- the loop goes on with the next smaller index unless it has matched
        rw [matchFrom] at h
        split at h
        · split at h
          · cases h
          · exact h
        · exact h

/-- `match` misses no compound pattern whose body is short enough. -/
theorem match?_eq_none {maxWindowLength : Nat} {window : List TracerCompressionPattern}
    (h : match? maxWindowLength window = none) {ps rest : List TracerCompressionPattern} {n : Nat}
    (hne : ps ≠ []) (hlen : ps.length ≤ maxWindowLength / 2 + 1) :
    window ≠ ps.reverse ++ .rep ps n :: rest := by
  intro hwindow
  refine matchFrom_eq_none h hne ?_ hwindow
  have hlong := congrArg List.length hwindow
  simp only [List.length_append, List.length_reverse, List.length_cons] at hlong
  omega

theorem mergeFrom_eq_none {window : List TracerCompressionPattern} {width : Nat}
    (h : mergeFrom window width = none) {block rest : List TracerCompressionPattern}
    (hne : block ≠ []) (hlen : block.length ≤ width) :
    window ≠ block ++ (block ++ rest) := by
  intro hwindow
  have hpos : 0 < block.length := List.length_pos_iff.2 hne
  induction width with
  | zero => omega
  | succ width ih =>
      by_cases hindex : block.length = width + 1
      · have hrepeated : isRepeatedSequence window (width + 1) = true := by
          rw [isRepeatedSequence, hwindow, ← hindex, List.take_left, List.drop_left]
          exact beqAll_append _ _
        rw [mergeFrom, if_pos hrepeated] at h
        cases h
      · refine ih ?_ (by omega)
        rw [mergeFrom] at h
        split at h
        · cases h
        · exact h

/-- `merge` misses no two equal blocks at the young end. -/
theorem merge?_eq_none {window : List TracerCompressionPattern} (h : merge? window = none)
    {block rest : List TracerCompressionPattern} (hne : block ≠ []) :
    window ≠ block ++ (block ++ rest) := by
  intro hwindow
  refine mergeFrom_eq_none h hne ?_ hwindow
  have hlong := congrArg List.length hwindow
  simp only [List.length_append] at hlong
  omega

/-! ## The loop -/

/-- While the loop runs: all patterns are compact, and those behind the youngest one are free of
repetitions. -/
structure Settling (maxWindowLength : Nat) (window : List TracerCompressionPattern) : Prop where
  ne_nil : window ≠ []
  length_le : window.length ≤ maxWindowLength + 1
  compact : ∀ p ∈ window, Compact maxWindowLength p
  noRepetition : NoRepetition window.tail.reverse

/-- A round of the loop: the patterns behind the new youngest one were behind the old one, and the
body of a new compound pattern is the older of the two equal blocks. -/
theorem Settling.matchOrMerge? {maxWindowLength : Nat}
    {window w' : List TracerCompressionPattern} (hw : Settling maxWindowLength window)
    (h : ControlFlowCompressor.matchOrMerge? maxWindowLength window = some w') :
    Settling maxWindowLength w' := by
  have hlt := length_lt_of_matchOrMerge? h
  have hlen := hw.length_le
  rcases matchOrMerge?_eq_some h with ⟨ps, n, rest, hne, rfl, rfl⟩ | ⟨ps, rest, hne, rfl, rfl⟩
  · rcases List.exists_cons_of_ne_nil (List.reverse_ne_nil_iff.2 hne) with ⟨young, old, hyoung⟩
    have hold := hw.noRepetition
    rw [hyoung, List.cons_append, List.tail_cons] at hold
    refine ⟨List.cons_ne_nil _ _, by omega, ?_, ?_⟩
    · intro p hp
      rcases List.mem_cons.1 hp with rfl | hp
      · have hrep := hw.compact (.rep ps n) (by simp)
        simpa only [Compact] using hrep
      · exact hw.compact p (by simp [hp])
    · rw [List.tail_cons]
      refine hold.infix (List.reverse_infix.2 ?_)
      exact ⟨old ++ [.rep ps n], [], by simp⟩
  · rcases List.exists_cons_of_ne_nil (List.reverse_ne_nil_iff.2 hne) with ⟨young, old, hyoung⟩
    have hold := hw.noRepetition
    have htail : (ps.reverse ++ (ps.reverse ++ rest)).tail = old ++ (ps.reverse ++ rest) := by
      rw [hyoung, List.cons_append, List.tail_cons, ← hyoung]
    rw [htail] at hold
    have hbody : NoRepetition ps := by
      refine hold.infix ?_
      rw [← List.reverse_infix, List.reverse_reverse]
      exact ⟨old, rest, by simp⟩
    refine ⟨List.cons_ne_nil _ _, by omega, ?_, ?_⟩
    · intro p hp
      rcases List.mem_cons.1 hp with rfl | hp
      · have hshort : ps.length ≤ maxWindowLength / 2 + 1 := by
          simp only [List.length_append, List.length_reverse] at hlen
          omega
        have hparts : CompactAll maxWindowLength ps :=
          (compactAll_iff _ _).2 fun q hq => hw.compact q (by simp [hq])
        simp only [Compact]
        exact ⟨hne, hshort, hbody, hparts⟩
      · exact hw.compact p (by simp [hp])
    · rw [List.tail_cons]
      refine hold.infix (List.reverse_infix.2 ?_)
      exact ⟨old ++ ps.reverse, [], by simp⟩

/-- When neither `match` nor `merge` applies, the youngest pattern ends no repetition either. -/
theorem Settling.settled {maxWindowLength : Nat} {window : List TracerCompressionPattern}
    (hw : Settling maxWindowLength window)
    (h : ControlFlowCompressor.matchOrMerge? maxWindowLength window = none) :
    NoRepetition window.reverse := by
  rcases List.exists_cons_of_ne_nil hw.ne_nil with ⟨young, old, rfl⟩
  have hnone : match? maxWindowLength (young :: old) = none ∧ merge? (young :: old) = none := by
    simpa only [ControlFlowCompressor.matchOrMerge?, Option.or_eq_none_iff] using h
  rw [List.reverse_cons]
  refine hw.noRepetition.concat ?_
  rintro block ⟨older, hsplit⟩ hrepetition
  have hwindow : young :: old = block.reverse ++ older.reverse := by
    have hreverse := congrArg List.reverse hsplit
    simpa using hreverse.symm
  rcases hrepetition with ⟨ps, hne, rfl⟩ | ⟨ps, n, rfl⟩
  · have htwice : young :: old = ps.reverse ++ (ps.reverse ++ older.reverse) := by
      simpa using hwindow
    exact merge?_eq_none hnone.2 (List.reverse_ne_nil_iff.2 hne) htwice
  · have hmem : TracerCompressionPattern.rep ps n ∈ young :: old := by
      rw [hwindow]
      simp
    have hrep := hw.compact _ hmem
    simp only [Compact] at hrep
    have hbody : young :: old = ps.reverse ++ .rep ps n :: older.reverse := by
      simpa using hwindow
    exact match?_eq_none hnone.1 hrep.1 hrep.2.1 hbody

/-! ## Insertions -/

/-- The state between two insertions. -/
structure Settled (c : ControlFlowCompressor) : Prop where
  length_le : c.window.length ≤ c.maxWindowLength
  noRepetition : NoRepetition c.window.reverse
  compact : ∀ p ∈ c.contents, Compact c.maxWindowLength p

theorem settled_new (maxWindowLength : Nat) : Settled (new maxWindowLength) where
  length_le := Nat.zero_le _
  noRepetition := by
    rintro block hblock (⟨ps, hne, rfl⟩ | ⟨ps, n, rfl⟩)
    · have hnil := List.infix_nil.1 hblock
      exact hne (List.append_eq_nil_iff.1 hnil).1
    · exact List.cons_ne_nil _ _ (List.infix_nil.1 hblock)
  compact := by simp [new, contents]

theorem Settled.insertSymbol {c : ControlFlowCompressor} (h : Settled c) (symbol : TracerSymbol) :
    Settled (c.insertSymbol symbol) := by
  have hpushed : Settling c.maxWindowLength (.sym symbol :: c.window) := by
    refine ⟨List.cons_ne_nil _ _, Nat.succ_le_succ h.length_le, ?_, h.noRepetition⟩
    intro p hp
    rcases List.mem_cons.1 hp with rfl | hp
    · simp only [Compact]
    · exact h.compact p (by simp [contents, hp])
  have hloop := Lib.iterate_induction (Settling c.maxWindowLength)
    (fun w w' (hstep : ControlFlowCompressor.matchOrMerge? c.maxWindowLength w = some w') hw =>
      hw.matchOrMerge? hstep)
    (c.window.length + 1) _ hpushed
  have hstop := matchOrMerge?_iterate c.maxWindowLength (.sym symbol :: c.window)
  have hstored : ∀ p ∈ c.storedPatterns, Compact c.maxWindowLength p := fun p hp =>
    h.compact p (by simp [contents, hp])
  simp only [ControlFlowCompressor.insertSymbol, List.length_cons] at hstop ⊢
  generalize Lib.iterate _ _ _ = window at hloop hstop ⊢
  have hsettled := hloop.settled hstop
  split
  · -- the oldest pattern leaves the window
    have hinfix : window.dropLast.reverse <:+: window.reverse :=
      List.reverse_infix.2 (List.dropLast_prefix window).isInfix
    refine ⟨?_, hsettled.infix hinfix, ?_⟩
    · have hlen := hloop.length_le
      simp only [List.length_dropLast]
      omega
    · intro p hp
      simp only [contents, List.mem_append, List.mem_reverse, Option.mem_toList] at hp
      rcases hp with (hp | hp) | hp
      · exact hstored p hp
      · exact hloop.compact p (List.mem_of_getLast? hp)
      · exact hloop.compact p ((List.dropLast_sublist window).subset hp)
  · rename_i hroom
    refine ⟨by simpa using hroom, hsettled, ?_⟩
    intro p hp
    simp only [contents, List.mem_append, List.mem_reverse] at hp
    rcases hp with hp | hp
    · exact hstored p hp
    · exact hloop.compact p hp

theorem Settled.insertSymbols {c : ControlFlowCompressor} (h : Settled c)
    (symbols : List TracerSymbol) : Settled (c.insertSymbols symbols) := by
  induction symbols generalizing c with
  | nil => exact h
  | cons symbol symbols ih => exact ih (h.insertSymbol symbol)

theorem maxWindowLength_insertSymbols (c : ControlFlowCompressor) (symbols : List TracerSymbol) :
    (c.insertSymbols symbols).maxWindowLength = c.maxWindowLength := by
  have hone : ∀ (c : ControlFlowCompressor) (symbol : TracerSymbol),
      (c.insertSymbol symbol).maxWindowLength = c.maxWindowLength := by
    intro c symbol
    simp only [ControlFlowCompressor.insertSymbol]
    split <;> rfl
  induction symbols generalizing c with
  | nil => rfl
  | cons symbol symbols ih => exact (ih (c.insertSymbol symbol)).trans (hone c symbol)

/-- After every insertion: the loop has ended, the window is within its bound and free of
repetitions, and so is the body of every compound pattern, which stands for two repetitions or
more as long as no symbol occurs `2 ^ 64` times. -/
theorem compact_insertSymbol (maxWindowLength : Nat) (symbols : List TracerSymbol)
    (symbol : TracerSymbol) :
    let c := (new maxWindowLength).insertSymbols symbols
    let c' := c.insertSymbol symbol
    matchOrMerge? maxWindowLength (Lib.iterate (matchOrMerge? maxWindowLength)
        (c.window.length + 1) (.sym symbol :: c.window)) = none ∧
      c'.window.length ≤ maxWindowLength ∧ NoRepetition c'.window.reverse ∧
      (∀ p ∈ c'.contents, Compact maxWindowLength p) ∧
      ((∀ s, (symbols ++ [symbol]).count s < 2 ^ 64) → WellFormedAll c'.contents) := by
  intro c c'
  have hall : c' = (new maxWindowLength).insertSymbols (symbols ++ [symbol]) := by
    simp only [c', c, ControlFlowCompressor.insertSymbols, List.foldl_append, List.foldl_cons,
      List.foldl_nil]
  have hsettled : Settled c' := ((settled_new maxWindowLength).insertSymbols symbols).insertSymbol _
  have hmax : c'.maxWindowLength = maxWindowLength := by
    rw [hall, maxWindowLength_insertSymbols]
    rfl
  have hlen := hsettled.length_le
  have hcompact := hsettled.compact
  rw [hmax] at hlen hcompact
  refine ⟨matchOrMerge?_iterate maxWindowLength (.sym symbol :: c.window), hlen,
    hsettled.noRepetition, hcompact, ?_⟩
  intro hbound
  rw [hall]
  exact (compresses_insertSymbols maxWindowLength hbound).wellFormed

/-- One symbol `2 ^ 64` times is a compound pattern with no repetitions. -/
theorem insertSymbols_wraps :
    ¬ ∀ (maxWindowLength : Nat) (symbols : List TracerSymbol), 1 ≤ maxWindowLength →
      ∀ ps n, .rep ps n ∈ ((new maxWindowLength).insertSymbols symbols).contents → 2 ≤ n := by
  intro hall
  have hcontents := insertSymbols_replicate Nat.one_pos 1 (2 ^ 64 - 2)
  have hmod : (2 ^ 64 - 2 + 2) % 2 ^ 64 = 0 := by omega
  rw [hmod] at hcontents
  have htwo := hall 1 (List.replicate (2 ^ 64 - 2 + 2) 1) (Nat.le_refl 1) [.sym 1] 0
  rw [hcontents] at htwo
  exact absurd (htwo (by simp [contents])) (by decide)

end ControlFlowCompressor
end CamAlias
