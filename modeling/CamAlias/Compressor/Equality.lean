import CamAlias.Compressor.ControlFlow

/-!
# Equality — comparing two compressors

`ControlFlowCompressor::operator==` walks the stored patterns and then the window of both sides with
`CFCIterator`, so it does not see where either side is split (`operatorEq_eq`).

Compression is a function of the inserted sequence, and below `2 ^ 64` occurrences of a symbol it
loses nothing: there `operator==` decides whether the sequences are equal.
-/

namespace CamAlias

open TracerCompressionPattern

/-- `CFCIterator`: the positions in `storedPatterns` and from the old end of `window`, and which of
the two is walked. -/
structure CFCIterator where
  stored : Nat
  window : Nat
  which : Nat
  deriving DecidableEq

namespace ControlFlowCompressor

/-! ## The iterator -/

/-- `ControlFlowCompressor::iteratorBegin`. -/
def iteratorBegin (c : ControlFlowCompressor) : CFCIterator :=
  if c.storedPatterns.length > 0 then { stored := 0, window := 0, which := 0 }
  else { stored := 0, window := 0, which := 1 }

/-- `ControlFlowCompressor::iteratorNext`. -/
def iteratorNext (c : ControlFlowCompressor) (iter : CFCIterator) : CFCIterator :=
  if iter.which = 0 ∧ iter.stored + 1 = c.storedPatterns.length then
    { stored := c.storedPatterns.length, window := 0, which := 1 }
  else if iter.which = 0 then { stored := iter.stored + 1, window := 0, which := 0 }
  else { stored := c.storedPatterns.length, window := iter.window + 1, which := 1 }

/-- `ControlFlowCompressor::iteratorEnd`. -/
def iteratorEnd (c : ControlFlowCompressor) : CFCIterator :=
  { stored := c.storedPatterns.length, window := c.window.length, which := 1 }

/-- `ControlFlowCompressor::iteratorData`; `none` where an end iterator is dereferenced. -/
def iteratorData (c : ControlFlowCompressor) (iter : CFCIterator) : Option TracerCompressionPattern :=
  if iter.which = 0 then c.storedPatterns[iter.stored]? else c.window.reverse[iter.window]?

/-- The loop of `operator==`; `none` where an end iterator is dereferenced or the loop does not
end. -/
def equalFrom (c other : ControlFlowCompressor) : Nat → CFCIterator → CFCIterator → Option Bool
  | 0, _, _ => none
  | fuel + 1, thisIter, otherIter =>
      if thisIter = c.iteratorEnd then some true
      else
        match c.iteratorData thisIter, other.iteratorData otherIter with
        | some p, some q =>
            if beq p q then
              equalFrom c other fuel (c.iteratorNext thisIter) (other.iteratorNext otherIter)
            else some false
        | _, _ => none

/-- `ControlFlowCompressor::operator==`. -/
def operatorEq (c other : ControlFlowCompressor) : Option Bool :=
  if c.storedPatterns.length + c.window.length ≠ other.storedPatterns.length + other.window.length
  then some false
  else equalFrom c other (c.contents.length + 1) c.iteratorBegin other.iteratorBegin

/-- What an iterator has before it.  In `storedPatterns` it never stands at the end. -/
inductive Remaining (c : ControlFlowCompressor) : CFCIterator → List TracerCompressionPattern → Prop
  | stored (s : Nat) (h : s < c.storedPatterns.length) :
      Remaining c ⟨s, 0, 0⟩ (c.storedPatterns.drop s ++ c.window.reverse)
  | window (w : Nat) (h : w ≤ c.window.length) :
      Remaining c ⟨c.storedPatterns.length, w, 1⟩ (c.window.reverse.drop w)

theorem remaining_iteratorBegin (c : ControlFlowCompressor) :
    c.Remaining c.iteratorBegin c.contents := by
  by_cases h : c.storedPatterns.length > 0
  · rw [iteratorBegin, if_pos h]
    exact Remaining.stored 0 h
  · have hnil : c.storedPatterns = [] := List.length_eq_zero_iff.1 (by omega)
    have hwindow := Remaining.window (c := c) 0 (Nat.zero_le _)
    rw [iteratorBegin, if_neg h]
    simpa [contents, hnil] using hwindow

theorem Remaining.eq_iteratorEnd_iff {c : ControlFlowCompressor} {iter : CFCIterator}
    {ps : List TracerCompressionPattern} (h : c.Remaining iter ps) :
    iter = c.iteratorEnd ↔ ps = [] := by
  cases h with
  | stored s hs =>
      constructor
      · intro heq
        have hwhich := congrArg CFCIterator.which heq
        exact absurd hwhich (by simp [iteratorEnd])
      · intro hnil
        have hdrop := List.drop_eq_nil_iff.1 (List.append_eq_nil_iff.1 hnil).1
        omega
  | window w hw =>
      rw [List.drop_eq_nil_iff, List.length_reverse]
      simp only [iteratorEnd, CFCIterator.mk.injEq, true_and, and_true]
      omega

/-- An iterator with something before it gives the first of that, and moves over it. -/
theorem Remaining.step {c : ControlFlowCompressor} {iter : CFCIterator}
    {p : TracerCompressionPattern} {ps : List TracerCompressionPattern}
    (h : c.Remaining iter (p :: ps)) :
    c.iteratorData iter = some p ∧ c.Remaining (c.iteratorNext iter) ps := by
  generalize hall : p :: ps = all at h
  cases h with
  | stored s hs =>
      rw [List.drop_eq_getElem_cons hs, List.cons_append, List.cons.injEq] at hall
      rcases hall with ⟨rfl, rfl⟩
      refine ⟨by simp [iteratorData, hs], ?_⟩
      by_cases hlast : s + 1 = c.storedPatterns.length
      · have hnext : c.iteratorNext ⟨s, 0, 0⟩ = ⟨c.storedPatterns.length, 0, 1⟩ :=
          if_pos ⟨rfl, hlast⟩
        rw [hnext, List.drop_eq_nil_of_le (by omega), List.nil_append]
        exact Remaining.window 0 (Nat.zero_le _)
      · have hnext : c.iteratorNext ⟨s, 0, 0⟩ = ⟨s + 1, 0, 0⟩ := by
          simp [iteratorNext, hlast]
        rw [hnext]
        exact Remaining.stored (s + 1) (by omega)
  | window w hw =>
      have hlt : w < c.window.reverse.length := by
        by_contra hge
        rw [List.drop_eq_nil_of_le (by omega)] at hall
        simp at hall
      rw [List.drop_eq_getElem_cons hlt, List.cons.injEq] at hall
      rcases hall with ⟨rfl, rfl⟩
      rw [List.length_reverse] at hlt
      refine ⟨?_, ?_⟩
      · simp only [iteratorData, Nat.one_ne_zero, if_false]
        exact List.getElem?_eq_getElem _
      · have hnext : c.iteratorNext ⟨c.storedPatterns.length, w, 1⟩
            = ⟨c.storedPatterns.length, w + 1, 1⟩ := by
          simp [iteratorNext]
        rw [hnext]
        exact Remaining.window (w + 1) hlt

theorem equalFrom_eq {c other : ControlFlowCompressor} :
    ∀ {ps qs : List TracerCompressionPattern} {fuel : Nat} {thisIter otherIter : CFCIterator},
      c.Remaining thisIter ps → other.Remaining otherIter qs → ps.length = qs.length →
      ps.length < fuel → equalFrom c other fuel thisIter otherIter = some (beqAll ps qs) := by
  intro ps
  induction ps with
  | nil =>
      intro qs fuel thisIter otherIter hthis _ _ hfuel
      cases fuel with
      | zero => omega
      | succ fuel =>
          simp only [equalFrom, if_pos (hthis.eq_iteratorEnd_iff.2 rfl), beqAll]
  | cons p ps ih =>
      intro qs fuel thisIter otherIter hthis hother hlen hfuel
      cases qs with
      | nil => simp at hlen
      | cons q qs =>
          cases fuel with
          | zero => omega
          | succ fuel =>
              rcases hthis.step with ⟨hp, hps⟩
              rcases hother.step with ⟨hq, hqs⟩
              have hend : thisIter ≠ c.iteratorEnd := fun h =>
                List.cons_ne_nil p ps (hthis.eq_iteratorEnd_iff.1 h)
              have hrest := ih hps hqs (by simpa using hlen) (by simpa using hfuel)
              simp only [equalFrom, if_neg hend, hp, hq, hrest, beqAll]
              cases beq p q <;> simp

/-! ## What it compares -/

/-- Whether the contents are equal. -/
def beq (c other : ControlFlowCompressor) : Bool :=
  c.contents.length == other.contents.length &&
    TracerCompressionPattern.beqAll c.contents other.contents

theorem beq_iff (c other : ControlFlowCompressor) :
    c.beq other = true ↔ c.contents = other.contents := by
  simp only [beq, Bool.and_eq_true, beq_iff_eq, TracerCompressionPattern.beqAll_iff]

/-- `operator==` always ends, and compares the contents. -/
theorem operatorEq_eq (c other : ControlFlowCompressor) : c.operatorEq other = some (c.beq other) := by
  have hlength : ∀ d : ControlFlowCompressor,
      d.contents.length = d.storedPatterns.length + d.window.length := by
    intro d
    simp [contents]
  simp only [operatorEq, beq, ← hlength]
  by_cases hlen : c.contents.length = other.contents.length
  · rw [if_neg (not_not.2 hlen), equalFrom_eq (remaining_iteratorBegin c)
      (remaining_iteratorBegin other) hlen (Nat.lt_succ_self _), hlen, beq_self_eq_true,
      Bool.true_and]
  · rw [if_pos hlen, beq_eq_false_iff_ne.2 hlen, Bool.false_and]

/-! ## Sequences -/

/-- Empty, or filled with anything and cleared. -/
inductive Fresh (maxWindowLength : Nat) : ControlFlowCompressor → Prop
  | new : Fresh maxWindowLength (new maxWindowLength)
  | clear (c : ControlFlowCompressor) (h : c.maxWindowLength = maxWindowLength) :
      Fresh maxWindowLength c.clear

theorem Fresh.eq_new {maxWindowLength : Nat} {c : ControlFlowCompressor}
    (h : Fresh maxWindowLength c) : c = ControlFlowCompressor.new maxWindowLength := by
  cases h with
  | new => rfl
  | clear c h => rw [ControlFlowCompressor.clear, h, ControlFlowCompressor.new]

/-- Below `2 ^ 64` occurrences of each symbol, `operator==` decides whether the inserted sequences
are equal. -/
theorem operatorEq_insertSymbols {maxWindowLength : Nat} {c d : ControlFlowCompressor}
    (hc : Fresh maxWindowLength c) (hd : Fresh maxWindowLength d) (xs ys : List TracerSymbol)
    (hxs : ∀ s, xs.count s < 2 ^ 64) (hys : ∀ s, ys.count s < 2 ^ 64) :
    (c.insertSymbols xs).operatorEq (d.insertSymbols ys) = some (decide (xs = ys)) := by
  rw [operatorEq_eq, hc.eq_new, hd.eq_new, Option.some.injEq, Bool.eq_iff_iff, beq_iff,
    decide_eq_true_eq]
  constructor
  · intro hcontents
    have hx := (compresses_insertSymbols maxWindowLength hxs).expand_eq
    have hy := (compresses_insertSymbols maxWindowLength hys).expand_eq
    rw [← hx, ← hy, hcontents]
  · rintro rfl
    rfl

theorem operatorEq_insertSymbols_cleared :
    (((new 2).insertSymbols [7]).clear.insertSymbols [1, 1, 2]).operatorEq
      ((new 2).insertSymbols [1, 2, 2]) = some (decide (([1, 1, 2] : List TracerSymbol) = [1, 2, 2])) :=
  operatorEq_insertSymbols (Fresh.clear _ rfl) Fresh.new _ _
    (fun s => Nat.lt_of_le_of_lt List.count_le_length (by decide))
    (fun s => Nat.lt_of_le_of_lt List.count_le_length (by decide))

/-! ## The counter -/

/-- One symbol over and over is one pattern, whose counter wraps around. -/
theorem insertSymbols_replicate {maxWindowLength : Nat} (hpos : 0 < maxWindowLength)
    (s : TracerSymbol) (n : Nat) :
    (new maxWindowLength).insertSymbols (List.replicate (n + 2) s)
      = { window := [.rep [.sym s] ((n + 2) % 2 ^ 64)], storedPatterns := [], maxWindowLength } := by
  have hindex : ∀ p q, match? maxWindowLength [p, q] = matchFrom [p, q] 1 := by
    intro p q
    have hmin : min (maxWindowLength / 2 + 1) 1 = 1 := Nat.min_eq_right (Nat.le_add_left 1 _)
    exact congrArg (matchFrom [p, q]) hmin
  have hmatch : ∀ k, matchOrMerge? maxWindowLength [.sym s, .rep [.sym s] k]
      = some [.rep [.sym s] (incRepetitions k)] := by
    intro k
    simp [matchOrMerge?, hindex, matchFrom, patternMatchesSymbols, TracerCompressionPattern.beq]
  have hstop : ∀ p, matchOrMerge? maxWindowLength [p] = none := by
    intro p
    simp [matchOrMerge?, match?, matchFrom, merge?, mergeFrom]
  have hroom : ¬ 1 > maxWindowLength := by omega
  induction n with
  | zero =>
      -- the second symbol makes a pattern of the first one
      have hmerge : matchOrMerge? maxWindowLength [.sym s, .sym s] = some [.rep [.sym s] 2] := by
        simp [matchOrMerge?, hindex, matchFrom, merge?, mergeFrom, isRepeatedSequence,
          TracerCompressionPattern.beq, beqAll]
      have hone : (new maxWindowLength).insertSymbol s
          = { window := [.sym s], storedPatterns := [], maxWindowLength } := by
        simp only [insertSymbol, new, Lib.iterate, List.length_cons, List.length_nil, hstop,
          if_neg hroom]
      have htwo : List.replicate (0 + 2) s = [s, s] := rfl
      have hmod : (0 + 2) % 2 ^ 64 = 2 := by omega
      rw [htwo, hmod]
      simp only [insertSymbols, List.foldl_cons, List.foldl_nil, hone]
      simp only [insertSymbol, Lib.iterate, List.length_cons, List.length_nil, hmerge, hstop,
        if_neg hroom]
  | succ n ih =>
      have hsplit : List.replicate (n + 1 + 2) s = List.replicate (n + 2) s ++ [s] :=
        List.replicate_succ'
      -- and every further one counts it up, modulo `2 ^ 64`
      have hinc : incRepetitions ((n + 2) % 2 ^ 64) = (n + 1 + 2) % 2 ^ 64 := by
        simp only [incRepetitions]
        omega
      have happend : ∀ c : ControlFlowCompressor, ∀ symbols,
          c.insertSymbols (symbols ++ [s]) = (c.insertSymbols symbols).insertSymbol s :=
        fun _ _ => List.foldl_append
      rw [hsplit, happend, ih]
      simp only [insertSymbol, Lib.iterate, List.length_cons, List.length_nil, hmatch, hstop, hinc,
        if_neg hroom]

/-- Two symbols and `2 ^ 64 + 2` of the same symbol compare equal. -/
theorem operatorEq_two_pow_64_add_two :
    ¬ ∀ xs ys : List TracerSymbol,
      ((new 1).insertSymbols xs).operatorEq ((new 1).insertSymbols ys) = some (decide (xs = ys)) := by
  intro h
  have hequal := h (List.replicate (0 + 2) 1) (List.replicate (2 ^ 64 + 2) 1)
  have hmod : (2 ^ 64 + 2) % 2 ^ 64 = (0 + 2) % 2 ^ 64 := by omega
  rw [operatorEq_eq, insertSymbols_replicate (by decide), insertSymbols_replicate (by decide), hmod,
    Option.some.injEq, (beq_iff _ _).2 rfl] at hequal
  have hlen := congrArg List.length (of_decide_eq_true hequal.symm)
  rw [List.length_replicate, List.length_replicate] at hlen
  omega

end ControlFlowCompressor
end CamAlias
