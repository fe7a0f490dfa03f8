import Mathlib.Algebra.GroupWithZero.Nat
import Mathlib.Data.List.Basic
import Mathlib.Tactic.Common

/-!
# Pattern — the tracer's compression patterns

`TracerCompressionPattern` of `ControlFlowCompressor.cpp`: either one symbol or a sequence of
patterns (stored oldest first) with a repetition count.  In the source both are one class and a
leaf is a pattern with an empty vector; here they are the two constructors.

* `TracerCompressionPattern.beq` is `operator==`;
* `TracerCompressionPattern.decompress` is the method, with its 32-bit loop counter;
* `expand` is what a pattern stands for, whatever its counts.
-/

namespace CamAlias

/-- `typedef uintptr_t tracer_symbol`. -/
abbrev TracerSymbol := UInt64

inductive TracerCompressionPattern
  | sym (s : TracerSymbol)
  | rep (pattern : List TracerCompressionPattern) (numRepetitions : Nat)

namespace TracerCompressionPattern

/-! ## Equality -/

mutual

/-- `TracerCompressionPattern::operator==`. -/
def beq : TracerCompressionPattern → TracerCompressionPattern → Bool
  | .sym s, .sym t => s == t
  | .rep ps m, .rep qs n => ps.length == qs.length && m == n && beqAll ps qs
  | _, _ => false

/-- The pointwise loop of `operator==`. -/
def beqAll : List TracerCompressionPattern → List TracerCompressionPattern → Bool
  | [], _ => true
  | p :: ps, q :: qs => beq p q && beqAll ps qs
  | _ :: _, [] => false

end

mutual

theorem beq_iff : ∀ p q : TracerCompressionPattern, beq p q = true ↔ p = q
  | .sym s, .sym t => by simp [beq]
  | .rep ps m, .rep qs n => by
      have hall := beqAll_iff ps qs
      constructor
      · intro h
        simp only [beq, Bool.and_eq_true, beq_iff_eq] at h
        rcases h with ⟨⟨hlen, hmn⟩, hps⟩
        have hpq : ps = qs := hall.1 ⟨hlen, hps⟩
        rw [hpq, hmn]
      · intro h
        cases h
        simpa [beq] using (hall.2 rfl).2
  | .sym _, .rep _ _ => by simp [beq]
  | .rep _ _, .sym _ => by simp [beq]

theorem beqAll_iff : ∀ ps qs : List TracerCompressionPattern,
    ps.length = qs.length ∧ beqAll ps qs = true ↔ ps = qs
  | [], [] => by simp [beqAll]
  | [], _ :: _ => by simp
  | _ :: _, [] => by simp
  | p :: ps, q :: qs => by
      have hhead := beq_iff p q
      have htail := beqAll_iff ps qs
      simp only [List.length_cons, Nat.add_right_cancel_iff, beqAll, Bool.and_eq_true,
        List.cons.injEq, hhead, ← htail]
      tauto

end

instance : DecidableEq TracerCompressionPattern := fun p q =>
  decidable_of_iff (beq p q = true) (beq_iff p q)

/-! ## What a pattern stands for -/

mutual

/-- The symbols a pattern stands for. -/
def expand : TracerCompressionPattern → List TracerSymbol
  | .sym s => [s]
  | .rep ps n => (List.replicate n (expandAll ps)).flatten

/-- The symbols a sequence of patterns stands for. -/
def expandAll : List TracerCompressionPattern → List TracerSymbol
  | [] => []
  | p :: ps => expand p ++ expandAll ps

end

@[simp] theorem expand_sym (s : TracerSymbol) : expand (.sym s) = [s] := by
  simp [expand]

@[simp] theorem expandAll_nil : expandAll [] = [] := by
  simp [expandAll]

@[simp] theorem expandAll_cons (p : TracerCompressionPattern)
    (ps : List TracerCompressionPattern) : expandAll (p :: ps) = expand p ++ expandAll ps := by
  simp [expandAll]

@[simp] theorem expandAll_append (ps qs : List TracerCompressionPattern) :
    expandAll (ps ++ qs) = expandAll ps ++ expandAll qs := by
  induction ps with
  | nil => simp
  | cons p ps ih => simp [ih]

/-- One repetition more is the body once more, at the end. -/
theorem expand_rep_succ (ps : List TracerCompressionPattern) (n : Nat) :
    expand (.rep ps (n + 1)) = expand (.rep ps n) ++ expandAll ps := by
  simp [expand, List.replicate_succ']

theorem expand_rep_two (ps : List TracerCompressionPattern) :
    expand (.rep ps 2) = expandAll ps ++ expandAll ps := by
  simp [expand, List.replicate_succ]

/-! ## Well-formed patterns -/

mutual

/-- Every compound pattern has a body and at least two repetitions, counted in 64 bits. -/
def WellFormed : TracerCompressionPattern → Prop
  | .sym _ => True
  | .rep ps n => ps ≠ [] ∧ 2 ≤ n ∧ n < 2 ^ 64 ∧ WellFormedAll ps

def WellFormedAll : List TracerCompressionPattern → Prop
  | [] => True
  | p :: ps => WellFormed p ∧ WellFormedAll ps

end

theorem wellFormedAll_iff (ps : List TracerCompressionPattern) :
    WellFormedAll ps ↔ ∀ p ∈ ps, WellFormed p := by
  induction ps with
  | nil => simp [WellFormedAll]
  | cons p ps ih => simp [WellFormedAll, ih]

mutual

/-- What an object of the class can hold: a compound pattern has a body, counts have 64 bits. -/
def Representable : TracerCompressionPattern → Prop
  | .sym _ => True
  | .rep ps n => ps ≠ [] ∧ n < 2 ^ 64 ∧ RepresentableAll ps

def RepresentableAll : List TracerCompressionPattern → Prop
  | [] => True
  | p :: ps => Representable p ∧ RepresentableAll ps

end

mutual

theorem WellFormed.representable : ∀ {p : TracerCompressionPattern}, WellFormed p →
    Representable p
  | .sym _, _ => by simp only [Representable]
  | .rep ps n, h => by
      rcases (by simpa only [WellFormed] using h) with ⟨hne, _, hn, hps⟩
      simp only [Representable]
      exact ⟨hne, hn, hps.representableAll⟩

theorem WellFormedAll.representableAll : ∀ {ps : List TracerCompressionPattern},
    WellFormedAll ps → RepresentableAll ps
  | [], _ => by simp only [RepresentableAll]
  | p :: ps, h => by
      rcases (by simpa only [WellFormedAll] using h) with ⟨hp, hps⟩
      simp only [RepresentableAll]
      exact ⟨hp.representable, hps.representableAll⟩

end

mutual

theorem expand_ne_nil : ∀ p : TracerCompressionPattern, WellFormed p → expand p ≠ []
  | .sym s, _ => by simp
  | .rep ps n, h => by
      rcases (by simpa only [WellFormed] using h) with ⟨hne, hn, _, hps⟩
      have hbody := expandAll_ne_nil ps hps hne
      have hn' : n = (n - 1) + 1 := by omega
      rw [hn', expand_rep_succ]
      simp [hbody]

theorem expandAll_ne_nil : ∀ ps : List TracerCompressionPattern,
    WellFormedAll ps → ps ≠ [] → expandAll ps ≠ []
  | [], _, h => absurd rfl h
  | p :: ps, h, _ => by
      have hp := expand_ne_nil p (by simpa only [WellFormedAll] using h.1)
      simp [hp]

end

/-- A repetition count is paid for by some symbol of the body. -/
theorem exists_numRepetitions_le_count {ps : List TracerCompressionPattern} (n : Nat)
    (h : expandAll ps ≠ []) :
    ∃ s, n ≤ (expand (.rep ps n)).count s := by
  rcases List.exists_mem_of_ne_nil _ h with ⟨s, hs⟩
  refine ⟨s, ?_⟩
  have hpos : 1 ≤ (expandAll ps).count s := List.count_pos_iff.2 hs
  have hcount : (expand (.rep ps n)).count s = n * (expandAll ps).count s := by
    simp [expand, List.count_flatten]
  rw [hcount]
  exact Nat.le_mul_of_pos_right n hpos

/-! ## Nesting -/

mutual

/-- How many parentheses can stand one behind the other in a printed pattern. -/
def depth : TracerCompressionPattern → Nat
  | .sym _ => 1
  | .rep ps _ => depthAll ps + 1

def depthAll : List TracerCompressionPattern → Nat
  | [] => 0
  | p :: ps => max (depth p) (depthAll ps)

end

mutual

/-- Each level doubles the occurrences of some symbol. -/
theorem exists_two_pow_depth_le : ∀ p : TracerCompressionPattern, WellFormed p →
    ∃ s, 2 ^ depth p ≤ 2 * (expand p).count s
  | .sym s, _ => ⟨s, by simp [depth]⟩
  | .rep ps n, h => by
      rcases (by simpa only [WellFormed] using h) with ⟨hne, hn, _, hps⟩
      rcases exists_two_pow_depthAll_le ps hps hne with ⟨s, hs⟩
      have hcount : (expand (.rep ps n)).count s = n * (expandAll ps).count s := by
        simp [expand, List.count_flatten]
      have htwice : 2 * (expandAll ps).count s ≤ n * (expandAll ps).count s :=
        Nat.mul_le_mul_right _ hn
      refine ⟨s, ?_⟩
      rw [depth, Nat.pow_succ, hcount]
      omega

theorem exists_two_pow_depthAll_le : ∀ ps : List TracerCompressionPattern, WellFormedAll ps →
    ps ≠ [] → ∃ s, 2 ^ depthAll ps ≤ 2 * (expandAll ps).count s
  | [], _, hne => absurd rfl hne
  | p :: ps, h, _ => by
      rcases (by simpa only [WellFormedAll] using h) with ⟨hp, hps⟩
      by_cases hle : depthAll ps ≤ depth p
      · rcases exists_two_pow_depth_le p hp with ⟨s, hs⟩
        refine ⟨s, ?_⟩
        rw [depthAll, Nat.max_eq_left hle, expandAll_cons, List.count_append]
        omega
      · have hne : ps ≠ [] := by
          rintro rfl
          exact hle (Nat.zero_le _)
        rcases exists_two_pow_depthAll_le ps hps hne with ⟨s, hs⟩
        refine ⟨s, ?_⟩
        rw [depthAll, Nat.max_eq_right (Nat.le_of_not_le hle), expandAll_cons, List.count_append]
        omega

end

/-- Well formed, and nested at most 64 deep: what the tracer prints. -/
structure Printable (ps : List TracerCompressionPattern) : Prop where
  wellFormed : WellFormedAll ps
  depth_le : depthAll ps ≤ 64

/-- Fewer than `2 ^ 64` occurrences of each symbol do not nest deeper. -/
theorem printable_of_count_lt {ps : List TracerCompressionPattern} (hps : WellFormedAll ps)
    (hcount : ∀ s, (expandAll ps).count s < 2 ^ 64) : Printable ps := by
  refine ⟨hps, Nat.le_of_not_lt fun hdeep => ?_⟩
  have hne : ps ≠ [] := by
    rintro rfl
    exact absurd hdeep (by simp [depthAll])
  rcases exists_two_pow_depthAll_le ps hps hne with ⟨s, hs⟩
  have hpow : 2 ^ 65 ≤ 2 ^ depthAll ps := Nat.pow_le_pow_right (by omega) hdeep
  have := hcount s
  omega

/-! ## Decompression -/

/-- Executes `for (unsigned int i = 0; i < numRepetitions; i++)` around `v.insert`: the counter
has 32 bits, so the loop ends only for counts below `2 ^ 32`. -/
def repeatBody (numRepetitions : Nat) (v : List TracerSymbol) : Option (List TracerSymbol) :=
  if numRepetitions < 2 ^ 32 then some (List.replicate numRepetitions v).flatten else none

mutual

/-- `TracerCompressionPattern::decompress`; `none` when its loop does not end. -/
def decompress : TracerCompressionPattern → Option (List TracerSymbol)
  | .sym s => some [s]
  | .rep ps n => (decompressAll ps).bind (repeatBody n)

def decompressAll : List TracerCompressionPattern → Option (List TracerSymbol)
  | [] => some []
  | p :: ps =>
      match decompress p, decompressAll ps with
      | some v, some vs => some (v ++ vs)
      | _, _ => none

end

mutual

theorem decompress_eq_expand : ∀ p : TracerCompressionPattern,
    WellFormed p → (expand p).length < 2 ^ 32 → decompress p = some (expand p)
  | .sym s, _, _ => by simp [decompress]
  | .rep ps n, hwf, hlen => by
      rcases (by simpa only [WellFormed] using hwf) with ⟨hne, hn, _, hps⟩
      have hbody := expandAll_ne_nil ps hps hne
      have hmul : (expand (.rep ps n)).length = n * (expandAll ps).length := by
        simp [expand]
      have hpos : 0 < (expandAll ps).length := List.length_pos_iff.2 hbody
      have hn32 : n < 2 ^ 32 := by
        have := Nat.le_mul_of_pos_right n hpos
        omega
      have hbody32 : (expandAll ps).length < 2 ^ 32 := by
        have := Nat.le_mul_of_pos_left (expandAll ps).length (show 0 < n by omega)
        omega
      have hrec := decompressAll_eq_expandAll ps hps hbody32
      have hrepeat : repeatBody n (expandAll ps)
          = some (List.replicate n (expandAll ps)).flatten := if_pos hn32
      simp [decompress, hrec, hrepeat, expand]

theorem decompressAll_eq_expandAll : ∀ ps : List TracerCompressionPattern,
    WellFormedAll ps → (expandAll ps).length < 2 ^ 32 → decompressAll ps = some (expandAll ps)
  | [], _, _ => by simp [decompressAll]
  | p :: ps, hwf, hlen => by
      simp only [expandAll_cons, List.length_append] at hlen
      have hp := decompress_eq_expand p (by simpa only [WellFormedAll] using hwf.1) (by omega)
      have hps := decompressAll_eq_expandAll ps (by simpa only [WellFormedAll] using hwf.2)
        (by omega)
      simp [decompressAll, hp, hps]

end

end TracerCompressionPattern
end CamAlias
