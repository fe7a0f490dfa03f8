import CamAlias.Lexer.Cfc

/-!
# PatternEquality — pattern equality on both sides of the file

`TracerCompressionPattern::operator==` compares the sizes of the vectors first, so a leaf is never
equal to a compound pattern.  `CompressionPattern::operator==` looks at the child of the pattern on
the right only when the one on the left has a child: a leaf on the left is compared with the `sym`
of whatever is on the right, and a compound pattern read from a file has `sym` 0.

- `beq_toCompressionPattern_iff`: the analyser's equality is `FillsZeros`;
- `readCfcText_beq_iff`: where it agrees with the tracer's equality and is symmetric.
-/

namespace CamAlias

/-! ## The analyser's equality -/

namespace CompressionPattern

/-- The field `sym`, which a compound pattern has too. -/
def sym : CompressionPattern → CSymbol
  | .leaf s => s
  | .node s _ _ => s

mutual

/-- `CompressionPattern::operator==`, and `CompressionPatternChild::operator==` on the children. -/
def beq : CompressionPattern → CompressionPattern → Bool
  | .node _ ps m, .node _ qs n => ps.length == qs.length && m == n && beqAll ps qs
  | .node _ _ _, .leaf _ => false
  | .leaf s, other => s == other.sym

/-- The loop over both vectors. -/
def beqAll : List CompressionPattern → List CompressionPattern → Bool
  | [], _ => true
  | p :: ps, q :: qs => beq p q && beqAll ps qs
  | _ :: _, [] => false

end

end CompressionPattern

namespace TracerCompressionPattern

/-! ## Filling leaves of symbol 0 -/

mutual

/-- The second pattern is the first one with some leaves of symbol 0 replaced by compound
patterns. -/
inductive FillsZeros : TracerCompressionPattern → TracerCompressionPattern → Prop
  | sym (s : TracerSymbol) : FillsZeros (.sym s) (.sym s)
  | fill (qs : List TracerCompressionPattern) (n : Nat) : FillsZeros (.sym 0) (.rep qs n)
  | rep {ps qs : List TracerCompressionPattern} (n : Nat) :
      FillsZerosAll ps qs → FillsZeros (.rep ps n) (.rep qs n)

inductive FillsZerosAll : List TracerCompressionPattern → List TracerCompressionPattern → Prop
  | nil : FillsZerosAll [] []
  | cons {p q : TracerCompressionPattern} {ps qs : List TracerCompressionPattern} :
      FillsZeros p q → FillsZerosAll ps qs → FillsZerosAll (p :: ps) (q :: qs)

end

mutual

theorem FillsZeros.refl : ∀ p : TracerCompressionPattern, FillsZeros p p
  | .sym s => .sym s
  | .rep ps n => .rep n (FillsZerosAll.refl ps)

theorem FillsZerosAll.refl : ∀ ps : List TracerCompressionPattern, FillsZerosAll ps ps
  | [] => .nil
  | p :: ps => .cons (FillsZeros.refl p) (FillsZerosAll.refl ps)

end

mutual

/-- A leaf that was filled can not be filled back. -/
theorem FillsZeros.antisymm : ∀ {p q : TracerCompressionPattern},
    FillsZeros p q → FillsZeros q p → p = q
  | _, _, .sym s, _ => rfl
  | _, _, .fill qs n, h => nomatch h
  | _, _, .rep n hpq, .rep _ hqp => by rw [hpq.antisymm hqp]

theorem FillsZerosAll.antisymm : ∀ {ps qs : List TracerCompressionPattern},
    FillsZerosAll ps qs → FillsZerosAll qs ps → ps = qs
  | _, _, .nil, _ => rfl
  | _, _, .cons hp hps, .cons hq hqs => by rw [hp.antisymm hq, hps.antisymm hqs]

end

mutual

theorem beq_toCompressionPattern_iff : ∀ p q : TracerCompressionPattern,
    CompressionPattern.beq (toCompressionPattern p) (toCompressionPattern q) = true ↔
      FillsZeros p q
  | .sym s, .sym t => by
      simp only [toCompressionPattern, CompressionPattern.beq, CompressionPattern.sym, beq_iff_eq]
      constructor
      · rintro rfl
        exact .sym s
      · rintro ⟨⟩
        rfl
  | .sym s, .rep qs n => by
      -- the `sym` of the compound pattern is 0, its child is not looked at
      simp only [toCompressionPattern, CompressionPattern.beq, CompressionPattern.sym, beq_iff_eq]
      constructor
      · rintro rfl
        exact .fill qs n
      · rintro ⟨⟩
        rfl
  | .rep ps m, .sym t => by
      simp only [toCompressionPattern, CompressionPattern.beq, Bool.false_eq_true, false_iff]
      rintro ⟨⟩
  | .rep ps m, .rep qs n => by
      have hall := beqAll_toCompressionPatterns_iff ps qs
      simp only [toCompressionPattern, CompressionPattern.beq, Bool.and_eq_true, beq_iff_eq]
      constructor
      · rintro ⟨⟨hlen, rfl⟩, hbeq⟩
        exact .rep m (hall.1 ⟨hlen, hbeq⟩)
      · rintro ⟨⟩
        rename_i h
        exact ⟨⟨(hall.2 h).1, rfl⟩, (hall.2 h).2⟩

theorem beqAll_toCompressionPatterns_iff : ∀ ps qs : List TracerCompressionPattern,
    (toCompressionPatterns ps).length = (toCompressionPatterns qs).length ∧
      CompressionPattern.beqAll (toCompressionPatterns ps) (toCompressionPatterns qs) = true ↔
      FillsZerosAll ps qs
  | [], [] => by
      simp only [toCompressionPatterns, CompressionPattern.beqAll, and_self, true_iff]
      exact .nil
  | [], _ :: _ => by
      simp only [toCompressionPatterns, List.length_nil, List.length_cons]
      constructor
      · rintro ⟨hlen, -⟩
        omega
      · rintro ⟨⟩
  | _ :: _, [] => by
      simp only [toCompressionPatterns, List.length_nil, List.length_cons]
      constructor
      · rintro ⟨hlen, -⟩
        omega
      · rintro ⟨⟩
  | p :: ps, q :: qs => by
      have hhead := beq_toCompressionPattern_iff p q
      have htail := beqAll_toCompressionPatterns_iff ps qs
      simp only [toCompressionPatterns, List.length_cons, Nat.add_right_cancel_iff,
        CompressionPattern.beqAll, Bool.and_eq_true]
      constructor
      · rintro ⟨hlen, hp, hps⟩
        exact .cons (hhead.1 hp) (htail.1 ⟨hlen, hps⟩)
      · rintro ⟨⟩
        rename_i hp hps
        exact ⟨(htail.2 hps).1, hhead.2 hp, (htail.2 hps).2⟩

end

/-! ## Parsed patterns -/

/-- The pattern `q` is `p` with one or more leaves of symbol 0 replaced by compound patterns. -/
def FillsSomeZero (p q : TracerCompressionPattern) : Prop :=
  FillsZeros p q ∧ p ≠ q

/-- A printed pattern is parsed into the pattern of the same shape. -/
theorem readCfcText_print_pattern {p : TracerCompressionPattern} (h : p.Representable) :
    readCfcText p.print = .ok [toCompressionPattern p] := by
  have hread := CfcReader.readAll_tokens p [] h
  rw [CfcReader.finish] at hread
  simp only [readCfcText, (scans_print p).tokenise, CfcReader.init, hread, Except.map]

theorem agrees_iff (p q : TracerCompressionPattern) :
    (CompressionPattern.beq (toCompressionPattern p) (toCompressionPattern q) = true ↔
      beq p q = true) ↔ ¬ FillsSomeZero p q := by
  rw [beq_toCompressionPattern_iff, beq_iff, FillsSomeZero]
  constructor
  · rintro h ⟨hfills, hne⟩
    exact hne (h.1 hfills)
  · intro h
    refine ⟨fun hfills => ?_, fun heq => heq ▸ FillsZeros.refl p⟩
    by_contra hne
    exact h ⟨hfills, hne⟩

theorem symmetric_iff (p q : TracerCompressionPattern) :
    CompressionPattern.beq (toCompressionPattern p) (toCompressionPattern q)
        = CompressionPattern.beq (toCompressionPattern q) (toCompressionPattern p) ↔
      ¬ FillsSomeZero p q ∧ ¬ FillsSomeZero q p := by
  rw [Bool.eq_iff_iff, beq_toCompressionPattern_iff, beq_toCompressionPattern_iff]
  constructor
  · intro h
    refine ⟨?_, ?_⟩
    · rintro ⟨hpq, hne⟩
      exact hne (hpq.antisymm (h.1 hpq))
    · rintro ⟨hqp, hne⟩
      exact hne (hqp.antisymm (h.2 hqp))
  · rintro ⟨hpq, hqp⟩
    have hsame : ∀ {a b : TracerCompressionPattern}, ¬ FillsSomeZero a b → FillsZeros a b →
        FillsZeros b a := by
      intro a b hno hab
      have heq : a = b := by
        by_contra hne
        exact hno ⟨hab, hne⟩
      rw [heq]
      exact FillsZeros.refl b
    exact ⟨hsame hpq, hsame hqp⟩

/-- The patterns parsed from two printed patterns compare as the printed ones do, and
symmetrically, exactly when neither is the other with leaves of symbol 0 replaced. -/
theorem readCfcText_beq_iff {p q : TracerCompressionPattern} (hp : p.Representable)
    (hq : q.Representable) :
    (∃ cp cq, readCfcText p.print = .ok [cp] ∧ readCfcText q.print = .ok [cq] ∧
        (CompressionPattern.beq cp cq = true ↔ beq p q = true) ∧
        CompressionPattern.beq cp cq = CompressionPattern.beq cq cp) ↔
      ¬ FillsSomeZero p q ∧ ¬ FillsSomeZero q p := by
  rw [readCfcText_print_pattern hp, readCfcText_print_pattern hq]
  constructor
  · rintro ⟨cp, cq, hcp, hcq, -, hsymm⟩
    cases hcp
    cases hcq
    exact (symmetric_iff p q).1 hsymm
  · intro h
    exact ⟨_, _, rfl, rfl, (agrees_iff p q).2 h.1, (symmetric_iff p q).2 h⟩

theorem readCfcText_beq_nested :
    ¬ FillsSomeZero (.rep [.sym 0, .sym 1] 3) (.rep [.sym 1, .sym 0] 3) ∧
      ¬ FillsSomeZero (.rep [.sym 1, .sym 0] 3) (.rep [.sym 0, .sym 1] 3) := by
  refine (readCfcText_beq_iff ?_ ?_).1 ?_
  · simp [Representable, RepresentableAll]
  · simp [Representable, RepresentableAll]
  · exact ⟨_, _, rfl, rfl, by decide, by decide⟩

/-- The leaf 0 equals `((1),2)` for the analyser, but not the other way round. -/
theorem readCfcText_beq_asymmetric :
    ¬ ∀ p q : TracerCompressionPattern, p.Representable → q.Representable →
      ∃ cp cq, readCfcText p.print = .ok [cp] ∧ readCfcText q.print = .ok [cq] ∧
        (CompressionPattern.beq cp cq = true ↔ beq p q = true) ∧
        CompressionPattern.beq cp cq = CompressionPattern.beq cq cp := by
  intro hall
  have hp : (TracerCompressionPattern.sym 0).Representable := by simp only [Representable]
  have hq : (TracerCompressionPattern.rep [.sym 1] 2).Representable := by
    simp [Representable, RepresentableAll]
  rcases hall _ _ hp hq with ⟨cp, cq, hcp, hcq, hagree, -⟩
  rw [readCfcText_print_pattern hp] at hcp
  rw [readCfcText_print_pattern hq] at hcq
  cases hcp
  cases hcq
  exact absurd (hagree.1 (by decide)) (by decide)

end TracerCompressionPattern
end CamAlias
