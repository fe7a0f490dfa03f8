import CamAlias.Lexer.Printed
import CamAlias.Tracer.BitWords

/-!
# Sharers — sharer ranges are read back

A group of invocations, iterations or calls starts with the numbers of its sharers.  The set is
made by `markSharer` calls relative to an offset, the first of them in the constructor; it is
written by `writeRangeToCompressedFile` and read by `readRepetitionPattern`.

- `readRanges_writeRange`: the ranges read are sorted, apart from each other, and cover exactly the
  numbers that were marked.
-/

namespace CamAlias

namespace XanBitWords

/-- `markSharer` with its `assert`, of all three kinds of groups. -/
def markSharer (sharersOffset : Nat) (sharers : XanBitWords) (num : Nat) : Option XanBitWords :=
  if sharersOffset ≤ num then some (sharers.setBit (num - sharersOffset)) else none

/-- The sharers after a sequence of `markSharer` calls on `allocBitSet(8 * sizeof(size_t))`. -/
def markSharers (sharersOffset : Nat) (nums : List Nat) : Option XanBitWords :=
  nums.foldlM (markSharer sharersOffset) (new 64)

/-- The words stand for the marked numbers, and are as long as the largest of them needs. -/
structure Marks (s : XanBitWords) (sharersOffset : Nat) (nums : List Nat) (t : XanBitSet) :
    Prop where
  represents : Represents s t
  testBit_eq : ∀ k, t.bits.testBit k = true ↔ sharersOffset + k ∈ nums
  length_lt : ∀ bound, 64 < bound → (∀ n ∈ nums, n - sharersOffset + 1 < bound) → t.length < bound

theorem marks_new (sharersOffset : Nat) : Marks (new 64) sharersOffset [] XanBitSet.new where
  represents := represents_new
  testBit_eq := by simp [XanBitSet.new]
  length_lt := fun _ hbound _ => hbound

theorem Marks.markSharer {s : XanBitWords} {sharersOffset : Nat} {nums : List Nat}
    {t : XanBitSet} (h : Marks s sharersOffset nums t) {num : Nat} (hnum : sharersOffset ≤ num) :
    ∃ s' t', s.markSharer sharersOffset num = some s' ∧
      Marks s' sharersOffset (nums ++ [num]) t' := by
  refine ⟨s.setBit (num - sharersOffset), t.setBit (num - sharersOffset), if_pos hnum, ?_⟩
  refine ⟨h.represents.setBit _, ?_, ?_⟩
  · intro k
    rw [XanBitSet.testBit_setBit, Bool.or_eq_true, h.testBit_eq, decide_eq_true_eq,
      List.mem_append, List.mem_singleton]
    have hbit : num - sharersOffset = k ↔ sharersOffset + k = num := by omega
    rw [hbit]
  · intro bound hbound hnums
    have hold := h.length_lt bound hbound fun n hn => hnums n (List.mem_append_left _ hn)
    have hnew := hnums num (by simp)
    simp only [XanBitSet.setBit]
    omega

/-- Induction on the calls, from the oldest on. -/
theorem marks_markSharers {sharersOffset : Nat} {nums : List Nat}
    (h : ∀ n ∈ nums, sharersOffset ≤ n) :
    ∃ s t, markSharers sharersOffset nums = some s ∧ Marks s sharersOffset nums t := by
  have hfrom : ∀ (later earlier : List Nat) (s : XanBitWords) (t : XanBitSet),
      Marks s sharersOffset earlier t → (∀ n ∈ later, sharersOffset ≤ n) →
      ∃ s' t', later.foldlM (XanBitWords.markSharer sharersOffset) s = some s' ∧
        Marks s' sharersOffset (earlier ++ later) t' := by
    intro later
    induction later with
    | nil =>
        intro earlier s t hmarks _
        exact ⟨s, t, rfl, by simpa using hmarks⟩
    | cons num later ih =>
        intro earlier s t hmarks hlater
        rcases hmarks.markSharer (hlater num (by simp)) with ⟨s₁, t₁, hmark, hmarks₁⟩
        rcases ih (earlier ++ [num]) s₁ t₁ hmarks₁
          (fun n hn => hlater n (List.mem_cons_of_mem _ hn)) with ⟨s', t', hrest, hmarks'⟩
        refine ⟨s', t', ?_, by simpa using hmarks'⟩
        rw [List.foldlM_cons, hmark]
        exact hrest
  simpa [markSharers] using hfrom nums [] (new 64) XanBitSet.new (marks_new sharersOffset) h

end XanBitWords

/-- The ranges that `readRepetitionPattern` adds for a text, up to its closing brace. -/
def readRanges (text : List Char) : List (Nat × Nat) :=
  (RepPatReader.readAll { reppatState := 0, invocNum := 0 } (tokenise text)).2

/-- Written ranges are read as they were written. -/
theorem readRanges_print {rs : List (Nat × Nat)} (h : ∀ r ∈ rs, r.1 ≤ r.2 ∧ r.2 < 2 ^ 64) :
    readRanges ('{' :: printRangeList rs) = rs := by
  have hopen : Scans ['{'] [] := Scans.char (by decide)
  have hscan : Scans ('{' :: printRangeList rs) (rangesTokens rs ++ [.closebrace]) := by
    simpa only [List.nil_append, List.singleton_append] using
      hopen.append (scans_printRangeList rs)
  rcases RepPatReader.readAll_rangesTokens rs h { reppatState := 0, invocNum := 0 } rfl with
    ⟨r', hread, -⟩
  rw [readRanges, hscan.tokenise, hread]

/-- For every sequence of `markSharer` calls below `2 ^ 31` bits, the written text is read as
sorted ranges that neither overlap nor touch and cover exactly the marked numbers. -/
theorem readRanges_writeRange {sharersOffset : Nat} {nums : List Nat}
    (hnums : ∀ n ∈ nums, sharersOffset ≤ n ∧ n < 2 ^ 64)
    (hbits : ∀ n ∈ nums, n - sharersOffset + 1 < 2 ^ 31) :
    ∃ sharers text, XanBitWords.markSharers sharersOffset nums = some sharers ∧
      sharers.writeRange sharersOffset = some text ∧
      (∀ r ∈ readRanges text, r.1 ≤ r.2) ∧
      (readRanges text).Pairwise (fun r r' => r.2 + 1 < r'.1) ∧
      ∀ k, (∃ r ∈ readRanges text, r.1 ≤ k ∧ k ≤ r.2) ↔ k ∈ nums := by
  rcases XanBitWords.marks_markSharers fun n hn => (hnums n hn).1 with ⟨s, t, hs, hmarks⟩
  have hmember : ∀ k, k ∈ t.members ↔ sharersOffset + k ∈ nums := fun k => by
    rw [XanBitSet.mem_members, hmarks.testBit_eq]
  have hlength : t.length < 2 ^ 31 := hmarks.length_lt (2 ^ 31) (by decide) hbits
  have hfits : ∀ k ∈ t.members, sharersOffset + k < 2 ^ 64 := fun k hk =>
    (hnums _ ((hmember k).1 hk)).2
  rcases XanBitSet.writtenRanges_eq_some hlength hfits with
    ⟨rs, hrs, hasc, hgap, hbound, hnumbers⟩
  have htext : s.writeRange sharersOffset = some ('{' :: printRangeList rs) := by
    rw [hmarks.represents.writeRange, writeRange, hrs]
    rfl
  have hread : readRanges ('{' :: printRangeList rs) = rs :=
    readRanges_print fun r hr => ⟨hasc.le hr, hbound r hr⟩
  refine ⟨s, _, hs, htext, ?_, ?_, ?_⟩
  · rw [hread]
    exact fun r hr => hasc.le hr
  · rw [hread]
    exact hgap
  · intro k
    rw [hread, ← Lib.mem_numbers, hnumbers, List.mem_map]
    constructor
    · rintro ⟨j, hj, rfl⟩
      exact (hmember j).1 hj
    · intro hk
      have hle := (hnums k hk).1
      have hsum : sharersOffset + (k - sharersOffset) = k := by omega
      refine ⟨k - sharersOffset, (hmember _).2 ?_, hsum⟩
      rw [hsum]
      exact hk

theorem readRanges_writeRange_words :
    ∃ sharers text, XanBitWords.markSharers 5 [5, 6, 7, 70, 300, 299] = some sharers ∧
      sharers.writeRange 5 = some text ∧
      (∀ r ∈ readRanges text, r.1 ≤ r.2) ∧
      (readRanges text).Pairwise (fun r r' => r.2 + 1 < r'.1) ∧
      ∀ k, (∃ r ∈ readRanges text, r.1 ≤ k ∧ k ≤ r.2) ↔ k ∈ [5, 6, 7, 70, 300, 299] :=
  readRanges_writeRange (by decide) (by decide)

end CamAlias
