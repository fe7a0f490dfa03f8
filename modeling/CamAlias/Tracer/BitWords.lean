import CamAlias.Lib.BlockSearch
import CamAlias.Tracer.Write

/-!
# BitWords — the words of a bit set

`XanBitSet` as it is in memory: a length in bits and an array of words, allocated with room to
grow.  Setting a bit behind the end uses that room or copies the words to a larger array; both
searches skip whole words.

- `Represents`: the words hold the bits of an `XanBitSet`, and none behind its length;
- `Represents.setBit`, `Represents.getFirstBitSetInRange`, `Represents.getFirstBitUnsetInRange`:
  the operations agree;
- `Represents.writeRange`: so the text written for the sharers is the same.
-/

namespace CamAlias

/-- `struct XanBitSet`; `capacity` is the length of `data`. -/
structure XanBitWords where
  length : Nat
  data : List (BitVec 64)

namespace XanBitWords

/-- `WORDS_NECESSARY`. -/
def wordsNecessary (length : Nat) : Nat :=
  (length + 63) / 64

/-- `CAPACITY_NECESSARY`. -/
def capacityNecessary (length : Nat) : Nat :=
  wordsNecessary (length + length / 2)

/-- `WHOLE_WORD`.  No word behind the array is read. -/
def wholeWord (s : XanBitWords) (word : Nat) : BitVec 64 :=
  s.data.getD word 0

/-- `MASK`. -/
def mask (pos : Nat) : BitVec 64 :=
  BitVec.twoPow 64 (pos % 64)

/-- `xanBitSet_new`. -/
def new (length : Nat) : XanBitWords :=
  { length, data := List.replicate (capacityNecessary length) 0 }

/-- `_xanBitSet_expand`; the new array comes from `calloc`. -/
def expand (s : XanBitWords) (length : Nat) : XanBitWords :=
  let oldWords := wordsNecessary s.length
  if wordsNecessary length ≤ s.data.length then { s with length }
  else
    { length
      data := s.data.take oldWords ++
        List.replicate (capacityNecessary length - oldWords) 0 }

/-- `xanBitSet_setBit`. -/
def setBit (s : XanBitWords) (pos : Nat) : XanBitWords :=
  let s' := if s.length ≤ pos then s.expand (pos + 1) else s
  { s' with data := s'.data.modify (pos / 64) (· ||| mask pos) }

/-- `is_bit_set`. -/
def isBitSet (s : XanBitWords) (pos : Nat) : Bool :=
  s.wholeWord (pos / 64) &&& mask pos != 0

/-- `xanBitSet_getFirstBitSetInRange`: words that are 0 are skipped. -/
def getFirstBitSetInRange (s : XanBitWords) (start «end» : Nat) : Int :=
  match Lib.firstInBlocks s.isBitSet (fun word => s.wholeWord word == 0) 64 start
      (min «end» (s.length - 1)) with
  | some pos => toInt32 pos
  | none => -1

/-- `xanBitSet_getFirstBitUnsetInRange`: words without a 0 are skipped. -/
def getFirstBitUnsetInRange (s : XanBitWords) (start «end» : Nat) : Int :=
  match Lib.firstInBlocks (fun pos => !s.isBitSet pos) (fun word => s.wholeWord word == ~~~0) 64
      start (min «end» (s.length - 1)) with
  | some pos => toInt32 pos
  | none => if s.length ≤ «end» then toInt32 s.length else -1

/-- The loop of `writeRangeToCompressedFile` over the words; see `XanBitSet.sharerRanges`. -/
def sharerRanges (sharers : XanBitWords) : Nat → Int → Option (List (Int × Int))
  | 0, _ => none
  | fuel + 1, startInv =>
      let numSharers := sharers.length
      let startInv := sharers.getFirstBitSetInRange (toSize (startInv + 1)) numSharers
      if startInv = -1 then some []
      else
        let endInv := sharers.getFirstBitUnsetInRange (toSize startInv) numSharers
        let endInv := if endInv = -1 then (numSharers : Int) - 1 else endInv - 1
        if endInv < startInv then none
        else (sharerRanges sharers fuel (endInv + 1)).map ((startInv, endInv) :: ·)

/-- `writeRangeToCompressedFile`. -/
def writeRange (sharers : XanBitWords) (sharersOffset : Nat) : Option (List Char) :=
  (sharers.sharerRanges (sharers.length + 1) (-1)).map fun rs =>
    '{' :: printRangeList
      (rs.map fun r => (toSize (sharersOffset + r.1), toSize (sharersOffset + r.2)))

/-! ## Bits -/

theorem isBitSet_eq (s : XanBitWords) (pos : Nat) :
    s.isBitSet pos = (s.wholeWord (pos / 64)).getLsbD (pos % 64) := by
  have hmod : pos % 64 < 64 := Nat.mod_lt _ (by decide)
  have hmask : BitVec.twoPow 64 (pos % 64) ≠ 0 := by
    intro h
    have hbit := congrArg (fun x : BitVec 64 => x.getLsbD (pos % 64)) h
    simp [hmod] at hbit
  rw [isBitSet, mask, BitVec.and_twoPow]
  cases h : (s.wholeWord (pos / 64)).getLsbD (pos % 64) with
  | true => simpa [h] using hmask
  | false => simp

/-- A bit of another array that has the same words. -/
theorem isBitSet_of_getElem? {s t : XanBitWords} {pos : Nat}
    (h : s.data[pos / 64]?.getD 0 = t.data[pos / 64]?.getD 0) : s.isBitSet pos = t.isBitSet pos := by
  simp only [isBitSet_eq, wholeWord, List.getD_eq_getElem?_getD, h]

/-- The words hold exactly the bits of `t`. -/
structure Represents (s : XanBitWords) (t : XanBitSet) : Prop where
  length_eq : s.length = t.length
  allocated : wordsNecessary s.length ≤ s.data.length
  isBitSet_eq : ∀ pos, s.isBitSet pos = t.bits.testBit pos

theorem represents_new : Represents (new 64) XanBitSet.new where
  length_eq := rfl
  allocated := by decide
  isBitSet_eq := by
    intro pos
    have hword : (new 64).wholeWord (pos / 64) = 0 := by
      rw [wholeWord, new, List.getD_eq_getElem?_getD, List.getElem?_replicate]
      split <;> rfl
    rw [XanBitWords.isBitSet_eq, hword]
    simp [XanBitSet.new]

/-- Growing changes no bit: the words that are left out hold none. -/
theorem isBitSet_expand {s : XanBitWords} (hallocated : wordsNecessary s.length ≤ s.data.length)
    (hbehind : ∀ pos, s.length ≤ pos → s.isBitSet pos = false) (length pos : Nat) :
    (s.expand length).isBitSet pos = s.isBitSet pos := by
  simp only [expand]
  split
  · exact isBitSet_of_getElem? rfl
  · by_cases hold : pos / 64 < wordsNecessary s.length
    · refine isBitSet_of_getElem? ?_
      rw [List.getElem?_append_left (by rw [List.length_take]; omega),
        List.getElem?_take_of_lt hold]
    · -- behind the old words both are 0
      have hunset : s.isBitSet pos = false := by
        refine hbehind pos ?_
        simp only [wordsNecessary] at hold
        omega
      rw [hunset, XanBitWords.isBitSet_eq, wholeWord, List.getD_eq_getElem?_getD,
        List.getElem?_append_right (by rw [List.length_take]; omega), List.getElem?_replicate]
      split <;> simp

@[simp] theorem length_expand (s : XanBitWords) (length : Nat) :
    (s.expand length).length = length := by
  simp only [expand]
  split <;> rfl

theorem allocated_expand {s : XanBitWords} (hallocated : wordsNecessary s.length ≤ s.data.length)
    {length : Nat} (hlength : s.length < length) :
    wordsNecessary length ≤ (s.expand length).data.length := by
  simp only [expand]
  split
  · assumption
  · simp only [List.length_append, List.length_take, List.length_replicate, capacityNecessary,
      wordsNecessary] at hallocated ⊢
    omega

theorem Represents.unset {s : XanBitWords} {t : XanBitSet} (h : Represents s t) (pos : Nat)
    (hpos : s.length ≤ pos) : s.isBitSet pos = false := by
  rw [h.isBitSet_eq]
  by_contra hbit
  have hlt := XanBitSet.lt_length_of_testBit (by simpa using hbit)
  have hlen := h.length_eq
  omega

theorem isBitSet_modify {s : XanBitWords} {pos : Nat} (hpos : pos / 64 < s.data.length)
    (k : Nat) :
    ({ s with data := s.data.modify (pos / 64) (· ||| mask pos) } : XanBitWords).isBitSet k
      = (s.isBitSet k || decide (pos = k)) := by
  simp only [isBitSet_eq, wholeWord, List.getD_eq_getElem?_getD]
  by_cases hword : pos / 64 = k / 64
  · rw [← hword, List.getElem?_modify_eq, List.getElem?_eq_getElem hpos]
    have hmod : pos % 64 < 64 := Nat.mod_lt _ (by decide)
    have hsame : pos % 64 = k % 64 ↔ pos = k := by omega
    simp [mask, BitVec.getLsbD_or, BitVec.getLsbD_twoPow, hsame, hmod]
  · rw [List.getElem?_modify_ne _ _ hword]
    have hne : pos ≠ k := by
      rintro rfl
      exact hword rfl
    simp [hne]

/-- Setting a bit, with or without growing. -/
theorem Represents.setBit {s : XanBitWords} {t : XanBitSet} (h : Represents s t) (pos : Nat) :
    Represents (s.setBit pos) (t.setBit pos) := by
  let s' := if s.length ≤ pos then s.expand (pos + 1) else s
  have hlength : s'.length = max t.length (pos + 1) := by
    have := h.length_eq
    simp only [s']
    split
    · simp only [expand]
      split <;> simp only <;> omega
    · omega
  have hallocated : wordsNecessary s'.length ≤ s'.data.length := by
    by_cases hgrow : s.length ≤ pos
    · have hs' : s' = s.expand (pos + 1) := if_pos hgrow
      have hlen : s'.length = pos + 1 := by
        have := h.length_eq
        omega
      rw [hlen, hs']
      exact allocated_expand h.allocated (by omega)
    · have hs' : s' = s := if_neg hgrow
      rw [hs']
      exact h.allocated
  have hbits : ∀ k, s'.isBitSet k = t.bits.testBit k := by
    intro k
    rw [← h.isBitSet_eq]
    by_cases hgrow : s.length ≤ pos
    · have hs' : s' = s.expand (pos + 1) := if_pos hgrow
      rw [hs', isBitSet_expand h.allocated h.unset]
    · have hs' : s' = s := if_neg hgrow
      rw [hs']
  have hpos : pos / 64 < s'.data.length := by
    simp only [wordsNecessary] at hallocated
    omega
  refine ⟨hlength, ?_, ?_⟩
  · show wordsNecessary s'.length ≤ (s'.data.modify (pos / 64) (· ||| mask pos)).length
    rw [List.length_modify]
    exact hallocated
  · intro k
    rw [XanBitSet.testBit_setBit, ← hbits]
    exact isBitSet_modify hpos k

/-! ## The searches -/

theorem Represents.getFirstBitSetInRange {s : XanBitWords} {t : XanBitSet} (h : Represents s t)
    (start «end» : Nat) :
    s.getFirstBitSetInRange start «end» = t.getFirstBitSetInRange start «end» := by
  have hskip : ∀ word, (s.wholeWord word == 0) = true → ∀ k, k / 64 = word →
      s.isBitSet k = false := by
    intro word hword k hk
    rw [XanBitWords.isBitSet_eq, hk, beq_iff_eq.1 hword]
    exact BitVec.getLsbD_zero
  have hbits : s.isBitSet = t.bits.testBit := funext h.isBitSet_eq
  rw [XanBitWords.getFirstBitSetInRange, XanBitSet.getFirstBitSetInRange,
    Lib.firstInBlocks_eq (by decide) hskip, hbits, h.length_eq]
  rfl

theorem Represents.getFirstBitUnsetInRange {s : XanBitWords} {t : XanBitSet}
    (h : Represents s t) (start «end» : Nat) :
    s.getFirstBitUnsetInRange start «end» = t.getFirstBitUnsetInRange start «end» := by
  have hskip : ∀ word, (s.wholeWord word == ~~~0) = true → ∀ k, k / 64 = word →
      (!s.isBitSet k) = false := by
    intro word hword k hk
    have hmod : k % 64 < 64 := Nat.mod_lt _ (by decide)
    rw [XanBitWords.isBitSet_eq, hk, beq_iff_eq.1 hword, BitVec.getLsbD_not]
    simp [hmod]
  have hbits : s.isBitSet = t.bits.testBit := funext h.isBitSet_eq
  rw [XanBitWords.getFirstBitUnsetInRange, XanBitSet.getFirstBitUnsetInRange,
    Lib.firstInBlocks_eq (by decide) hskip, hbits, h.length_eq]
  rfl

/-! ## The text -/

theorem Represents.sharerRanges {s : XanBitWords} {t : XanBitSet} (h : Represents s t)
    (fuel : Nat) (startInv : Int) : s.sharerRanges fuel startInv = t.sharerRanges fuel startInv := by
  induction fuel generalizing startInv with
  | zero => rfl
  | succ fuel ih =>
      simp only [XanBitWords.sharerRanges, XanBitSet.sharerRanges, h.getFirstBitSetInRange,
        h.getFirstBitUnsetInRange, h.length_eq, ih]

theorem Represents.writeRange {s : XanBitWords} {t : XanBitSet} (h : Represents s t)
    (sharersOffset : Nat) : s.writeRange sharersOffset = CamAlias.writeRange t sharersOffset := by
  rw [XanBitWords.writeRange, CamAlias.writeRange, XanBitSet.writtenRanges, h.sharerRanges,
    h.length_eq, Option.map_map]
  rfl

end XanBitWords
end CamAlias
