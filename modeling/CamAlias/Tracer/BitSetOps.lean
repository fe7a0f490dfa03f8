import CamAlias.Lib.BoundedSet
import CamAlias.Tracer.BitWords

/-!
# BitSetOps — the operations on whole words

All of `XanBitSet` that computes with its words.  The loops run over the words that the length needs
(`WORDS_NECESSARY`); the last of them may reach behind the length, and words behind it are allocated
but unused.

- `Holds`: the words hold the members of a `BoundedSet`, and no other bit;
- one lemma an operation, `Holds.setBit` to `Holds.copy`: it keeps `Holds`;
- `Holds.equal_iff`, `Holds.areEqual_iff`, `Holds.isEmpty_iff`: the comparisons;
- `Holds.getCountOfBitsSet_eq_iff`: when all bits are set.

`setAll` and `invertBits` keep it only where the length ends at the end of a word.
-/

namespace CamAlias

open Lib

namespace XanBitWords

/-! ## The operations -/

/-- A loop over the words from `lo` on and before `hi`. -/
def mapWords (s : XanBitWords) (lo hi : Nat) (f : Nat → BitVec 64 → BitVec 64) : XanBitWords :=
  { s with data := s.data.mapIdx fun i w => if lo ≤ i ∧ i < hi then f i w else w }

/-- The expansion in front of `xanBitSet_union` and `xanBitSet_copy`. -/
def grow (s : XanBitWords) (length : Nat) : XanBitWords :=
  if s.length < length then s.expand length else s

/-- `xanBitSet_intersect`. -/
def intersect (dest src : XanBitWords) : XanBitWords :=
  let srcWords := wordsNecessary src.length
  let destWords := wordsNecessary dest.length
  let words := min srcWords destWords
  (dest.mapWords 0 words fun i w => w &&& src.wholeWord i).mapWords words destWords fun _ _ => 0

/-- `xanBitSet_union`. -/
def union (dest src : XanBitWords) : XanBitWords :=
  (dest.grow src.length).mapWords 0 (wordsNecessary src.length) fun i w => w ||| src.wholeWord i

/-- `xanBitSet_clone`. -/
def clone (src : XanBitWords) : XanBitWords :=
  (new src.length).mapWords 0 (wordsNecessary src.length) fun i _ => src.wholeWord i

/-- `xanBitSet_copy`. -/
def copy (dest src : XanBitWords) : XanBitWords :=
  let dest := (dest.grow src.length).mapWords 0 (wordsNecessary src.length)
    fun i _ => src.wholeWord i
  if src.length < dest.length then
    dest.mapWords (wordsNecessary src.length) (wordsNecessary dest.length) fun _ _ => 0
  else dest

/-- `xanBitSet_clearAll`. -/
def clearAll (s : XanBitWords) : XanBitWords :=
  s.mapWords 0 (wordsNecessary s.length) fun _ _ => 0

/-- `xanBitSet_setAll`. -/
def setAll (s : XanBitWords) : XanBitWords :=
  s.mapWords 0 (wordsNecessary s.length) fun _ _ => BitVec.allOnes 64

/-- `xanBitSet_invertBits`. -/
def invertBits (s : XanBitWords) : XanBitWords :=
  s.mapWords 0 (wordsNecessary s.length) fun _ w => ~~~w

/-- `xanBitSet_subtract`. -/
def subtract (fromThis subtractThis : XanBitWords) : XanBitWords :=
  let words := min (wordsNecessary subtractThis.length) (wordsNecessary fromThis.length)
  fromThis.mapWords 0 words fun i w => w &&& ~~~subtractThis.wholeWord i

/-- `xanBitSet_clearBit`. -/
def clearBit (s : XanBitWords) (pos : Nat) : XanBitWords :=
  if pos < s.length then { s with data := s.data.modify (pos / 64) (· &&& ~~~mask pos) } else s

/-- `WHOLE_WORD(set, pos) |= MASK(pos)`. -/
def orMask (s : XanBitWords) (pos : Nat) : XanBitWords :=
  { s with data := s.data.modify (pos / 64) (· ||| mask pos) }

/-- `xanBitSet_setBits`. -/
def setBits (s : XanBitWords) (start last : Nat) : XanBitWords :=
  let s := if s.length ≤ last then s.expand (last + 1) else s
  (List.range' start (last + 1 - start)).foldl orMask s

/-- `xanBitSet_isBitSet`: behind the length no bit is set. -/
def isBitSetInside (s : XanBitWords) (pos : Nat) : Bool :=
  if pos < s.length then s.isBitSet pos else false

/-- `memcmp` of the first `words` words. -/
def sameWords (a b : XanBitWords) (words : Nat) : Bool :=
  (List.range words).all fun i => a.wholeWord i == b.wholeWord i

/-- The words from `lo` on and before `hi` are 0. -/
def zeroWords (s : XanBitWords) (lo hi : Nat) : Bool :=
  (List.range' lo (hi - lo)).all fun i => s.wholeWord i == 0

/-- `xanBitSet_equal`. -/
def equal (bs1 bs2 : XanBitWords) : Bool :=
  if bs1.length = bs2.length then sameWords bs1 bs2 (wordsNecessary bs1.length)
  else
    let shorter := if bs1.length < bs2.length then bs1 else bs2
    let longer := if bs1.length < bs2.length then bs2 else bs1
    sameWords shorter longer (wordsNecessary shorter.length) &&
      longer.zeroWords (wordsNecessary shorter.length) (wordsNecessary longer.length)

/-- `xanBitSet_areEqual`. -/
def areEqual (setA setB : XanBitWords) : Bool :=
  let wordsA := wordsNecessary setA.length
  let wordsB := wordsNecessary setB.length
  let words := min wordsA wordsB
  sameWords setA setB words &&
    (if wordsB < wordsA then setA.zeroWords words wordsA
      else if wordsA < wordsB then setB.zeroWords words wordsB else true)

/-- `xanBitSet_isEmpty`. -/
def isEmpty (s : XanBitWords) : Bool :=
  s.zeroWords 0 (wordsNecessary s.length)

/-- `xanBitSet_getCountOfBitsSet`, where a `size_t` has 64 bits: the bits are counted one by one. -/
def getCountOfBitsSet (s : XanBitWords) : Int :=
  toInt32 ((List.range s.length).countP s.isBitSet)

/-! ## Bits of the words -/

@[simp] theorem length_mapWords (s : XanBitWords) (lo hi : Nat)
    (f : Nat → BitVec 64 → BitVec 64) : (s.mapWords lo hi f).length = s.length := rfl

@[simp] theorem length_data_mapWords (s : XanBitWords) (lo hi : Nat)
    (f : Nat → BitVec 64 → BitVec 64) :
    (s.mapWords lo hi f).data.length = s.data.length := by
  simp [mapWords]

theorem wholeWord_mapWords (s : XanBitWords) {lo hi i : Nat} (f : Nat → BitVec 64 → BitVec 64)
    (hi' : hi ≤ s.data.length) :
    (s.mapWords lo hi f).wholeWord i
      = if lo ≤ i ∧ i < hi then f i (s.wholeWord i) else s.wholeWord i := by
  simp only [wholeWord, mapWords, List.getD_eq_getElem?_getD, List.getElem?_mapIdx]
  rcases Nat.lt_or_ge i s.data.length with hlt | hge
  · rw [List.getElem?_eq_getElem hlt]
    simp
  · have hout : ¬ (lo ≤ i ∧ i < hi) := by omega
    rw [List.getElem?_eq_none_iff.2 hge, if_neg hout]
    rfl

theorem isBitSet_mapWords (s : XanBitWords) {lo hi : Nat} (f : Nat → BitVec 64 → BitVec 64)
    (hi' : hi ≤ s.data.length) (pos : Nat) :
    (s.mapWords lo hi f).isBitSet pos
      = if lo ≤ pos / 64 ∧ pos / 64 < hi then
          (f (pos / 64) (s.wholeWord (pos / 64))).getLsbD (pos % 64)
        else s.isBitSet pos := by
  rw [isBitSet_eq, wholeWord_mapWords s f hi', isBitSet_eq]
  split <;> rfl

/-- Equal words are words with equal bits. -/
theorem wholeWord_eq_iff {a b : XanBitWords} {i : Nat} :
    a.wholeWord i = b.wholeWord i ↔ ∀ pos, pos / 64 = i → a.isBitSet pos = b.isBitSet pos := by
  constructor
  · rintro heq pos rfl
    rw [isBitSet_eq, isBitSet_eq, heq]
  · intro hbits
    refine BitVec.eq_of_getLsbD_eq ?_
    intro k hk
    have hpos := hbits (64 * i + k) (by omega)
    rw [isBitSet_eq, isBitSet_eq] at hpos
    have hword : (64 * i + k) / 64 = i := by omega
    have hbit : (64 * i + k) % 64 = k := by omega
    rwa [hword, hbit] at hpos

theorem wholeWord_eq_zero_iff {s : XanBitWords} {i : Nat} :
    s.wholeWord i = 0 ↔ ∀ pos, pos / 64 = i → s.isBitSet pos = false := by
  have hzero : (⟨0, []⟩ : XanBitWords).wholeWord i = 0 := by simp [wholeWord]
  rw [← hzero, wholeWord_eq_iff]
  simp only [isBitSet_eq _ , wholeWord, List.getD_eq_getElem?_getD, List.getElem?_nil,
    Option.getD_none, BitVec.getLsbD_zero, BitVec.ofNat_eq_ofNat]

theorem sameWords_iff {a b : XanBitWords} {words : Nat} :
    sameWords a b words = true ↔ ∀ pos, pos / 64 < words → a.isBitSet pos = b.isBitSet pos := by
  simp only [sameWords, List.all_eq_true, List.mem_range, beq_iff_eq, wholeWord_eq_iff]
  constructor
  · exact fun h pos hpos => h _ hpos pos rfl
  · rintro h i hi pos rfl
    exact h pos hi

theorem zeroWords_iff {s : XanBitWords} {lo hi : Nat} :
    s.zeroWords lo hi = true
      ↔ ∀ pos, lo ≤ pos / 64 → pos / 64 < hi → s.isBitSet pos = false := by
  simp only [zeroWords, List.all_eq_true, List.mem_range'_1, beq_iff_eq, wholeWord_eq_zero_iff]
  constructor
  · exact fun h pos hlo hhi => h _ ⟨hlo, by omega⟩ pos rfl
  · rintro h i ⟨hlo, hhi⟩ pos rfl
    exact h pos hlo (by omega)

/-! ## What the words hold -/

/-- The words hold the members, and no other bit. -/
structure Holds (s : XanBitWords) (t : BoundedSet) : Prop where
  length_eq : s.length = t.length
  allocated : wordsNecessary s.length ≤ s.data.length
  mem_iff : ∀ pos, s.isBitSet pos = true ↔ pos ∈ t.members

variable {s s' : XanBitWords} {t t' : BoundedSet}

/-- Behind the words that the length needs no bit is set. -/
theorem Holds.unset (h : Holds s t) {pos : Nat} (hpos : s.length ≤ pos) :
    s.isBitSet pos = false := by
  by_contra hset
  have hmem := (h.mem_iff pos).1 (by simpa using hset)
  have hlt := t.lt_length pos hmem
  have hlen := h.length_eq
  omega

theorem isBitSet_new (length pos : Nat) : (new length).isBitSet pos = false := by
  rw [isBitSet_eq, wholeWord, new, List.getD_eq_getElem?_getD, List.getElem?_replicate]
  split <;> simp

theorem holds_new (length : Nat) : Holds (new length) (BoundedSet.new length) where
  length_eq := rfl
  allocated := by
    simp only [new, List.length_replicate, capacityNecessary, wordsNecessary]
    omega
  mem_iff := by simp [isBitSet_new, BoundedSet.new]

theorem Holds.expand (h : Holds s t) {length : Nat} (hlength : s.length < length) :
    Holds (s.expand length) (t.grow length) where
  length_eq := by
    have hlen := h.length_eq
    simp only [length_expand, BoundedSet.grow]
    omega
  allocated := by
    rw [length_expand]
    exact allocated_expand h.allocated hlength
  mem_iff := by
    intro pos
    rw [isBitSet_expand h.allocated (fun pos hpos => h.unset hpos), h.mem_iff]
    rfl

theorem lt_wordsNecessary {length pos : Nat} (h : pos < length) :
    pos / 64 < wordsNecessary length := by
  simp only [wordsNecessary]
  omega

theorem Holds.word_lt (h : Holds s t) {pos : Nat} (hpos : pos ∈ t.members) :
    pos / 64 < wordsNecessary s.length := by
  refine lt_wordsNecessary ?_
  rw [h.length_eq]
  exact t.lt_length pos hpos

theorem Holds.grow (h : Holds s t) (length : Nat) : Holds (s.grow length) (t.grow length) := by
  rcases Nat.lt_or_ge s.length length with hlt | hge
  · rw [XanBitWords.grow, if_pos hlt]
    exact h.expand hlt
  · rw [XanBitWords.grow, if_neg (Nat.not_lt.2 hge)]
    refine ⟨?_, h.allocated, h.mem_iff⟩
    have hlen := h.length_eq
    simp only [BoundedSet.grow]
    omega

/-! ## Single bits -/

theorem Holds.pos_lt (h : Holds s t) {pos : Nat} (hpos : pos < s.length) :
    pos / 64 < s.data.length :=
  Nat.lt_of_lt_of_le (lt_wordsNecessary hpos) h.allocated

/-- Setting bits inside the length. -/
theorem isBitSet_foldl_orMask {poss : List Nat} (hposs : ∀ pos ∈ poss, pos / 64 < s.data.length) :
    (poss.foldl orMask s).length = s.length ∧
      (poss.foldl orMask s).data.length = s.data.length ∧
        ∀ k, (poss.foldl orMask s).isBitSet k = true ↔ s.isBitSet k = true ∨ k ∈ poss := by
  induction poss generalizing s with
  | nil => simp
  | cons pos poss ih =>
      have hdata : (s.orMask pos).data.length = s.data.length := by simp [orMask]
      have hbit : ∀ k, (s.orMask pos).isBitSet k = (s.isBitSet k || decide (pos = k)) :=
        isBitSet_modify (hposs pos List.mem_cons_self)
      have hrest := ih (s := s.orMask pos) fun pos' hpos' => by
        rw [hdata]
        exact hposs pos' (List.mem_cons_of_mem _ hpos')
      rw [List.foldl_cons]
      refine ⟨hrest.1, hrest.2.1.trans hdata, fun k => ?_⟩
      rw [hrest.2.2 k, hbit, Bool.or_eq_true, decide_eq_true_eq, List.mem_cons, or_assoc,
        eq_comm (a := pos)]

theorem Holds.setBits (h : Holds s t) (start last : Nat) :
    Holds (s.setBits start last) (t.setBits start last) := by
  have hgrow : (if s.length ≤ last then s.expand (last + 1) else s) = s.grow (last + 1) := by
    simp only [XanBitWords.grow, Nat.lt_succ_iff]
  have hgrown := h.grow (last + 1)
  have hlast : last < (s.grow (last + 1)).length := by
    rw [hgrown.length_eq]
    exact Nat.lt_of_lt_of_le (Nat.lt_succ_self _) (Nat.le_max_right _ _)
  have hposs : ∀ pos ∈ List.range' start (last + 1 - start),
      pos / 64 < (s.grow (last + 1)).data.length := by
    intro pos hpos
    rw [List.mem_range'_1] at hpos
    exact hgrown.pos_lt (by omega)
  rcases isBitSet_foldl_orMask hposs with ⟨hlength, hdata, hbits⟩
  rw [XanBitWords.setBits, hgrow]
  refine ⟨hlength.trans hgrown.length_eq, ?_, fun pos => ?_⟩
  · rw [hlength, hdata]
    exact hgrown.allocated
  · rw [hbits, hgrown.mem_iff, List.mem_range'_1]
    exact or_congr Iff.rfl (by omega)

theorem Holds.setBit (h : Holds s t) (pos : Nat) : Holds (s.setBit pos) (t.setBit pos) := by
  have hsingle := h.setBits pos pos
  have hwords : s.setBits pos pos = s.setBit pos := by
    simp [XanBitWords.setBits, XanBitWords.setBit, orMask]
  have hset : t.setBits pos pos = t.setBit pos := by
    ext k
    · rfl
    · exact or_congr Iff.rfl (by omega)
  rwa [hwords, hset] at hsingle

theorem isBitSet_clearMask {pos : Nat} (hpos : pos / 64 < s.data.length) (k : Nat) :
    ({ s with data := s.data.modify (pos / 64) (· &&& ~~~mask pos) } : XanBitWords).isBitSet k
      = (s.isBitSet k && !decide (pos = k)) := by
  have hmod : k % 64 < 64 := Nat.mod_lt _ (by decide)
  simp only [isBitSet_eq, wholeWord, List.getD_eq_getElem?_getD]
  by_cases hword : pos / 64 = k / 64
  · rw [← hword, List.getElem?_modify_eq, List.getElem?_eq_getElem hpos]
    have hsame : k % 64 = pos % 64 ↔ pos = k := by omega
    simp [mask, hsame, hmod]
  · rw [List.getElem?_modify_ne _ _ hword]
    have hne : pos ≠ k := by
      rintro rfl
      exact hword rfl
    simp [hne]

theorem Holds.clearBit (h : Holds s t) (pos : Nat) : Holds (s.clearBit pos) (t.clearBit pos) := by
  rw [XanBitWords.clearBit]
  split
  · rename_i hpos
    refine ⟨h.length_eq, by simpa using h.allocated, fun k => ?_⟩
    rw [isBitSet_clearMask (h.pos_lt hpos), Bool.and_eq_true, h.mem_iff, Bool.not_eq_true',
      decide_eq_false_iff_not, BoundedSet.mem_clearBit, ne_comm]
  · rename_i hpos
    refine ⟨h.length_eq, h.allocated, fun k => ?_⟩
    have hne : k ∈ t.members → k ≠ pos := by
      rintro hk rfl
      have hlt := t.lt_length k hk
      have hlen := h.length_eq
      omega
    rw [h.mem_iff, BoundedSet.mem_clearBit]
    exact ⟨fun hk => ⟨hk, hne hk⟩, fun hk => hk.1⟩

/-! ## Whole words -/

/-- What a loop over the words before `hi` leaves, bit by bit. -/
theorem Holds.mapWords (h : Holds s t) {hi : Nat} (hhi : hi ≤ wordsNecessary s.length)
    {f : Nat → BitVec 64 → BitVec 64} (hlength : t'.length = t.length)
    (hinside : ∀ pos, pos / 64 < hi →
      ((f (pos / 64) (s.wholeWord (pos / 64))).getLsbD (pos % 64) = true ↔ pos ∈ t'.members))
    (hbehind : ∀ pos, hi ≤ pos / 64 → (pos ∈ t.members ↔ pos ∈ t'.members)) :
    Holds (s.mapWords 0 hi f) t' := by
  refine ⟨h.length_eq.trans hlength.symm, by simpa using h.allocated, fun pos => ?_⟩
  rw [isBitSet_mapWords s f (Nat.le_trans hhi h.allocated)]
  by_cases hword : pos / 64 < hi
  · rw [if_pos ⟨Nat.zero_le _, hword⟩]
    exact hinside pos hword
  · rw [if_neg fun hin => hword hin.2, h.mem_iff]
    exact hbehind pos (Nat.le_of_not_lt hword)

/-- No member lies in a word behind those that the length needs. -/
theorem Holds.not_mem (h : Holds s t) {pos : Nat} (hpos : wordsNecessary s.length ≤ pos / 64) :
    pos ∉ t.members :=
  fun hmem => absurd (h.word_lt hmem) (Nat.not_lt.2 hpos)

theorem Holds.clearAll (h : Holds s t) : Holds s.clearAll t.clearAll := by
  refine h.mapWords (Nat.le_refl _) rfl ?_ ?_
  · intro pos _
    simp
  · intro pos hpos
    simp [h.not_mem hpos]

/-- The words that a length of whole words needs hold no position behind it. -/
theorem lt_wordsNecessary_iff {length pos : Nat} (h : 64 ∣ length) :
    pos / 64 < wordsNecessary length ↔ pos < length := by
  rcases h with ⟨words, rfl⟩
  simp only [wordsNecessary]
  omega

theorem Holds.setAll (h : Holds s t) (hwhole : 64 ∣ s.length) : Holds s.setAll t.setAll := by
  have hmod : ∀ pos, pos % 64 < 64 := fun pos => Nat.mod_lt _ (by decide)
  refine h.mapWords (Nat.le_refl _) rfl ?_ ?_
  · intro pos hpos
    rw [lt_wordsNecessary_iff hwhole, h.length_eq] at hpos
    rw [BitVec.getLsbD_allOnes, decide_eq_true_eq, BoundedSet.mem_setAll]
    exact iff_of_true (hmod pos) hpos
  · intro pos hpos
    have hle : ¬ pos < t.length := by
      rw [← h.length_eq, ← lt_wordsNecessary_iff hwhole]
      exact Nat.not_lt.2 hpos
    simp [h.not_mem hpos, hle]

theorem Holds.invertBits (h : Holds s t) (hwhole : 64 ∣ s.length) :
    Holds s.invertBits t.invertBits := by
  have hmod : ∀ pos, pos % 64 < 64 := fun pos => Nat.mod_lt _ (by decide)
  refine h.mapWords (Nat.le_refl _) rfl ?_ ?_
  · intro pos hpos
    rw [lt_wordsNecessary_iff hwhole, h.length_eq] at hpos
    rw [BitVec.getLsbD_not, ← isBitSet_eq, BoundedSet.mem_invertBits, ← h.mem_iff]
    simp [hmod pos, hpos]
  · intro pos hpos
    have hle : ¬ pos < t.length := by
      rw [← h.length_eq, ← lt_wordsNecessary_iff hwhole]
      exact Nat.not_lt.2 hpos
    simp [h.not_mem hpos, hle]

theorem Holds.subtract (h : Holds s t) (h' : Holds s' t') :
    Holds (s.subtract s') (t.subtract t') := by
  have hmod : ∀ pos, pos % 64 < 64 := fun pos => Nat.mod_lt _ (by decide)
  refine h.mapWords (Nat.min_le_right _ _) rfl ?_ ?_
  · intro pos _
    rw [BitVec.getLsbD_and, BitVec.getLsbD_not, ← isBitSet_eq, ← isBitSet_eq,
      BoundedSet.mem_subtract, ← h.mem_iff, ← h'.mem_iff]
    simp [hmod pos]
  · intro pos hpos
    -- behind the shorter of the two there is nothing to take away
    have hout : pos ∈ t.members → pos ∉ t'.members := by
      intro hmem hmem'
      have hword := h.word_lt hmem
      have hword' := h'.word_lt hmem'
      omega
    rw [BoundedSet.mem_subtract]
    exact ⟨fun hmem => ⟨hmem, hout hmem⟩, fun hmem => hmem.1⟩

theorem Holds.union (h : Holds s t) (h' : Holds s' t') : Holds (s.union s') (t.union t') := by
  have hgrown := h.grow s'.length
  have hwords : wordsNecessary s'.length ≤ wordsNecessary (s.grow s'.length).length := by
    have hlength := hgrown.length_eq
    simp only [BoundedSet.grow] at hlength
    simp only [wordsNecessary]
    omega
  refine hgrown.mapWords hwords ?_ ?_ ?_
  · show max t.length t'.length = max t.length s'.length
    rw [h'.length_eq]
  · intro pos _
    rw [BitVec.getLsbD_or, ← isBitSet_eq, ← isBitSet_eq, BoundedSet.mem_union, Bool.or_eq_true,
      hgrown.mem_iff, h'.mem_iff]
    exact Iff.rfl
  · intro pos hpos
    rw [BoundedSet.mem_union]
    exact ⟨Or.inl, fun hmem => hmem.resolve_right (h'.not_mem hpos)⟩

theorem Holds.intersect (h : Holds s t) (h' : Holds s' t') :
    Holds (s.intersect s') (t.intersect t') := by
  let words := min (wordsNecessary s'.length) (wordsNecessary s.length)
  have hdata : words ≤ s.data.length := Nat.le_trans (Nat.min_le_right _ _) h.allocated
  refine ⟨h.length_eq, by simpa [XanBitWords.intersect] using h.allocated, fun pos => ?_⟩
  rw [XanBitWords.intersect, isBitSet_mapWords _ _ (by simpa using h.allocated),
    isBitSet_mapWords s _ hdata, BoundedSet.mem_intersect]
  by_cases hword : pos / 64 < words
  · have hfirst : ¬ (words ≤ pos / 64 ∧ pos / 64 < wordsNecessary s.length) := by omega
    rw [if_neg hfirst, if_pos ⟨Nat.zero_le _, hword⟩, BitVec.getLsbD_and, ← isBitSet_eq,
      ← isBitSet_eq, Bool.and_eq_true, h.mem_iff, h'.mem_iff]
  · have hnot : ¬ (pos ∈ t.members ∧ pos ∈ t'.members) := by
      rintro ⟨hmem, hmem'⟩
      have hlt := h.word_lt hmem
      have hlt' := h'.word_lt hmem'
      omega
    by_cases hown : pos / 64 < wordsNecessary s.length
    · rw [if_pos ⟨Nat.le_of_not_lt hword, hown⟩]
      simpa using hnot
    · have hunset : ¬ s.isBitSet pos = true := by
        rw [h.mem_iff]
        exact h.not_mem (Nat.le_of_not_lt hown)
      rw [if_neg fun hin => hown hin.2, if_neg fun hin => hword hin.2]
      exact ⟨fun hset => absurd hset hunset, fun hmem => absurd hmem hnot⟩

theorem Holds.copy (h : Holds s t) (h' : Holds s' t') : Holds (s.copy s') (t.copy t') := by
  let dest := s.grow s'.length
  let copied := dest.mapWords 0 (wordsNecessary s'.length) fun i _ => s'.wholeWord i
  have hgrown : Holds dest (t.grow s'.length) := h.grow s'.length
  have hlength : dest.length = max t'.length t.length := by
    have hmax := hgrown.length_eq
    rw [hmax, ← h'.length_eq]
    exact Nat.max_comm _ _
  have hle : s'.length ≤ dest.length := by
    rw [hlength, h'.length_eq]
    exact Nat.le_max_left _ _
  have hwords : wordsNecessary s'.length ≤ wordsNecessary dest.length := by
    simp only [wordsNecessary]
    omega
  -- only the words of `s'` are left
  have hcopied : ∀ pos, pos / 64 < wordsNecessary s'.length →
      (copied.isBitSet pos = true ↔ pos ∈ t'.members) := by
    intro pos hpos
    rw [isBitSet_mapWords dest _ (Nat.le_trans hwords hgrown.allocated),
      if_pos ⟨Nat.zero_le _, hpos⟩, ← isBitSet_eq, h'.mem_iff]
  have hbehind : ∀ pos, wordsNecessary dest.length ≤ pos / 64 → copied.isBitSet pos = false := by
    intro pos hpos
    rw [isBitSet_mapWords dest _ (Nat.le_trans hwords hgrown.allocated), if_neg (by omega),
      ← Bool.not_eq_true, hgrown.mem_iff]
    exact hgrown.not_mem hpos
  have hdata : copied.data.length = dest.data.length := length_data_mapWords _ _ _ _
  rw [XanBitWords.copy]
  by_cases hshrink : s'.length < copied.length
  · rw [if_pos hshrink]
    refine ⟨hlength, ?_, fun pos => ?_⟩
    · simpa using hgrown.allocated
    · rw [isBitSet_mapWords _ _ (by rw [hdata]; exact hgrown.allocated), BoundedSet.mem_copy]
      by_cases hsource : pos / 64 < wordsNecessary s'.length
      · rw [if_neg fun hin => absurd hsource (Nat.not_lt.2 hin.1)]
        exact hcopied pos hsource
      · have hout := h'.not_mem (Nat.le_of_not_lt hsource)
        split
        · simpa using hout
        · rename_i hrest
          have hunset := hbehind pos (by
            by_contra hin
            exact hrest ⟨Nat.le_of_not_lt hsource, Nat.lt_of_not_le hin⟩)
          exact iff_of_false (ne_true_of_eq_false hunset) hout
  · rw [if_neg hshrink]
    have hsame : dest.length = s'.length := Nat.le_antisymm (Nat.le_of_not_lt hshrink) hle
    refine ⟨hlength, by simpa using hgrown.allocated, fun pos => ?_⟩
    rw [BoundedSet.mem_copy]
    by_cases hsource : pos / 64 < wordsNecessary s'.length
    · exact hcopied pos hsource
    · have hout := h'.not_mem (Nat.le_of_not_lt hsource)
      have hunset := hbehind pos (by rw [hsame]; exact Nat.le_of_not_lt hsource)
      exact iff_of_false (ne_true_of_eq_false hunset) hout

theorem Holds.clone (h : Holds s t) : Holds s.clone t := by
  refine (holds_new s.length).mapWords (Nat.le_refl _) h.length_eq.symm ?_ ?_
  · intro pos _
    rw [← isBitSet_eq, h.mem_iff]
  · intro pos hpos
    have hempty : pos ∉ (BoundedSet.new s.length).members := fun hmem => hmem
    exact ⟨fun hmem => absurd hmem hempty, fun hmem => absurd hmem (h.not_mem hpos)⟩

/-! ## Comparisons -/

theorem sameWords_comm (a b : XanBitWords) (words : Nat) :
    sameWords a b words = sameWords b a words := by
  simp only [sameWords, Bool.beq_comm]

/-- The words of the one with fewer words are compared, those behind them have to be 0. -/
theorem Holds.sameMembers_iff (h : Holds s t) (h' : Holds s' t') :
    (sameWords s s' (wordsNecessary s.length) &&
        s'.zeroWords (wordsNecessary s.length) (wordsNecessary s'.length)) = true
      ↔ t.members = t'.members := by
  rw [Bool.and_eq_true, sameWords_iff, zeroWords_iff, Set.ext_iff]
  constructor
  · rintro ⟨hsame, hzero⟩ pos
    by_cases hword : pos / 64 < wordsNecessary s.length
    · rw [← h.mem_iff, ← h'.mem_iff, hsame pos hword]
    · have hout := h.not_mem (Nat.le_of_not_lt hword)
      refine iff_of_false hout fun hmem => ?_
      have hset := (h'.mem_iff pos).2 hmem
      rw [hzero pos (Nat.le_of_not_lt hword) (h'.word_lt hmem)] at hset
      exact Bool.false_ne_true hset
  · intro hmembers
    refine ⟨fun pos _ => ?_, fun pos hlo _ => ?_⟩
    · rw [Bool.eq_iff_iff, h.mem_iff, h'.mem_iff]
      exact hmembers pos
    · rw [← Bool.not_eq_true, h'.mem_iff, ← hmembers pos]
      exact h.not_mem hlo

theorem zeroWords_self (s : XanBitWords) (words : Nat) : s.zeroWords words words = true := by
  simp [zeroWords]

theorem Holds.equal_iff (h : Holds s t) (h' : Holds s' t') :
    s.equal s' = true ↔ t.members = t'.members := by
  rw [equal]
  rcases Nat.lt_trichotomy s.length s'.length with hlt | heq | hgt
  · rw [if_neg (Nat.ne_of_lt hlt)]
    simp only [if_pos hlt]
    exact h.sameMembers_iff h'
  · have hsame := h.sameMembers_iff h'
    rw [← heq, zeroWords_self, Bool.and_true] at hsame
    rw [if_pos heq]
    exact hsame
  · rw [if_neg (Nat.ne_of_gt hgt)]
    simp only [if_neg (Nat.lt_asymm hgt)]
    rw [eq_comm (a := t.members)]
    exact h'.sameMembers_iff h

theorem Holds.areEqual_iff (h : Holds s t) (h' : Holds s' t') :
    s.areEqual s' = true ↔ t.members = t'.members := by
  simp only [areEqual]
  rcases Nat.lt_trichotomy (wordsNecessary s.length) (wordsNecessary s'.length)
    with hlt | heq | hgt
  · rw [if_neg (Nat.lt_asymm hlt), if_pos hlt, Nat.min_eq_left (Nat.le_of_lt hlt)]
    exact h.sameMembers_iff h'
  · have hsame := h.sameMembers_iff h'
    rw [← heq, zeroWords_self] at hsame
    rw [← heq, if_neg (Nat.lt_irrefl _), if_neg (Nat.lt_irrefl _), Nat.min_self]
    exact hsame
  · rw [if_pos hgt, Nat.min_eq_right (Nat.le_of_lt hgt), sameWords_comm,
      eq_comm (a := t.members)]
    exact h'.sameMembers_iff h

theorem Holds.isEmpty_iff (h : Holds s t) : s.isEmpty = true ↔ t.members = ∅ := by
  rw [isEmpty, zeroWords_iff, Set.eq_empty_iff_forall_notMem]
  constructor
  · intro hzero pos hmem
    have hset := (h.mem_iff pos).2 hmem
    rw [hzero pos (Nat.zero_le _) (h.word_lt hmem)] at hset
    exact Bool.false_ne_true hset
  · intro hempty pos _ _
    rw [← Bool.not_eq_true, h.mem_iff]
    exact hempty pos

theorem Holds.isBitSetInside_iff (h : Holds s t) (pos : Nat) :
    s.isBitSetInside pos = true ↔ pos ∈ t.members := by
  rw [← h.mem_iff, isBitSetInside]
  split
  · exact Iff.rfl
  · rename_i hpos
    rw [h.unset (Nat.le_of_not_lt hpos)]

/-- The count agrees with the length if every position is a member. -/
theorem Holds.getCountOfBitsSet_eq_iff (h : Holds s t) (hlength : t.length < 2 ^ 31) :
    toSize s.getCountOfBitsSet = s.length ↔ ∀ pos < t.length, pos ∈ t.members := by
  have hle : (List.range s.length).countP s.isBitSet ≤ s.length := by
    calc (List.range s.length).countP s.isBitSet
        ≤ (List.range s.length).length := List.countP_le_length
      _ = s.length := List.length_range
  have hlen := h.length_eq
  have hcount : toSize s.getCountOfBitsSet = (List.range s.length).countP s.isBitSet := by
    rw [getCountOfBitsSet, toInt32_of_lt (by omega), toSize_natCast (by omega)]
  have hall : (List.range s.length).countP s.isBitSet = s.length ↔
      ∀ pos ∈ List.range s.length, s.isBitSet pos = true := by
    rw [← List.countP_eq_length, List.length_range]
  rw [hcount, hall, hlen]
  simp only [List.mem_range, h.mem_iff]

end XanBitWords
end CamAlias
