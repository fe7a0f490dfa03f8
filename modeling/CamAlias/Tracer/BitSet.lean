import CamAlias.Lib.Ranges
import Mathlib.Algebra.GroupWithZero.Nat
import Mathlib.Data.Nat.Bitwise

/-!
# BitSet — sharer sets and the ranges they are written as

`XanBitSet` of `xanbitset.c`, as far as the tracer uses it.  A set is its length in bits and its
words read as one number; no bit at or above the length is set.  The two searches return an `int`,
so a position from `2 ^ 31` on comes back negative.

`writeRangeToCompressedFile` walks a set with the two searches.  Below `2 ^ 31` bits it writes
ascending ranges of exactly the members (`writtenRanges_eq_some`).
-/

namespace CamAlias

/-- `XanBitSet`. -/
structure XanBitSet where
  length : Nat
  bits : Nat
  length_pos : 0 < length
  bits_lt : bits < 2 ^ length
  deriving DecidableEq

/-- A `size_t` read from a signed 64-bit integer. -/
def toSize (z : Int) : Nat :=
  (z % 2 ^ 64).toNat

/-- A `size_t` returned as an `int`. -/
def toInt32 (n : Nat) : Int :=
  (n : Int).bmod (2 ^ 32)

theorem toSize_natCast {n : Nat} (h : n < 2 ^ 64) : toSize n = n := by
  simp only [toSize]
  omega

theorem toInt32_of_lt {n : Nat} (h : n < 2 ^ 31) : toInt32 n = n := by
  have hlo : -((2 ^ 32 : Nat) : Int) / 2 ≤ (n : Int) := by omega
  have hhi : (n : Int) < (((2 ^ 32 : Nat) : Int) + 1) / 2 := by omega
  exact Int.bmod_eq_of_le hlo hhi

namespace XanBitSet

/-- `allocBitSet(8 * sizeof(size_t))`. -/
def new : XanBitSet where
  length := 64
  bits := 0
  length_pos := by decide
  bits_lt := by decide

/-- `xanBitSet_setBit`. -/
def setBit (s : XanBitSet) (pos : Nat) : XanBitSet where
  length := max s.length (pos + 1)
  bits := s.bits ||| 2 ^ pos
  length_pos := Nat.lt_of_lt_of_le s.length_pos (Nat.le_max_left _ _)
  bits_lt := by
    refine Nat.or_lt_two_pow ?_ ?_
    · exact Nat.lt_of_lt_of_le s.bits_lt (Nat.pow_le_pow_right (by omega) (Nat.le_max_left _ _))
    · exact Nat.pow_lt_pow_right (by omega) (by omega)

/-- `xanBitSet_equal`: the words agree, and the longer set has none beyond. -/
def equal (s t : XanBitSet) : Bool :=
  s.bits == t.bits

/-- `xanBitSet_getFirstBitSetInRange`. -/
def getFirstBitSetInRange (s : XanBitSet) (start «end» : Nat) : Int :=
  match (List.range' start (min «end» (s.length - 1) + 1 - start)).find? s.bits.testBit with
  | some pos => toInt32 pos
  | none => -1

/-- `xanBitSet_getFirstBitUnsetInRange`. -/
def getFirstBitUnsetInRange (s : XanBitSet) (start «end» : Nat) : Int :=
  match (List.range' start (min «end» (s.length - 1) + 1 - start)).find?
      (fun pos => !s.bits.testBit pos) with
  | some pos => toInt32 pos
  | none => if s.length ≤ «end» then toInt32 s.length else -1

/-- The loop of `writeRangeToCompressedFile`; `none` where `assert(endInv >= startInv)` fails or
the loop does not end. -/
def sharerRanges (sharers : XanBitSet) : Nat → Int → Option (List (Int × Int))
  | 0, _ => none
  | fuel + 1, startInv =>
      let numSharers := sharers.length
      let startInv := sharers.getFirstBitSetInRange (toSize (startInv + 1)) numSharers
      if startInv = -1 then some []
      else
        let endInv := sharers.getFirstBitUnsetInRange (toSize startInv) numSharers
        let endInv := if endInv = -1 then (numSharers : Int) - 1 else endInv - 1
        if endInv < startInv then none
        else (sharerRanges sharers fuel (endInv + 1)).map ((startInv, endInv) :: ·)

/-- The ranges that `writeRangeToCompressedFile` prints, corrected for the sharer offset. -/
def writtenRanges (sharers : XanBitSet) (sharersOffset : Nat) : Option (List (Nat × Nat)) :=
  (sharers.sharerRanges (sharers.length + 1) (-1)).map fun rs =>
    rs.map fun r => (toSize (sharersOffset + r.1), toSize (sharersOffset + r.2))

/-- The members in ascending order. -/
def members (s : XanBitSet) : List Nat :=
  (List.range s.length).filter s.bits.testBit

/-! ## Members -/

theorem lt_length_of_testBit {s : XanBitSet} {k : Nat} (h : s.bits.testBit k = true) :
    k < s.length := by
  by_contra hk
  have hle : 2 ^ s.length ≤ 2 ^ k := Nat.pow_le_pow_right (by omega) (by omega)
  have hfalse : s.bits.testBit k = false := Nat.testBit_lt_two_pow (by
    have := s.bits_lt
    omega)
  simp [hfalse] at h

@[simp] theorem mem_members {s : XanBitSet} {k : Nat} :
    k ∈ s.members ↔ s.bits.testBit k = true := by
  simp only [members, List.mem_filter, List.mem_range, and_iff_right_iff_imp]
  exact lt_length_of_testBit

theorem pairwise_members (s : XanBitSet) : s.members.Pairwise (· < ·) :=
  List.pairwise_lt_range.filter _

@[simp] theorem testBit_setBit (s : XanBitSet) (pos k : Nat) :
    (s.setBit pos).bits.testBit k = (s.bits.testBit k || decide (pos = k)) := by
  simp only [setBit, Nat.testBit_or, Nat.testBit_two_pow]

@[simp] theorem members_new : new.members = [] := by
  decide

/-- A bit above all others joins the members at their end. -/
theorem members_setBit {s : XanBitSet} {pos : Nat} (h : ∀ k ∈ s.members, k < pos) :
    (s.setBit pos).members = s.members ++ [pos] := by
  refine Lib.eq_of_pairwise_lt (pairwise_members _) ?_ ?_
  · rw [List.pairwise_append]
    refine ⟨pairwise_members s, by simp, ?_⟩
    intro a ha b hb
    rcases List.mem_singleton.1 hb with rfl
    exact h a ha
  · intro k
    simp only [mem_members, testBit_setBit, Bool.or_eq_true, decide_eq_true_eq, List.mem_append,
      List.mem_singleton, eq_comm (a := pos)]

theorem members_eq_of_equal {s t : XanBitSet} (h : s.equal t = true) : s.members = t.members := by
  have hbits : s.bits = t.bits := by simpa [equal] using h
  refine Lib.eq_of_pairwise_lt (pairwise_members s) (pairwise_members t) ?_
  intro k
  simp [hbits]

/-! ## The searches -/

theorem getFirstBitSetInRange_eq {s : XanBitSet} (hs : s.length < 2 ^ 31) (start : Nat) :
    (s.getFirstBitSetInRange start s.length = -1 ∧ ∀ k, start ≤ k → s.bits.testBit k = false) ∨
    (∃ pos : Nat, s.getFirstBitSetInRange start s.length = pos ∧ start ≤ pos ∧
      s.bits.testBit pos = true ∧ ∀ k, start ≤ k → k < pos → s.bits.testBit k = false) := by
  have hpos := s.length_pos
  have hmin : min s.length (s.length - 1) + 1 - start = s.length - start := by omega
  cases hfind : (List.range' start (s.length - start)).find? s.bits.testBit with
  | none =>
      left
      refine ⟨by simp only [getFirstBitSetInRange, hmin, hfind], ?_⟩
      intro k hk
      by_contra hbit
      have hbit : s.bits.testBit k = true := by simpa using hbit
      have hlt := lt_length_of_testBit hbit
      have hmem : k ∈ List.range' start (s.length - start) := by
        rw [List.mem_range'_1]
        omega
      exact List.find?_eq_none.1 hfind k hmem hbit
  | some pos =>
      right
      rcases List.find?_range'_eq_some.1 hfind with ⟨hbit, hmem, hbefore⟩
      have hlt := lt_length_of_testBit hbit
      rw [List.mem_range'_1] at hmem
      refine ⟨pos, ?_, hmem.1, hbit, ?_⟩
      · simp only [getFirstBitSetInRange, hmin, hfind]
        exact toInt32_of_lt (by omega)
      · intro k hk hkpos
        simpa using hbefore k hk hkpos

/-- The search for an unset bit stops at the latest behind the last bit. -/
theorem getFirstBitUnsetInRange_eq {s : XanBitSet} (hs : s.length < 2 ^ 31) (start : Nat)
    (hstart : start < s.length) :
    ∃ pos : Nat, s.getFirstBitUnsetInRange start s.length = pos ∧ start ≤ pos ∧
      s.bits.testBit pos = false ∧ ∀ k, start ≤ k → k < pos → s.bits.testBit k = true := by
  have hpos := s.length_pos
  have hmin : min s.length (s.length - 1) + 1 - start = s.length - start := by omega
  cases hfind : (List.range' start (s.length - start)).find? (fun pos => !s.bits.testBit pos) with
  | none =>
      refine ⟨s.length, ?_, by omega, ?_, ?_⟩
      · simp only [getFirstBitUnsetInRange, hmin, hfind, Nat.le_refl, if_true]
        exact toInt32_of_lt hs
      · by_contra hbit
        exact Nat.lt_irrefl _ (lt_length_of_testBit (by simpa using hbit))
      · intro k hk hklen
        have hmem : k ∈ List.range' start (s.length - start) := by
          rw [List.mem_range'_1]
          omega
        simpa using List.find?_eq_none.1 hfind k hmem
  | some pos =>
      rcases List.find?_range'_eq_some.1 hfind with ⟨hbit, hmem, hbefore⟩
      rw [List.mem_range'_1] at hmem
      refine ⟨pos, ?_, hmem.1, by simpa using hbit, ?_⟩
      · simp only [getFirstBitUnsetInRange, hmin, hfind]
        exact toInt32_of_lt (by omega)
      · intro k hk hkpos
        simpa using hbefore k hk hkpos

/-! ## The written ranges -/

/-- The loop started at bit `p` writes the members from `p` on. -/
theorem sharerRanges_eq_some {s : XanBitSet} (hs : s.length < 2 ^ 31) :
    ∀ (fuel p : Nat), 0 < fuel → s.length < fuel + p → p ≤ s.length + 2 →
      ∃ rs : List (Nat × Nat),
        s.sharerRanges fuel ((p : Int) - 1) = some (rs.map fun r => ((r.1 : Int), (r.2 : Int))) ∧
        Lib.Ascending rs ∧ rs.Pairwise (fun r r' => r.2 + 1 < r'.1) ∧ (∀ r ∈ rs, p ≤ r.1) ∧
        ∀ k, k ∈ Lib.numbers rs ↔ p ≤ k ∧ s.bits.testBit k = true := by
  intro fuel
  induction fuel with
  | zero =>
      intro p hfuel
      exact absurd hfuel (Nat.lt_irrefl 0)
  | succ fuel ih =>
      intro p _ hlen hp
      have hsize : toSize ((p : Int) - 1 + 1) = p := by
        rw [Int.sub_add_cancel]
        exact toSize_natCast (by omega)
      rcases getFirstBitSetInRange_eq hs p with ⟨hnone, hclear⟩ | ⟨a, ha, hpa, hbit, hbefore⟩
      · refine ⟨[], ?_, trivial, List.Pairwise.nil, by simp, ?_⟩
        · simp only [sharerRanges, hsize, hnone, if_true, List.map_nil]
        · intro k
          simp only [Lib.numbers_nil, List.not_mem_nil, false_iff, not_and]
          intro hk
          simp [hclear k hk]
      · have halen := lt_length_of_testBit hbit
        have hasize : toSize (a : Int) = a := toSize_natCast (by omega)
        rcases getFirstBitUnsetInRange_eq hs a halen with ⟨b, hb, hab, hunset, hset⟩
        have hlt : a < b := by
          refine Nat.lt_of_le_of_ne hab ?_
          rintro rfl
          simp [hbit] at hunset
        have hblen : b ≤ s.length := by
          have hlast := lt_length_of_testBit (hset (b - 1) (by omega) (by omega))
          omega
        -- bit `b` is known to be unset, so the next round starts behind it
        rcases ih (b + 1) (by omega) (by omega) (by omega) with ⟨rs, hrs, hasc, hgap, hge, hmem⟩
        refine ⟨(a, b - 1) :: rs, ?_, ?_, ?_, ?_, ?_⟩
        · have hneg : ¬ ((a : Int) = -1) := by omega
          have hneg' : ¬ ((b : Int) = -1) := by omega
          have hord : ¬ ((b : Int) - 1 < a) := by omega
          have hnext : (b : Int) - 1 + 1 = ((b + 1 : Nat) : Int) - 1 := by omega
          have hend : (b : Int) - 1 = ((b - 1 : Nat) : Int) := by omega
          simp only [sharerRanges, hsize, ha, if_neg hneg, hasize, hb, if_neg hneg', if_neg hord,
            hnext, hrs, Option.map_some, List.map_cons]
          rw [hend]
        · refine ⟨by omega, ?_, hasc⟩
          intro r hr
          have := hge r hr
          simp only
          omega
        · refine List.pairwise_cons.2 ⟨?_, hgap⟩
          intro r hr
          have := hge r hr
          simp only
          omega
        · intro r hr
          rcases List.mem_cons.1 hr with rfl | hr
          · exact hpa
          · have := hge r hr
            omega
        · intro k
          rw [Lib.numbers_cons, List.mem_append, hmem, Lib.mem_rangeNumbers]
          constructor
          · rintro (⟨hak, hkb⟩ | ⟨hbk, hk⟩)
            · exact ⟨by omega, hset k hak (by omega)⟩
            · exact ⟨by omega, hk⟩
          · rintro ⟨hpk, hk⟩
            by_cases hak : a ≤ k
            · by_cases hkb : k ≤ b - 1
              · exact Or.inl ⟨hak, hkb⟩
              · refine Or.inr ⟨?_, hk⟩
                have hne : k ≠ b := by
                  rintro rfl
                  simp [hunset] at hk
                omega
            · simp [hbefore k hpk (by omega)] at hk

/-- Below `2 ^ 31` bits, `writeRangeToCompressedFile` writes exactly the sharers. -/
theorem writtenRanges_eq_some {s : XanBitSet} (hs : s.length < 2 ^ 31) {sharersOffset : Nat}
    (hoffset : ∀ k ∈ s.members, sharersOffset + k < 2 ^ 64) :
    ∃ rs, s.writtenRanges sharersOffset = some rs ∧ Lib.Ascending rs ∧
      rs.Pairwise (fun r r' => r.2 + 1 < r'.1) ∧ (∀ r ∈ rs, r.2 < 2 ^ 64) ∧
      Lib.numbers rs = s.members.map (sharersOffset + ·) := by
  rcases sharerRanges_eq_some hs (s.length + 1) 0 (by omega) (by omega) (by omega) with
    ⟨rs, hrs, hasc, hgap, -, hmem⟩
  have hend : ∀ r ∈ rs, r.1 ≤ r.2 ∧ sharersOffset + r.2 < 2 ^ 64 := by
    intro r hr
    have hle := hasc.le hr
    have hlast := ((hmem r.2).1 (Lib.mem_numbers.2 ⟨r, hr, hle, Nat.le_refl _⟩)).2
    exact ⟨hle, hoffset _ (mem_members.2 hlast)⟩
  let shift : Nat × Nat → Nat × Nat := fun r => (sharersOffset + r.1, sharersOffset + r.2)
  have hshift : s.writtenRanges sharersOffset = some (rs.map shift) := by
    have hstart : (-1 : Int) = ((0 : Nat) : Int) - 1 := by omega
    rw [writtenRanges, hstart, hrs, Option.map_some, List.map_map]
    congr 1
    refine List.map_congr_left ?_
    intro r hr
    have hr' := hend r hr
    have h1 : toSize ((sharersOffset : Int) + (r.1 : Int)) = sharersOffset + r.1 := by
      rw [← Int.natCast_add]
      exact toSize_natCast (by omega)
    have h2 : toSize ((sharersOffset : Int) + (r.2 : Int)) = sharersOffset + r.2 := by
      rw [← Int.natCast_add]
      exact toSize_natCast (by omega)
    simp only [Function.comp_apply, h1, h2, shift]
  refine ⟨rs.map shift, hshift, ?_, ?_, ?_, ?_⟩
  · exact hasc.shift sharersOffset
  · rw [List.pairwise_map]
    refine hgap.imp fun {r r'} hlt => ?_
    simp only [shift]
    omega
  · intro r hr
    rcases List.mem_map.1 hr with ⟨r', hr', rfl⟩
    exact (hend r' hr').2
  · rw [Lib.numbers_shift]
    congr 1
    refine Lib.eq_of_pairwise_lt hasc.pairwise_numbers (pairwise_members s) ?_
    intro k
    simp [hmem]

/-- The position behind a full set of `2 ^ 31` bits comes back negative, and the assertion fails. -/
theorem writtenRanges_eq_none {s : XanBitSet} (hlen : s.length = 2 ^ 31)
    (hbits : ∀ k, k < s.length → s.bits.testBit k = true) (sharersOffset : Nat) :
    s.writtenRanges sharersOffset = none := by
  have hzero : toSize (-1 + 1) = 0 := rfl
  have hset : s.getFirstBitSetInRange 0 s.length = 0 := by
    have hrange : min s.length (s.length - 1) + 1 - 0 = s.length - 1 + 1 := by omega
    have hfirst : (List.range' 0 (s.length - 1 + 1)).find? s.bits.testBit = some 0 := by
      rw [List.range'_succ, List.find?_cons_of_pos (hbits 0 (by omega))]
    simp only [getFirstBitSetInRange, hrange, hfirst]
    rfl
  have hunset : s.getFirstBitUnsetInRange 0 s.length = -2 ^ 31 := by
    have hnone : (List.range' 0 (min s.length (s.length - 1) + 1 - 0)).find?
        (fun pos => !s.bits.testBit pos) = none := by
      rw [List.find?_eq_none]
      intro k hk
      rw [List.mem_range'_1] at hk
      simp [hbits k (by omega)]
    simp only [getFirstBitUnsetInRange, hnone, Nat.le_refl, if_true]
    rw [hlen]
    rfl
  have hsize : toSize 0 = 0 := rfl
  simp only [writtenRanges, sharerRanges, hzero, hset, hsize, hunset]
  rfl

end XanBitSet
end CamAlias
