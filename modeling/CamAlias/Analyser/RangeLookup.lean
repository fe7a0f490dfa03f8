import CamAlias.Analyser.RepetitionPattern
import CamAlias.Lib.LowerBound

/-!
# RangeLookup — a table of ranges is an index of the numbers in them

The ranges of the patterns of a family may interleave, and leave numbers out between them.
`buildLut` puts them into a map ordered by start and end; where no two of them meet, the table lists
them in the order of their numbers (`Apart`), and the three ways to read it agree:

* `begin`/`next` visit every number with its owner (`collect_begin`, `Apart.pairwise_entries`);
* `nextEntry` visits every range (`collectRanges_eq`);
* `lookupData` finds the owner of a number (`Apart.lookupData_eq`).
-/

namespace CamAlias

open Lib RepetitionPattern

namespace RepetitionPatternLookup

variable {δ : Type _}

/-! ## Reading a table range by range -/

/-- `RepetitionPatternLookup::getStartFromII`. -/
def getStartFromII (lut : RepetitionPatternLookup δ) (iter : Iterator) : Except Fault Nat :=
  match lut[iter.1]? with
  | none => .error .outOfRange
  | some e => .ok e.1

/-- `RepetitionPatternLookup::getEndFromII`. -/
def getEndFromII (lut : RepetitionPatternLookup δ) (iter : Iterator) : Except Fault Nat :=
  match lut[iter.1]? with
  | none => .error .outOfRange
  | some e => .ok e.2.1

/-- `for (ii = begin(); ii != end(); ii = nextEntry(ii))` from some iterator on: the ranges visited
and their data. -/
def collectRanges (lut : RepetitionPatternLookup δ) :
    Nat → Iterator → Except Fault (List (Nat × Nat × δ))
  | 0, iter => if iter = lut.end then .ok [] else .error .noFuel
  | fuel + 1, iter =>
      if iter = lut.end then .ok []
      else
        match lut.getStartFromII iter, lut.getEndFromII iter, lut.getDataFromII iter with
        | .ok start, .ok last, .ok data =>
            match collectRanges lut fuel (lut.nextEntry iter) with
            | .ok rest => .ok ((start, last, data) :: rest)
            | .error e => .error e
        | _, _, _ => .error .outOfRange

/-- From the start of an entry the loop visits that entry and the ones behind it. -/
theorem collectRanges_entryStart (lut : RepetitionPatternLookup δ) :
    ∀ fuel i : Nat, lut.length - i ≤ fuel →
      collectRanges lut fuel (lut.entryStart i) = .ok (lut.drop i) := by
  intro fuel
  induction fuel with
  | zero =>
      intro i hfuel
      have hle : lut.length ≤ i := by omega
      have hnone : lut[i]? = none := List.getElem?_eq_none_iff.2 hle
      simp [entryStart, hnone, collectRanges, List.drop_eq_nil_of_le hle]
  | succ fuel ih =>
      intro i hfuel
      rcases Nat.lt_or_ge i lut.length with hlt | hle
      · have hget := List.getElem?_eq_getElem hlt
        have hstart : lut.entryStart i = (i, lut[i].1) := by simp only [entryStart, hget]
        have hend : ¬ ((i, lut[i].1) : Iterator) = lut.end := by
          intro heq
          have hi : i = lut.length := congrArg Prod.fst heq
          omega
        have hrest := ih (i + 1) (by omega)
        rw [hstart, collectRanges, if_neg hend]
        simp only [getStartFromII, getEndFromII, getDataFromII, nextEntry, hget, hrest]
        rw [List.drop_eq_getElem_cons hlt]
      · have hnone : lut[i]? = none := List.getElem?_eq_none_iff.2 hle
        simp [entryStart, hnone, collectRanges, List.drop_eq_nil_of_le hle]

theorem collectRanges_begin {lut : RepetitionPatternLookup δ} {fuel : Nat}
    (hfuel : lut.length ≤ fuel) : collectRanges lut fuel lut.begin = .ok lut :=
  collectRanges_entryStart lut fuel 0 hfuel

/-! ## Tables of ranges that do not meet -/

/-- The ranges are proper, and each ends before the next one starts. -/
structure Apart (lut : RepetitionPatternLookup δ) : Prop where
  proper : ∀ e ∈ lut, e.1 ≤ e.2.1
  sorted : lut.Pairwise fun e e' => e.2.1 < e'.1

theorem Apart.tail {lut : RepetitionPatternLookup δ} {e : Nat × Nat × δ}
    (h : Apart (e :: lut)) : Apart lut :=
  ⟨fun e' he' => h.proper e' (List.mem_cons_of_mem _ he'), (List.pairwise_cons.1 h.sorted).2⟩

/-- The numbers come in increasing order, so each of them once. -/
theorem Apart.pairwise_entries {lut : RepetitionPatternLookup δ} (h : Apart lut) :
    (entries lut).Pairwise fun a b => a.1 < b.1 := by
  induction lut with
  | nil => exact List.Pairwise.nil
  | cons e lut ih =>
      have hcons : entries (e :: lut)
          = (rangeNumbers (e.1, e.2.1)).map (fun k => (k, e.2.2)) ++ entries lut := rfl
      rw [hcons]
      refine List.pairwise_append.2 ⟨?_, ih h.tail, ?_⟩
      · rw [List.pairwise_map]
        exact List.pairwise_lt_range'
      · rintro ⟨k, data⟩ hk ⟨k', data'⟩ hk'
        rcases List.mem_map.1 hk with ⟨n, hn, hpair⟩
        have hn := (mem_rangeNumbers.1 hn).2
        have hkn : n = k := congrArg Prod.fst hpair
        rcases Tiles.mem_entries.1 hk' with ⟨e', he', hlow, -, -⟩
        have hcross := (List.pairwise_cons.1 h.sorted).1 e' he'
        calc
          k = n := hkn.symm
          _ ≤ e.2.1 := hn
          _ < e'.1 := hcross
          _ ≤ k' := hlow

/-- A lookup finds the range that holds the number. -/
theorem Apart.lookupData_eq {lut : RepetitionPatternLookup δ} (h : Apart lut) {n : Nat} {data : δ}
    (hn : (n, data) ∈ entries lut) : lut.lookupData n = .ok data := by
  induction lut with
  | nil => cases hn
  | cons e lut ih =>
      rcases Tiles.mem_entries.1 hn with ⟨e', he', hlow, hhigh, hdata⟩
      rcases List.mem_cons.1 he' with rfl | he'
      · simp [lookupData, hhigh, hdata]
      · -- the first range ends before the one that holds the number
        have hcross := (List.pairwise_cons.1 h.sorted).1 e' he'
        have hbehind : ¬ n ≤ e.2.1 := Nat.not_le.2 (Nat.lt_of_lt_of_le hcross hlow)
        have hrest := ih h.tail (Tiles.mem_entries.2 ⟨e', he', hlow, hhigh, hdata⟩)
        simpa [lookupData, List.find?_cons, hbehind] using hrest

/-- The range found is the one that `lower_bound` halves its way to. -/
theorem Apart.getElem?_lowerBound {lut : RepetitionPatternLookup δ} (h : Apart lut) (n : Nat) :
    lut[lowerBound (fun e => decide (e.2.1 < n)) lut]? = lut.find? fun e => n ≤ e.2.1 := by
  have hends : lut.Pairwise fun e e' => decide (e'.2.1 < n) = true → decide (e.2.1 < n) = true := by
    refine h.sorted.imp_of_mem ?_
    intro e e' he he' hcross hlt
    have hproper := h.proper e' he'
    simp only [decide_eq_true_eq] at hlt ⊢
    exact Nat.lt_trans (Nat.lt_of_lt_of_le hcross hproper) hlt
  rw [Lib.getElem?_lowerBound hends]
  congr 1
  funext e
  rw [← decide_not]
  exact decide_eq_decide.2 Nat.not_lt

/-- Ranges in the order of the map that do not meet follow each other. -/
theorem apart_of_before {lut : RepetitionPatternLookup δ} (hproper : ∀ e ∈ lut, e.1 ≤ e.2.1)
    (hbefore : lut.Pairwise Before)
    (hdisjoint : lut.Pairwise fun e e' => e.2.1 < e'.1 ∨ e'.2.1 < e.1) : Apart lut := by
  refine ⟨hproper, (hbefore.and hdisjoint).imp_of_mem ?_⟩
  rintro e e' he he' ⟨hkey, hcross | hcross⟩
  · exact hcross
  · have hle := hproper e he
    have hle' := hproper e' he'
    simp only [Before] at hkey
    omega

/-! ## The table of a family of patterns -/

/-- The table of a family whose ranges do not meet holds every number of the family. -/
theorem apart_buildLut {d : List (RepetitionPattern × δ)}
    (hproper : ∀ i ∈ d, ∀ r ∈ i.1, r.1 ≤ r.2)
    (hdisjoint : (allRanges d).Pairwise fun e e' => e.2.1 < e'.1 ∨ e'.2.1 < e.1) :
    Apart (buildLut d) ∧ (buildLut d).Perm (allRanges d) := by
  have hle := le_of_mem_allRanges hproper
  have hdistinct : (allRanges d).Pairwise (fun e e' => (e.1, e.2.1) ≠ (e'.1, e'.2.1)) := by
    refine hdisjoint.imp_of_mem ?_
    intro e e' he he' hcross heq
    have hstart := (Prod.mk.inj heq).1
    have hproper' := hle e' he'
    have hproper := hle e he
    omega
  rcases sorted_buildLut hdistinct with ⟨hsorted, hperm⟩
  refine ⟨apart_of_before (fun e he => hle e (hperm.mem_iff.1 he)) hsorted ?_, hperm⟩
  exact (hperm.pairwise_iff fun {_ _} hab => hab.symm).2 hdisjoint

/-- What the loops over the table of a family visit and what its lookups find. -/
theorem buildLut_index {d : List (RepetitionPattern × δ)}
    (hproper : ∀ i ∈ d, ∀ r ∈ i.1, r.1 ≤ r.2)
    (hdisjoint : (allRanges d).Pairwise fun e e' => e.2.1 < e'.1 ∨ e'.2.1 < e.1) :
    (∃ visited : List (Nat × δ),
        (∀ fuel, visited.length ≤ fuel →
          collect (buildLut d) fuel (buildLut d).begin = .ok visited) ∧
        (visited.Pairwise fun a b => a.1 < b.1) ∧
        ∀ n data, (n, data) ∈ visited ↔ ∃ i ∈ d, n ∈ numbers i.1 ∧ i.2 = data) ∧
      (∃ ranges : List (Nat × Nat × δ),
        (∀ fuel, ranges.length ≤ fuel →
          collectRanges (buildLut d) fuel (buildLut d).begin = .ok ranges) ∧
        (ranges.Pairwise fun e e' => e.2.1 < e'.1) ∧ ranges.Perm (allRanges d)) ∧
      ∀ i ∈ d, ∀ n ∈ numbers i.1, (buildLut d).lookupData n = .ok i.2 := by
  rcases apart_buildLut hproper hdisjoint with ⟨hapart, hperm⟩
  have hmem : ∀ n data, (n, data) ∈ entries (buildLut d)
      ↔ ∃ i ∈ d, n ∈ numbers i.1 ∧ i.2 = data := by
    intro n data
    rw [← mem_entries_allRanges]
    exact (hperm.flatMap_right _).mem_iff
  refine ⟨⟨entries (buildLut d), ?_, hapart.pairwise_entries, hmem⟩,
    ⟨buildLut d, ?_, hapart.sorted, hperm⟩, ?_⟩
  · exact fun fuel hfuel => collect_begin hapart.proper hfuel
  · exact fun fuel hfuel => collectRanges_begin hfuel
  · exact fun i hi n hn => hapart.lookupData_eq ((hmem n i.2).2 ⟨i, hi, hn, rfl⟩)

theorem buildLut_index_interleaved :
    (∃ visited : List (Nat × Nat),
        (∀ fuel, visited.length ≤ fuel →
          collect (buildLut [([(4, 6), (0, 1)], 8), ([(2, 3)], 9)]) fuel
            (buildLut [([(4, 6), (0, 1)], 8), ([(2, 3)], 9)]).begin = .ok visited) ∧
        (visited.Pairwise fun a b => a.1 < b.1) ∧
        ∀ n data, (n, data) ∈ visited ↔
          ∃ i ∈ [([(4, 6), (0, 1)], 8), ([(2, 3)], 9)], n ∈ numbers i.1 ∧ i.2 = data) ∧
      (∃ ranges : List (Nat × Nat × Nat),
        (∀ fuel, ranges.length ≤ fuel →
          collectRanges (buildLut [([(4, 6), (0, 1)], 8), ([(2, 3)], 9)]) fuel
            (buildLut [([(4, 6), (0, 1)], 8), ([(2, 3)], 9)]).begin = .ok ranges) ∧
        (ranges.Pairwise fun e e' => e.2.1 < e'.1) ∧
        ranges.Perm (allRanges [([(4, 6), (0, 1)], 8), ([(2, 3)], 9)])) ∧
      ∀ i ∈ [([(4, 6), (0, 1)], 8), ([(2, 3)], 9)], ∀ n ∈ numbers i.1,
        (buildLut [([(4, 6), (0, 1)], 8), ([(2, 3)], 9)]).lookupData n = .ok i.2 :=
  buildLut_index (by decide) (by decide)

end RepetitionPatternLookup
end CamAlias
