import CamAlias.Analyser.CompressionPattern
import CamAlias.Lib.Ranges
import Mathlib.Algebra.GroupWithZero.Nat
import Mathlib.Data.List.Nodup

/-!
# RepetitionPattern — the analyser's ranges and the tables built from them

`RepetitionPattern.cpp`.  A pattern is the vector of ranges that the lexer read.  The first or
last instance of an empty pattern is an access to an element that is not there.

`RepetitionPatternLookup` sorts the ranges of several patterns into one table.  When the patterns
split an interval of numbers the table tiles it (`tiles_buildLut`), so that its iterator visits
the numbers one by one and a lookup finds the pattern of a number.
-/

namespace CamAlias

open Lib

/-- `RepetitionPattern`. -/
abbrev RepetitionPattern := List (Nat × Nat)

namespace RepetitionPattern

/-- `RepetitionPattern::addPair`. -/
def addPair (p : RepetitionPattern) (start «end» : Nat) : RepetitionPattern :=
  p ++ [(start, «end»)]

/-- `RepetitionPattern::getFirstInstance`. -/
def getFirstInstance : RepetitionPattern → Except Fault Nat
  | [] => .error .emptyPattern
  | r :: _ => .ok r.1

/-- `RepetitionPattern::getLastInstance`. -/
def getLastInstance (p : RepetitionPattern) : Except Fault Nat :=
  match p.getLast? with
  | none => .error .emptyPattern
  | some r => .ok r.2

/-- `RepetitionPattern::isSingleton`. -/
def isSingleton : RepetitionPattern → Bool
  | [r] => r.1 == r.2
  | _ => false

/-- `RepetitionPattern::removeFirstInstance` and `deleteFirstInstance`. -/
def removeFirstInstance : RepetitionPattern → Except Fault RepetitionPattern
  | [] => .error .emptyPattern
  | r :: rs => .ok (if r.1 = r.2 then rs else (r.1 + 1, r.2) :: rs)

/-- `RepetitionPattern::removeLastInstance` and `deleteLastInstance`. -/
def removeLastInstance (p : RepetitionPattern) : Except Fault RepetitionPattern :=
  match p.getLast? with
  | none => .error .emptyPattern
  | some r => .ok (if r.1 = r.2 then p.dropLast else p.dropLast ++ [(r.1, r.2 - 1)])

variable {p : RepetitionPattern} {n : Nat} {ns : List Nat}

theorem getFirstInstance_eq (h : Ascending p) (hn : numbers p = n :: ns) :
    p.getFirstInstance = .ok n := by
  cases p with
  | nil => simp at hn
  | cons r rs =>
      have hmem : n ∈ numbers (r :: rs) := by simp [hn]
      have hle := h.first_le hmem
      have hfirst : r.1 ∈ n :: ns := hn ▸ mem_numbers.2 ⟨r, by simp, Nat.le_refl _, h.1⟩
      have hsorted := h.pairwise_numbers
      rw [hn, List.pairwise_cons] at hsorted
      have heq : r.1 = n := by
        rcases List.mem_cons.1 hfirst with heq | hmem
        · exact heq
        · have := hsorted.1 _ hmem
          omega
      simp [getFirstInstance, heq]

theorem getLastInstance_eq (h : Ascending p) (hn : numbers p = ns ++ [n]) :
    p.getLastInstance = .ok n := by
  rcases List.eq_nil_or_concat' p with rfl | ⟨rs, r, rfl⟩
  · simp at hn
  · have hmem : n ∈ numbers (rs ++ [r]) := by simp [hn]
    have hle := h.le_last hmem
    have hlast : r.2 ∈ ns ++ [n] :=
      hn ▸ mem_numbers.2 ⟨r, by simp, h.le (by simp), Nat.le_refl _⟩
    have hsorted := h.pairwise_numbers
    rw [hn, List.pairwise_append] at hsorted
    have heq : r.2 = n := by
      rcases List.mem_append.1 hlast with hmem | hmem
      · have := hsorted.2.2 _ hmem n (by simp)
        omega
      · exact List.mem_singleton.1 hmem
    simp [getLastInstance, heq]

theorem removeFirstInstance_eq (h : Ascending p) (hn : numbers p = n :: ns) :
    ∃ p', p.removeFirstInstance = .ok p' ∧ Ascending p' ∧ numbers p' = ns := by
  cases p with
  | nil => simp at hn
  | cons r rs =>
      by_cases hr : r.1 = r.2
      · refine ⟨rs, by simp [removeFirstInstance, hr], h.2.2, ?_⟩
        have hsingle : rangeNumbers r = [r.1] := by
          rw [show r = (r.1, r.1) from Prod.ext rfl hr.symm]
          exact rangeNumbers_singleton _
        rw [numbers_cons, hsingle] at hn
        simpa using congrArg List.tail hn
      · have hlt : r.1 < r.2 := by
          have := h.1
          omega
        refine ⟨(r.1 + 1, r.2) :: rs, by simp [removeFirstInstance, hr],
          ⟨by simp only; omega, h.2.1, h.2.2⟩, ?_⟩
        have hsplit : rangeNumbers r = r.1 :: rangeNumbers (r.1 + 1, r.2) :=
          rangeNumbers_cons hlt
        rw [numbers_cons, hsplit] at hn
        simpa using congrArg List.tail hn

theorem removeLastInstance_eq (h : Ascending p) (hn : numbers p = ns ++ [n]) :
    ∃ p', p.removeLastInstance = .ok p' ∧ Ascending p' ∧ numbers p' = ns := by
  rcases List.eq_nil_or_concat' p with rfl | ⟨rs, r, rfl⟩
  · simp at hn
  · rcases Ascending.append.1 h with ⟨hrs, hr, hcross⟩
    by_cases hsingle : r.1 = r.2
    · refine ⟨rs, by simp [removeLastInstance, hsingle], hrs, ?_⟩
      have hnum : rangeNumbers r = [r.1] := by
        rw [show r = (r.1, r.1) from Prod.ext rfl hsingle.symm]
        exact rangeNumbers_singleton _
      rw [numbers_append, numbers_cons, hnum, numbers_nil, List.append_nil] at hn
      exact (List.append_inj' hn rfl).1
    · have hlt : r.1 < r.2 := by
        have := hr.1
        omega
      refine ⟨rs ++ [(r.1, r.2 - 1)], by simp [removeLastInstance, hsingle], ?_, ?_⟩
      · refine Ascending.append.2 ⟨hrs, ⟨by simp only; omega, by simp, trivial⟩, ?_⟩
        intro s hs s' hs'
        rcases List.mem_singleton.1 hs' with rfl
        exact hcross s hs r (by simp)
      · have hsplit : rangeNumbers r = rangeNumbers (r.1, r.2 - 1) ++ [r.2] :=
          rangeNumbers_snoc hlt
        rw [numbers_append, numbers_cons, hsplit, numbers_nil, List.append_nil,
          ← List.append_assoc] at hn
        simpa using (List.append_inj' hn rfl).1

theorem isSingleton_iff (h : Ascending p) : p.isSingleton = true ↔ ∃ n, numbers p = [n] := by
  constructor
  · intro hp
    match p, hp with
    | [r], hp =>
        have hr : r.1 = r.2 := by simpa [isSingleton] using hp
        refine ⟨r.1, ?_⟩
        rw [numbers_cons, numbers_nil, List.append_nil,
          show r = (r.1, r.1) from Prod.ext rfl hr.symm]
        exact rangeNumbers_singleton _
  · rintro ⟨n, hn⟩
    rw [h.eq_singleton hn]
    simp [isSingleton]

end RepetitionPattern

/-! ## Tables of ranges -/

/-- The `lut` of `RepetitionPatternLookup`: start, end and data, in the order of the ranges. -/
abbrev RepetitionPatternLookup (δ : Type _) := List (Nat × Nat × δ)

namespace RepetitionPatternLookup

variable {δ : Type _}

/-- `rangeMap[pair(start, end)] = data` on a map ordered by start, then end. -/
def insertRange (r : Nat × Nat) (data : δ) : RepetitionPatternLookup δ → RepetitionPatternLookup δ
  | [] => [(r.1, r.2, data)]
  | e :: lut =>
      if r.1 < e.1 ∨ (r.1 = e.1 ∧ r.2 < e.2.1) then (r.1, r.2, data) :: e :: lut
      else if r.1 = e.1 ∧ r.2 = e.2.1 then (r.1, r.2, data) :: lut
      else e :: insertRange r data lut

/-- `RepetitionPatternLookup::buildLut` on an empty table. -/
def buildLut (d : List (RepetitionPattern × δ)) : RepetitionPatternLookup δ :=
  d.foldl (fun lut i => i.1.foldl (fun lut r => insertRange r i.2 lut) lut) []

/-- `pair<lut iterator, number>`, the lut iterator as an index. -/
abbrev Iterator := Nat × Nat

/-- `RepetitionPatternLookup::end`. -/
def «end» (lut : RepetitionPatternLookup δ) : Iterator :=
  (lut.length, 0)

/-- The iterator at the first number of entry `i`, or the end. -/
def entryStart (lut : RepetitionPatternLookup δ) (i : Nat) : Iterator :=
  match lut[i]? with
  | none => lut.end
  | some e => (i, e.1)

/-- `RepetitionPatternLookup::begin`. -/
def begin (lut : RepetitionPatternLookup δ) : Iterator :=
  lut.entryStart 0

/-- `RepetitionPatternLookup::next`. -/
def next (lut : RepetitionPatternLookup δ) (iter : Iterator) : Except Fault Iterator :=
  match lut[iter.1]? with
  | none => .error .outOfRange
  | some e =>
      .ok (if iter.2 = e.2.1 then lut.entryStart (iter.1 + 1) else (iter.1, iter.2 + 1))

/-- `RepetitionPatternLookup::nextEntry`. -/
def nextEntry (lut : RepetitionPatternLookup δ) (iter : Iterator) : Iterator :=
  lut.entryStart (iter.1 + 1)

/-- `RepetitionPatternLookup::getDataFromII`. -/
def getDataFromII (lut : RepetitionPatternLookup δ) (iter : Iterator) : Except Fault δ :=
  match lut[iter.1]? with
  | none => .error .outOfRange
  | some e => .ok e.2.2

/-- `RepetitionPatternLookup::lookupData`: `lower_bound` on the range ends. -/
def lookupData (lut : RepetitionPatternLookup δ) (n : Nat) : Except Fault δ :=
  match lut.find? fun e => n ≤ e.2.1 with
  | none => .error .outOfRange
  | some e => .ok e.2.2

/-! ## Tables that tile an interval -/

/-- The entries follow each other without a gap from `lo` up to `hi`. -/
def Tiles (lo hi : Nat) : RepetitionPatternLookup δ → Prop
  | [] => lo = hi
  | e :: lut => e.1 = lo ∧ lo ≤ e.2.1 ∧ Tiles (e.2.1 + 1) hi lut

/-- The numbers of a table, each with its data. -/
def entries (lut : RepetitionPatternLookup δ) : List (Nat × δ) :=
  lut.flatMap fun e => (rangeNumbers (e.1, e.2.1)).map fun k => (k, e.2.2)

theorem Tiles.le {lut : RepetitionPatternLookup δ} {lo hi : Nat} (h : Tiles lo hi lut) :
    lo ≤ hi := by
  induction lut generalizing lo with
  | nil => exact Nat.le_of_eq h
  | cons e lut ih =>
      have hle := h.2.1
      have := ih h.2.2
      omega

theorem tiles_append {lut lut' : RepetitionPatternLookup δ} {lo hi : Nat} :
    Tiles lo hi (lut ++ lut') ↔ ∃ mid, Tiles lo mid lut ∧ Tiles mid hi lut' := by
  induction lut generalizing lo with
  | nil => simp [Tiles]
  | cons e lut ih =>
      simp only [List.cons_append, Tiles, ih]
      constructor
      · rintro ⟨hlo, hle, mid, hmid, hrest⟩
        exact ⟨mid, ⟨hlo, hle, hmid⟩, hrest⟩
      · rintro ⟨mid, ⟨hlo, hle, hmid⟩, hrest⟩
        exact ⟨hlo, hle, mid, hmid, hrest⟩

theorem Tiles.map_fst_entries {lut : RepetitionPatternLookup δ} {lo hi : Nat}
    (h : Tiles lo hi lut) : (entries lut).map Prod.fst = List.range' lo (hi - lo) := by
  induction lut generalizing lo with
  | nil =>
      have hlo : lo = hi := h
      simp [entries, hlo]
  | cons e lut ih =>
      rcases h with ⟨rfl, hle, hrest⟩
      have htail := ih hrest
      have hhi := hrest.le
      have hlen : hi - e.1 = (e.2.1 + 1 - e.1) + (hi - (e.2.1 + 1)) := by omega
      have hnext : e.1 + 1 * (e.2.1 + 1 - e.1) = e.2.1 + 1 := by omega
      have hcons : entries (e :: lut)
          = (rangeNumbers (e.1, e.2.1)).map (fun k => (k, e.2.2)) ++ entries lut := rfl
      rw [hcons, List.map_append, htail, hlen, ← List.range'_append, hnext, List.map_map]
      simp [rangeNumbers, Function.comp_def]

/-- The entry of a number in a table. -/
theorem Tiles.mem_entries {lut : RepetitionPatternLookup δ} {n : Nat} {data : δ} :
    (n, data) ∈ entries lut ↔ ∃ e ∈ lut, e.1 ≤ n ∧ n ≤ e.2.1 ∧ e.2.2 = data := by
  simp only [entries, List.mem_flatMap, List.mem_map, mem_rangeNumbers, Prod.mk.injEq]
  constructor
  · rintro ⟨e, he, k, ⟨h1, h2⟩, rfl, rfl⟩
    exact ⟨e, he, h1, h2, rfl⟩
  · rintro ⟨e, he, h1, h2, rfl⟩
    exact ⟨e, he, n, ⟨h1, h2⟩, rfl, rfl⟩

/-- A lookup finds the data of the entry that holds the number. -/
theorem Tiles.lookupData_eq {lut : RepetitionPatternLookup δ} {lo hi n : Nat}
    (h : Tiles lo hi lut) (hlo : lo ≤ n) (hhi : n < hi) :
    ∃ data, lut.lookupData n = .ok data ∧ (n, data) ∈ entries lut := by
  induction lut generalizing lo with
  | nil =>
      have hlo' : lo = hi := h
      omega
  | cons e lut ih =>
      rcases h with ⟨rfl, hle, hrest⟩
      by_cases hn : n ≤ e.2.1
      · refine ⟨e.2.2, by simp [lookupData, hn], ?_⟩
        exact mem_entries.2 ⟨e, by simp, hlo, hn, rfl⟩
      · rcases ih hrest (by omega) with ⟨data, hdata, hmem⟩
        refine ⟨data, ?_, ?_⟩
        · simpa [lookupData, List.find?_cons, hn] using hdata
        · rcases mem_entries.1 hmem with ⟨e', he', hrest'⟩
          exact mem_entries.2 ⟨e', List.mem_cons_of_mem _ he', hrest'⟩

/-- Behind the last number nothing is found. -/
theorem Tiles.lookupData_error {lut : RepetitionPatternLookup δ} {lo hi n : Nat}
    (h : Tiles lo hi lut) (hhi : hi ≤ n) : lut.lookupData n = .error .outOfRange := by
  have hnone : lut.find? (fun e => n ≤ e.2.1) = none := by
    induction lut generalizing lo with
    | nil => rfl
    | cons e lut ih =>
        rcases h with ⟨rfl, -, hrest⟩
        have hle := hrest.le
        rw [List.find?_cons_of_neg (by simpa using Nat.lt_of_lt_of_le hle hhi)]
        exact ih hrest
  simp only [lookupData, hnone]

/-! ## Walking a table -/

/-- `for (ii = begin(); ii != end(); ii = next(ii))` from some iterator on: the numbers visited
and their data. -/
def collect (lut : RepetitionPatternLookup δ) :
    Nat → Iterator → Except Fault (List (Nat × δ))
  | 0, iter => if iter = lut.end then .ok [] else .error .noFuel
  | fuel + 1, iter =>
      if iter = lut.end then .ok []
      else
        match lut.getDataFromII iter, lut.next iter with
        | .ok data, .ok iter' =>
            match collect lut fuel iter' with
            | .ok rest => .ok ((iter.2, data) :: rest)
            | .error e => .error e
        | .error e, _ => .error e
        | _, .error e => .error e

theorem collect_end (lut : RepetitionPatternLookup δ) (fuel : Nat) :
    collect lut fuel lut.end = .ok [] := by
  cases fuel <;> simp [collect]

theorem entries_drop {lut : RepetitionPatternLookup δ} {i : Nat} {e : Nat × Nat × δ}
    (h : lut[i]? = some e) :
    entries (lut.drop i)
      = (rangeNumbers (e.1, e.2.1)).map (fun k => (k, e.2.2)) ++ entries (lut.drop (i + 1)) := by
  rcases List.getElem?_eq_some_iff.1 h with ⟨hlt, rfl⟩
  rw [List.drop_eq_getElem_cons hlt]
  rfl

/-- From inside an entry the loop visits the rest of it, then the entries behind it. -/
theorem collect_eq {lut : RepetitionPatternLookup δ} (hle : ∀ e ∈ lut, e.1 ≤ e.2.1) :
    ∀ (fuel i k : Nat) (e : Nat × Nat × δ), lut[i]? = some e → e.1 ≤ k → k ≤ e.2.1 →
      e.2.1 + 1 - k + (entries (lut.drop (i + 1))).length ≤ fuel →
      collect lut fuel (i, k) = .ok
        ((rangeNumbers (k, e.2.1)).map (fun k => (k, e.2.2)) ++ entries (lut.drop (i + 1))) := by
  intro fuel
  induction fuel with
  | zero =>
      intro i k e _ _ hke hfuel
      omega
  | succ fuel ih =>
      intro i k e he hek hke hfuel
      have hlt : i < lut.length := (List.getElem?_eq_some_iff.1 he).1
      have hend : ¬ ((i, k) : Iterator) = lut.end := by
        intro heq
        have := congrArg Prod.fst heq
        simp only [RepetitionPatternLookup.end] at this
        omega
      simp only [collect, if_neg hend, getDataFromII, next, he]
      by_cases hlast : k = e.2.1
      · rw [if_pos hlast]
        have hsingle : rangeNumbers (k, e.2.1) = [k] := by
          rw [← hlast]
          exact rangeNumbers_singleton k
        cases hnext : lut[i + 1]? with
        | none =>
            have hdrop : lut.drop (i + 1) = [] :=
              List.drop_eq_nil_of_le (List.getElem?_eq_none_iff.1 hnext)
            simp [entryStart, hnext, collect_end, hdrop, hsingle, entries]
        | some e' =>
            have hmem := List.mem_of_getElem? hnext
            have hlen := entries_drop hnext
            have hfuel' : e'.2.1 + 1 - e'.1 + (entries (lut.drop (i + 1 + 1))).length ≤ fuel := by
              have hsum := congrArg List.length hlen
              simp only [List.length_append, List.length_map, length_rangeNumbers] at hsum
              omega
            have hrec := ih (i + 1) e'.1 e' hnext (Nat.le_refl _) (hle e' hmem) hfuel'
            simp only [entryStart, hnext, hrec, hsingle, List.map_cons, List.map_nil,
              List.singleton_append]
            rw [hlen]
      · rw [if_neg hlast]
        have hsplit := rangeNumbers_cons (a := k) (b := e.2.1) (by omega)
        have hrec := ih i (k + 1) e he (by omega) (by omega) (by omega)
        simp only [hrec, hsplit, List.map_cons, List.cons_append]

/-- The loop over a whole table visits every number with its data. -/
theorem collect_begin {lut : RepetitionPatternLookup δ} {fuel : Nat}
    (hle : ∀ e ∈ lut, e.1 ≤ e.2.1) (hfuel : (entries lut).length ≤ fuel) :
    collect lut fuel lut.begin = .ok (entries lut) := by
  cases lut with
  | nil => exact collect_end _ _
  | cons e rest =>
      have hhead : (e :: rest)[0]? = some e := rfl
      have hall := entries_drop hhead
      have hsum := congrArg List.length hall
      simp only [List.drop_zero, List.length_append, List.length_map, length_rangeNumbers] at hsum
      have hrec := collect_eq hle fuel 0 e.1 e hhead (Nat.le_refl _) (hle e (by simp)) (by omega)
      rw [← hall] at hrec
      simpa [begin, entryStart] using hrec

theorem Tiles.proper {lut : RepetitionPatternLookup δ} {lo hi : Nat} (h : Tiles lo hi lut) :
    ∀ e ∈ lut, e.1 ≤ e.2.1 := by
  induction lut generalizing lo with
  | nil => simp
  | cons e lut ih =>
      intro e' he'
      rcases h with ⟨rfl, hle, hrest⟩
      rcases List.mem_cons.1 he' with rfl | he'
      · exact hle
      · exact ih hrest e' he'

theorem Tiles.collect_begin {lut : RepetitionPatternLookup δ} {lo hi fuel : Nat}
    (h : Tiles lo hi lut) (hfuel : hi - lo ≤ fuel) :
    collect lut fuel lut.begin = .ok (entries lut) := by
  have hlen : (entries lut).length = hi - lo := by
    have := congrArg List.length h.map_fst_entries
    simpa using this
  exact RepetitionPatternLookup.collect_begin h.proper (by omega)

/-! ## Building a table -/

/-- The order of the map that `buildLut` fills. -/
def Before (e e' : Nat × Nat × δ) : Prop :=
  e.1 < e'.1 ∨ (e.1 = e'.1 ∧ e.2.1 < e'.2.1)

theorem mem_insertRange {r : Nat × Nat} {data : δ} {lut : RepetitionPatternLookup δ}
    {e : Nat × Nat × δ} (h : e ∈ insertRange r data lut) : e = (r.1, r.2, data) ∨ e ∈ lut := by
  induction lut with
  | nil => simpa [insertRange] using h
  | cons e' lut ih =>
      simp only [insertRange] at h
      split at h
      · simpa using h
      · split at h
        · rcases List.mem_cons.1 h with h | h
          · exact Or.inl h
          · exact Or.inr (List.mem_cons_of_mem _ h)
        · rcases List.mem_cons.1 h with h | h
          · exact Or.inr (by simp [h])
          · rcases ih h with h | h
            · exact Or.inl h
            · exact Or.inr (List.mem_cons_of_mem _ h)

theorem pairwise_insertRange (r : Nat × Nat) (data : δ) {lut : RepetitionPatternLookup δ}
    (h : lut.Pairwise Before) : (insertRange r data lut).Pairwise Before := by
  induction lut with
  | nil => simp [insertRange]
  | cons e lut ih =>
      rcases List.pairwise_cons.1 h with ⟨hhead, htail⟩
      simp only [insertRange]
      split
      · rename_i hlt
        refine List.pairwise_cons.2 ⟨?_, h⟩
        intro e' he'
        rcases List.mem_cons.1 he' with rfl | he'
        · exact hlt
        · have hnext := hhead e' he'
          simp only [Before] at hnext ⊢
          omega
      · rename_i hge
        split
        · rename_i heq
          refine List.pairwise_cons.2 ⟨?_, htail⟩
          intro e' he'
          have hnext := hhead e' he'
          simp only [Before] at hnext ⊢
          omega
        · rename_i hne
          refine List.pairwise_cons.2 ⟨?_, ih htail⟩
          intro e' he'
          rcases mem_insertRange he' with rfl | he'
          · simp only [Before]
            omega
          · exact hhead e' he'

/-- A range whose key is new is added. -/
theorem insertRange_perm {r : Nat × Nat} (data : δ) {lut : RepetitionPatternLookup δ}
    (h : ∀ e ∈ lut, (e.1, e.2.1) ≠ r) :
    (insertRange r data lut).Perm ((r.1, r.2, data) :: lut) := by
  induction lut with
  | nil => exact List.Perm.refl _
  | cons e lut ih =>
      simp only [insertRange]
      split
      · exact List.Perm.refl _
      · split
        · rename_i heq
          exact absurd (Prod.ext heq.1.symm heq.2.symm) (h e (by simp))
        · exact ((ih fun e' he' => h e' (List.mem_cons_of_mem _ he')).cons e).trans
            (List.Perm.swap _ _ _)

/-- All ranges of the patterns, each with the data of its pattern. -/
def allRanges (d : List (RepetitionPattern × δ)) : RepetitionPatternLookup δ :=
  d.flatMap fun i => i.1.map fun r => (r.1, r.2, i.2)

theorem buildLut_eq_foldl (d : List (RepetitionPattern × δ)) :
    buildLut d = (allRanges d).foldl (fun lut e => insertRange (e.1, e.2.1) e.2.2 lut) [] := by
  have hgen : ∀ (d : List (RepetitionPattern × δ)) (lut : RepetitionPatternLookup δ),
      d.foldl (fun lut i => i.1.foldl (fun lut r => insertRange r i.2 lut) lut) lut
        = (allRanges d).foldl (fun lut e => insertRange (e.1, e.2.1) e.2.2 lut) lut := by
    intro d
    induction d with
    | nil =>
        intro lut
        rfl
    | cons i d ih =>
        intro lut
        have hcons : allRanges (i :: d) = i.1.map (fun r => (r.1, r.2, i.2)) ++ allRanges d := rfl
        rw [hcons, List.foldl_append, List.foldl_map, List.foldl_cons, ih]
  exact hgen d []

/-- Ranges that do not meet are all kept, in ascending order. -/
theorem foldl_insertRange (es : RepetitionPatternLookup δ) :
    ∀ lut : RepetitionPatternLookup δ, lut.Pairwise Before →
      (lut ++ es).Pairwise (fun e e' => (e.1, e.2.1) ≠ (e'.1, e'.2.1)) →
      let built := es.foldl (fun lut e => insertRange (e.1, e.2.1) e.2.2 lut) lut
      built.Pairwise Before ∧ built.Perm (lut ++ es) := by
  induction es with
  | nil =>
      intro lut hlut _
      simpa using hlut
  | cons e es ih =>
      intro lut hlut hdistinct
      have hnew : ∀ e' ∈ lut, (e'.1, e'.2.1) ≠ (e.1, e.2.1) := by
        intro e' he'
        exact (List.pairwise_append.1 hdistinct).2.2 e' he' e (by simp)
      have hperm := insertRange_perm e.2.2 hnew
      have hmid : (insertRange (e.1, e.2.1) e.2.2 lut ++ es).Perm (lut ++ e :: es) :=
        (hperm.append_right es).trans List.perm_middle.symm
      have hdistinct' : (insertRange (e.1, e.2.1) e.2.2 lut ++ es).Pairwise
          (fun e e' => (e.1, e.2.1) ≠ (e'.1, e'.2.1)) :=
        (hmid.pairwise_iff fun {_ _} hab => hab.symm).2 hdistinct
      rcases ih _ (pairwise_insertRange _ _ hlut) hdistinct' with ⟨hsorted, hbuilt⟩
      exact ⟨hsorted, hbuilt.trans hmid⟩

/-- Sorted ranges that split an interval tile it. -/
theorem tiles_of_perm {lut : RepetitionPatternLookup δ} {lo hi : Nat} (hlo : lo ≤ hi)
    (hsorted : lut.Pairwise Before) (hle : ∀ e ∈ lut, e.1 ≤ e.2.1)
    (hperm : (lut.flatMap fun e => rangeNumbers (e.1, e.2.1)).Perm (List.range' lo (hi - lo))) :
    Tiles lo hi lut := by
  induction lut generalizing lo with
  | nil =>
      have hlen := hperm.length_eq
      simp only [List.flatMap_nil, List.length_nil, List.length_range'] at hlen
      have heq : lo = hi := by omega
      exact heq
  | cons e lut ih =>
      rcases List.pairwise_cons.1 hsorted with ⟨hhead, htail⟩
      have hele := hle e (by simp)
      have hmem : ∀ k, (lo ≤ k ∧ k < hi) ↔ ∃ e' ∈ e :: lut, e'.1 ≤ k ∧ k ≤ e'.2.1 := by
        intro k
        have h := hperm.mem_iff (a := k)
        simp only [List.mem_flatMap, mem_rangeNumbers, List.mem_range'_1] at h
        rw [h]
        omega
      have hstart : e.1 = lo := by
        have hself := (hmem e.1).2 ⟨e, by simp, Nat.le_refl _, hele⟩
        rcases (hmem lo).1 (by omega) with ⟨e', he', hlo', -⟩
        rcases List.mem_cons.1 he' with rfl | he'
        · omega
        · have hb := hhead e' he'
          simp only [Before] at hb
          omega
      have hend := (hmem e.2.1).2 ⟨e, by simp, hele, Nat.le_refl _⟩
      refine ⟨hstart, by omega, ih (by omega) htail (fun e' he' => hle e' (by simp [he'])) ?_⟩
      -- what the first range covers is a prefix of the interval
      have hsplit : List.range' lo (hi - lo)
          = rangeNumbers (e.1, e.2.1) ++ List.range' (e.2.1 + 1) (hi - (e.2.1 + 1)) := by
        have hlen : hi - lo = (e.2.1 + 1 - e.1) + (hi - (e.2.1 + 1)) := by omega
        have hnext : lo + 1 * (e.2.1 + 1 - e.1) = e.2.1 + 1 := by omega
        rw [hlen, ← List.range'_append, hnext, rangeNumbers, hstart]
      rw [List.flatMap_cons, hsplit] at hperm
      exact (List.perm_append_left_iff _).1 hperm

theorem le_of_mem_allRanges {d : List (RepetitionPattern × δ)}
    (hproper : ∀ i ∈ d, ∀ r ∈ i.1, r.1 ≤ r.2) : ∀ e ∈ allRanges d, e.1 ≤ e.2.1 := by
  intro e he
  rcases List.mem_flatMap.1 he with ⟨i, hi, he⟩
  rcases List.mem_map.1 he with ⟨r, hr, rfl⟩
  exact hproper i hi r hr

theorem mem_entries_allRanges {d : List (RepetitionPattern × δ)} {n : Nat} {data : δ} :
    (n, data) ∈ entries (allRanges d) ↔ ∃ i ∈ d, n ∈ numbers i.1 ∧ i.2 = data := by
  rw [Tiles.mem_entries]
  constructor
  · rintro ⟨e, he, hlow, hhigh, hdata⟩
    rcases List.mem_flatMap.1 he with ⟨i, hi, he⟩
    rcases List.mem_map.1 he with ⟨r, hr, rfl⟩
    exact ⟨i, hi, mem_numbers.2 ⟨r, hr, hlow, hhigh⟩, hdata⟩
  · rintro ⟨i, hi, hn, hdata⟩
    rcases mem_numbers.1 hn with ⟨r, hr, hlow, hhigh⟩
    refine ⟨(r.1, r.2, i.2), ?_, hlow, hhigh, hdata⟩
    exact List.mem_flatMap.2 ⟨i, hi, List.mem_map.2 ⟨r, hr, rfl⟩⟩

/-- A table built from ranges that are all different has all of them, in ascending order. -/
theorem sorted_buildLut {d : List (RepetitionPattern × δ)}
    (hdistinct : (allRanges d).Pairwise (fun e e' => (e.1, e.2.1) ≠ (e'.1, e'.2.1))) :
    (buildLut d).Pairwise Before ∧ (buildLut d).Perm (allRanges d) := by
  rw [buildLut_eq_foldl]
  exact foldl_insertRange (allRanges d) [] List.Pairwise.nil hdistinct

/-- A table built from patterns that split an interval tiles it, and holds their data. -/
theorem tiles_buildLut {d : List (RepetitionPattern × δ)} {lo hi : Nat} (hlo : lo ≤ hi)
    (hproper : ∀ i ∈ d, ∀ r ∈ i.1, r.1 ≤ r.2)
    (hperm : (d.flatMap fun i => numbers i.1).Perm (List.range' lo (hi - lo))) :
    Tiles lo hi (buildLut d) ∧
      ∀ k data, (k, data) ∈ entries (buildLut d) ↔ ∃ i ∈ d, k ∈ numbers i.1 ∧ i.2 = data := by
  have hnumbers : (allRanges d).flatMap (fun e => rangeNumbers (e.1, e.2.1))
      = d.flatMap fun i => numbers i.1 := by
    rw [allRanges, List.flatMap_assoc]
    congr 1
    funext i
    simp [numbers, List.flatMap_map]
  have hle := le_of_mem_allRanges hproper
  have hnodup : ((allRanges d).flatMap fun e => rangeNumbers (e.1, e.2.1)).Nodup := by
    rw [hnumbers]
    exact hperm.nodup_iff.2 List.nodup_range'
  have hdistinct : (allRanges d).Pairwise (fun e e' => (e.1, e.2.1) ≠ (e'.1, e'.2.1)) := by
    refine ((List.nodup_flatMap.1 hnodup).2.imp_of_mem ?_)
    intro e e' he _ hdisj heq
    have hmem : e.1 ∈ rangeNumbers (e.1, e.2.1) := mem_rangeNumbers.2 ⟨Nat.le_refl _, hle e he⟩
    have hmem' : e.1 ∈ rangeNumbers (e'.1, e'.2.1) := by rwa [← heq]
    exact hdisj hmem hmem'
  rcases sorted_buildLut hdistinct with ⟨hsorted, hbuilt⟩
  constructor
  · refine tiles_of_perm hlo hsorted (fun e he => hle e (hbuilt.mem_iff.1 he)) ?_
    exact ((hbuilt.flatMap_right _).trans (List.Perm.of_eq hnumbers)).trans hperm
  · intro k data
    rw [← mem_entries_allRanges]
    exact (hbuilt.flatMap_right _).mem_iff

end RepetitionPatternLookup
end CamAlias
