import CamAlias.Analyser.RepetitionPattern

/-!
# SortedLookup — a range table that grows while it is searched

`RepetitionPatternSortedLookup` of `RepetitionPattern.cpp`: a `set` of ranges with data, ordered by
the range ends.  Unlike `RepetitionPatternLookup` it need not cover an interval, so a search also
looks at the beginning of the range that it finds.
-/

namespace CamAlias

open Lib

/-- `set<tuple<uint64_t, uint64_t, Data>, LutCompare>`. -/
abbrev RepetitionPatternSortedLookup (δ : Type _) := List (Nat × Nat × δ)

namespace RepetitionPatternSortedLookup

variable {δ : Type _}

/-- `set::insert`, which keeps an element with the same range end. -/
def insert (e : Nat × Nat × δ) : RepetitionPatternSortedLookup δ → RepetitionPatternSortedLookup δ
  | [] => [e]
  | e' :: lut =>
      if e.2.1 < e'.2.1 then e :: e' :: lut
      else if e'.2.1 < e.2.1 then e' :: insert e lut
      else e' :: lut

/-- `RepetitionPatternSortedLookup::insertToLut`. -/
def insertToLut (lut : RepetitionPatternSortedLookup δ) (rp : RepetitionPattern) (data : δ) :
    RepetitionPatternSortedLookup δ :=
  rp.foldl (fun lut r => insert (r.1, r.2, data) lut) lut

/-- `RepetitionPatternSortedLookup::lookupData`, `none` for `end()`. -/
def lookupData (lut : RepetitionPatternSortedLookup δ) (n : Nat) : Option δ :=
  match lut.find? fun e => n ≤ e.2.1 with
  | none => none
  | some e => if n < e.1 then none else some e.2.2

/-- The ranges are not empty and do not meet. -/
structure Sorted (lut : RepetitionPatternSortedLookup δ) : Prop where
  pairwise : lut.Pairwise fun e e' => e.2.1 < e'.1
  le : ∀ e ∈ lut, e.1 ≤ e.2.1

variable {lut : RepetitionPatternSortedLookup δ}

theorem Sorted.nil : Sorted ([] : RepetitionPatternSortedLookup δ) :=
  ⟨List.Pairwise.nil, by simp⟩

/-- A search finds the data of the range that holds the number. -/
theorem Sorted.lookupData_eq_some_iff (h : Sorted lut) {n : Nat} {data : δ} :
    lut.lookupData n = some data ↔ ∃ e ∈ lut, e.1 ≤ n ∧ n ≤ e.2.1 ∧ e.2.2 = data := by
  induction lut with
  | nil => simp [lookupData]
  | cons e lut ih =>
      rcases List.pairwise_cons.1 h.pairwise with ⟨hhead, htail⟩
      have ih := ih ⟨htail, fun e' he' => h.le e' (List.mem_cons_of_mem _ he')⟩
      by_cases hend : n ≤ e.2.1
      · -- the first range that ends at `n` or later; the others begin behind it
        have hothers : ∀ e' ∈ lut, ¬ (e'.1 ≤ n) := by
          intro e' he'
          have := hhead e' he'
          omega
        have hfind : (e :: lut).find? (fun e => n ≤ e.2.1) = some e := by simp [hend]
        have hlookup : lookupData (e :: lut) n = if n < e.1 then none else some e.2.2 := by
          rw [lookupData, hfind]
        rw [hlookup]
        constructor
        · intro hdata
          split at hdata
          · simp at hdata
          · exact ⟨e, by simp, by omega, hend, by simpa using hdata⟩
        · rintro ⟨e', he', hstart, -, rfl⟩
          rcases List.mem_cons.1 he' with rfl | he'
          · rw [if_neg (by omega)]
          · exact absurd hstart (hothers e' he')
      · have hskip : lookupData (e :: lut) n = lookupData lut n := by
          have hfind : (e :: lut).find? (fun e => n ≤ e.2.1) = lut.find? fun e => n ≤ e.2.1 := by
            simp [hend]
          rw [lookupData, lookupData, hfind]
        rw [hskip, ih]
        constructor
        · rintro ⟨e', he', hrest⟩
          exact ⟨e', List.mem_cons_of_mem _ he', hrest⟩
        · rintro ⟨e', he', hstart, hend', hdata⟩
          rcases List.mem_cons.1 he' with rfl | he'
          · exact absurd hend' hend
          · exact ⟨e', he', hstart, hend', hdata⟩

/-- A range that meets no other is added. -/
theorem Sorted.insert {e : Nat × Nat × δ} (h : Sorted lut) (hle : e.1 ≤ e.2.1)
    (hnew : ∀ e' ∈ lut, e.2.1 < e'.1 ∨ e'.2.1 < e.1) :
    Sorted (RepetitionPatternSortedLookup.insert e lut) ∧
      ∀ e', e' ∈ RepetitionPatternSortedLookup.insert e lut ↔ e' = e ∨ e' ∈ lut := by
  induction lut with
  | nil =>
      refine ⟨⟨by simp [RepetitionPatternSortedLookup.insert], ?_⟩, ?_⟩
      · intro e' he'
        rcases List.mem_singleton.1 he' with rfl
        exact hle
      · simp [RepetitionPatternSortedLookup.insert]
  | cons x lut ih =>
      rcases List.pairwise_cons.1 h.pairwise with ⟨hhead, htail⟩
      have hx := h.le x (by simp)
      have hex := hnew x (by simp)
      rcases ih ⟨htail, fun e' he' => h.le e' (List.mem_cons_of_mem _ he')⟩
        (fun e' he' => hnew e' (List.mem_cons_of_mem _ he')) with ⟨hsorted, hmem⟩
      simp only [RepetitionPatternSortedLookup.insert]
      by_cases hlt : e.2.1 < x.2.1
      · rw [if_pos hlt]
        refine ⟨⟨?_, ?_⟩, fun e' => by simp⟩
        · refine List.pairwise_cons.2 ⟨?_, h.pairwise⟩
          intro e' he'
          rcases List.mem_cons.1 he' with rfl | he'
          · omega
          · have := hhead e' he'
            omega
        · intro e' he'
          rcases List.mem_cons.1 he' with rfl | he'
          · exact hle
          · exact h.le e' he'
      · have hgt : x.2.1 < e.2.1 := by omega
        rw [if_neg hlt, if_pos hgt]
        refine ⟨⟨?_, ?_⟩, ?_⟩
        · refine List.pairwise_cons.2 ⟨?_, hsorted.pairwise⟩
          intro e' he'
          rcases (hmem e').1 he' with rfl | he'
          · omega
          · exact hhead e' he'
        · intro e' he'
          rcases List.mem_cons.1 he' with rfl | he'
          · exact hx
          · exact hsorted.le e' he'
        · intro e'
          simp only [List.mem_cons, hmem]
          tauto

/-- An ascending pattern that meets no range of the table is added. -/
theorem Sorted.insertToLut {rp : RepetitionPattern} {data : δ} (h : Sorted lut)
    (hasc : Ascending rp) (hnew : ∀ e ∈ lut, ∀ n ∈ numbers rp, ¬ (e.1 ≤ n ∧ n ≤ e.2.1)) :
    Sorted (lut.insertToLut rp data) ∧
      ∀ e, e ∈ lut.insertToLut rp data ↔ e ∈ lut ∨ ∃ r ∈ rp, e = (r.1, r.2, data) := by
  induction rp generalizing lut with
  | nil => exact ⟨h, by simp [RepetitionPatternSortedLookup.insertToLut]⟩
  | cons r rp ih =>
      rcases hasc with ⟨hle, hbefore, hasc⟩
      have hapart : ∀ e' ∈ lut, r.2 < e'.1 ∨ e'.2.1 < r.1 := by
        intro e' he'
        have hfirst := hnew e' he' r.1 (mem_numbers.2 ⟨r, by simp, Nat.le_refl _, hle⟩)
        have hstart := h.le e' he'
        -- otherwise the range would begin inside `r`
        by_contra hmeet
        have hinside := hnew e' he' e'.1 (mem_numbers.2 ⟨r, by simp, by omega, by omega⟩)
        omega
      rcases h.insert (e := (r.1, r.2, data)) hle hapart with ⟨hsorted, hmem⟩
      have hnew' : ∀ e ∈ RepetitionPatternSortedLookup.insert (r.1, r.2, data) lut,
          ∀ n ∈ numbers rp, ¬ (e.1 ≤ n ∧ n ≤ e.2.1) := by
        intro e he n hn
        rcases (hmem e).1 he with rfl | he
        · rcases mem_numbers.1 hn with ⟨r', hr', hstart, -⟩
          have := hbefore r' hr'
          simp only
          omega
        · exact hnew e he n (by simp [hn])
      rcases ih hsorted hasc hnew' with ⟨hsorted', hmem'⟩
      refine ⟨hsorted', ?_⟩
      intro e
      have hstep : (lut.insertToLut (r :: rp) data)
          = (RepetitionPatternSortedLookup.insert (r.1, r.2, data) lut).insertToLut rp data := rfl
      rw [hstep, hmem', hmem]
      simp only [List.mem_cons, exists_eq_or_imp]
      tauto

end RepetitionPatternSortedLookup
end CamAlias
