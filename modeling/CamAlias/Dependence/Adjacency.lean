import CamAlias.Dependence.References

/-!
# Adjacency — the pairs that depend on their neighbours all along

With `adjacent` the analyser marks, for every pair and invocation, the iterations that have a dependence
on a neighbouring iteration, and erases the pair if not all bits are set up to the last one.  So a pair
stays on the menu if the marked iterations are the first ones of the invocation, without a gap, or if
neither instruction has an instance.

* `searchEntries_marks`: what the two loops mark;
* `StandFor.comesTo_adjacent`: a pass keeps the pairs that stay on the menu.
-/

namespace CamAlias

open Lib

/-! ## References -/

/-- One iteration follows the other. -/
def Neighbours (it1 it2 : Nat) : Prop :=
  it1 = it2 + 1 ∨ it2 = it1 + 1

instance (it1 it2 : Nat) : Decidable (Neighbours it1 it2) :=
  inferInstanceAs (Decidable (_ ∨ _))

theorem Neighbours.ne {it1 it2 : Nat} (h : Neighbours it1 it2) : it1 ≠ it2 := by
  rcases h with rfl | rfl
  · exact Nat.succ_ne_self it2
  · exact (Nat.succ_ne_self it1).symm

/-- The iterations of the conflicts between neighbours. -/
def adjacentIterations (refs : UInt64 × Stream → List TaggedReference) (WAW : Bool)
    (instrPair : UInt64 × UInt64) : List Nat :=
  (refs (instrPair.1, .write)).flatMap fun write =>
    ((refs (instrPair.2, secondStream WAW)).filter fun read =>
        Neighbours write.1.1 read.1.1 ∧ write.2.SharesByte read.2).flatMap
      fun read => [write.1.1, read.1.1]

theorem mem_adjacentIterations {refs : UInt64 × Stream → List TaggedReference} {WAW : Bool}
    {instrPair : UInt64 × UInt64} {k : Nat} :
    k ∈ adjacentIterations refs WAW instrPair ↔
      ∃ write read, Conflict refs WAW instrPair write read ∧
        Neighbours write.1.1 read.1.1 ∧ (k = write.1.1 ∨ k = read.1.1) := by
  simp only [adjacentIterations, List.mem_flatMap, List.mem_filter, decide_eq_true_eq,
    List.mem_cons, List.not_mem_nil, or_false]
  constructor
  · rintro ⟨write, hwrite, read, ⟨hread, hnear, hbyte⟩, hk⟩
    exact ⟨write, read, ⟨hwrite, hread, hnear.ne, hbyte⟩, hnear, hk⟩
  · rintro ⟨write, read, ⟨hwrite, hread, -, hbyte⟩, hnear, hk⟩
    exact ⟨write, hwrite, read, ⟨hread, hnear, hbyte⟩, hk⟩

/-- The iterations that depend on a neighbour are the first ones. -/
def DependsOnNeighbours (refs : UInt64 × Stream → List TaggedReference) (WAW : Bool)
    (instrPair : UInt64 × UInt64) : Prop :=
  adjacentIterations refs WAW instrPair ≠ [] ∧
    ∀ k ∈ adjacentIterations refs WAW instrPair, ∀ j < k,
      j ∈ adjacentIterations refs WAW instrPair

/-- A pair that stays on the menu behind an invocation. -/
def StaysOn (refs : UInt64 × Stream → List TaggedReference) (WAW : Bool)
    (instrPair : UInt64 × UInt64) : Prop :=
  (refs (instrPair.1, .write) = [] ∧ refs (instrPair.2, secondStream WAW) = []) ∨
    DependsOnNeighbours refs WAW instrPair

instance (refs : UInt64 × Stream → List TaggedReference) (WAW : Bool) (instrPair : UInt64 × UInt64) :
    Decidable (DependsOnNeighbours refs WAW instrPair) :=
  inferInstanceAs (Decidable (_ ≠ _ ∧ ∀ k ∈ _, ∀ j < k, j ∈ _))

instance (refs : UInt64 × Stream → List TaggedReference) (WAW : Bool) (instrPair : UInt64 × UInt64) :
    Decidable (StaysOn refs WAW instrPair) :=
  inferInstanceAs (Decidable ((_ ∧ _) ∨ DependsOnNeighbours refs WAW instrPair))

/-- What references show with `adjacent`. -/
def adjacentOutcomes (refs : UInt64 × Stream → List TaggedReference) : Outcomes where
  shows _ _ _ := False
  erased WAW instrPair := !decide (StaysOn refs WAW instrPair)

/-! ## The iterations that are marked -/

theorem areAdjacent_iff {it1 it2 : Nat} (h1 : it1 < 2 ^ 31) (h2 : it2 < 2 ^ 31) (hne : it1 ≠ it2) :
    areAdjacent it1 it2 = true ↔ Neighbours it1 it2 := by
  have hsub : (Int64.ofNat it1 - Int64.ofNat it2).toInt = (it1 : Int) - it2 := by
    rw [Int64.toInt_sub, Int64.toInt_ofNat', Int64.toInt_ofNat']
    simp only [Int64.size, Int.bmod]
    omega
  have hneg : (-(Int64.ofNat it1 - Int64.ofNat it2)).toInt = (it2 : Int) - it1 := by
    rw [Int64.toInt_neg, hsub]
    simp only [Int.bmod]
    omega
  have hzero : (0 : Int64).toInt = 0 := rfl
  have htwo : (2 : Int64).toInt = 2 := rfl
  simp only [areAdjacent, decide_eq_true_iff, Int64.lt_iff_toInt_lt, Neighbours]
  split
  · rename_i hless
    rw [hsub, hzero] at hless
    rw [hneg, htwo]
    omega
  · rename_i hless
    rw [hsub, hzero] at hless
    rw [hsub, htwo]
    omega

/-- Bits that have been set from one position on. -/
structure Marks (words : XanBitWords) (marked : BoundedSet) : Prop where
  holds : words.Holds marked
  tight : marked.Tight
  length_lt : marked.length < 2 ^ 31

theorem marks_new : Marks (XanBitWords.new 1) (BoundedSet.new 1) :=
  ⟨XanBitWords.holds_new 1, BoundedSet.tight_new, by decide⟩

theorem Marks.setBit {words : XanBitWords} {marked : BoundedSet} (h : Marks words marked) {pos : Nat}
    (hpos : pos + 1 < 2 ^ 31) : Marks (words.setBit pos) (marked.setBit pos) :=
  ⟨h.holds.setBit pos, h.tight.setBit, Nat.max_lt.2 ⟨h.length_lt, hpos⟩⟩

variable {args : AnalysisArgs} {isAlias : MemSetEntry → MemSetEntry → Option Bool}
  {subInstrList : Finset UInt64} {inv : InvocationTraces} {WAW : Bool} {instrPair : UInt64 × UInt64}

/-- The iterations that the loops mark for some entries. -/
def MarkedFor (isAlias : MemSetEntry → MemSetEntry → Option Bool)
    (found : List (MemSetEntry × MemSetEntry)) (k : Nat) : Prop :=
  ∃ x ∈ found, Aliases isAlias x.1 x.2 ∧ Neighbours x.1.iterationNumber x.2.iterationNumber ∧
    (k = x.1.iterationNumber ∨ k = x.2.iterationNumber)

/-- Entries with which the loops go on. -/
structure Markable (isAlias : MemSetEntry → MemSetEntry → Option Bool) (write read : MemSetEntry) :
    Prop where
  decided : ∃ b, isAlias write read = some b
  write_lt : write.iterationNumber + 1 < 2 ^ 31
  read_lt : read.iterationNumber + 1 < 2 ^ 31

variable (subInstrList inv WAW instrPair) in
/-- The loops mark the iterations, and record nothing. -/
theorem searchEntries_marks (hargs : args.adjacent = true)
    (found : List (MemSetEntry × MemSetEntry)) :
    ∀ {st : PairSearch} {marked : BoundedSet}, Marks st.iterationsWithAdjacentDependence marked →
      (∀ x ∈ found, Markable isAlias x.1 x.2) →
      ∃ (st' : PairSearch) (marked' : BoundedSet),
        searchEntries isAlias (foundAlias args subInstrList inv WAW instrPair) found st
          = .ok (st', false) ∧
        st'.dependence_pairs = st.dependence_pairs ∧
        Marks st'.iterationsWithAdjacentDependence marked' ∧
        ∀ k, k ∈ marked'.members ↔ k ∈ marked.members ∨ MarkedFor isAlias found k := by
  induction found with
  | nil =>
      intro st marked hmarks _
      exact ⟨st, marked, rfl, rfl, hmarks, by simp [MarkedFor]⟩
  | cons x found ih =>
      rcases x with ⟨write, read⟩
      intro st marked hmarks hfound
      rcases List.forall_mem_cons.1 hfound with ⟨hfirst, hothers⟩
      have hcons : ∀ k, MarkedFor isAlias ((write, read) :: found) k ↔
          MarkedFor isAlias [(write, read)] k ∨ MarkedFor isAlias found k := by
        intro k
        simp only [MarkedFor, List.exists_mem_cons_iff, List.not_mem_nil, false_and, exists_false,
          or_false]
      -- a pair of entries that marks nothing
      have hpass : ¬ (∃ k, MarkedFor isAlias [(write, read)] k) →
          ∃ (st' : PairSearch) (marked' : BoundedSet),
            searchEntries isAlias (foundAlias args subInstrList inv WAW instrPair) found st
              = .ok (st', false) ∧
            st'.dependence_pairs = st.dependence_pairs ∧
            Marks st'.iterationsWithAdjacentDependence marked' ∧
            ∀ k, k ∈ marked'.members ↔
              k ∈ marked.members ∨ MarkedFor isAlias ((write, read) :: found) k := by
        intro hnone
        rcases ih hmarks hothers with ⟨st', marked', hok, hpairs, hmarks', hmem⟩
        refine ⟨st', marked', hok, hpairs, hmarks', fun k => ?_⟩
        rw [hmem, hcons, or_iff_right fun hk => hnone ⟨k, hk⟩]
      rw [searchEntries]
      by_cases hiteration : write.iterationNumber = read.iterationNumber
      · rw [if_pos hiteration]
        refine hpass ?_
        rintro ⟨k, x, hx, halias, -⟩
        rcases List.mem_singleton.1 hx with rfl
        exact halias.1 hiteration
      · rw [if_neg hiteration]
        rcases hfirst.decided with ⟨b, hb⟩
        rw [hb]
        cases b with
        | false =>
            refine hpass ?_
            rintro ⟨k, x, hx, halias, -⟩
            rcases List.mem_singleton.1 hx with rfl
            cases hb.symm.trans halias.2
        | true =>
            have hnear := areAdjacent_iff (Nat.lt_of_succ_lt hfirst.write_lt)
              (Nat.lt_of_succ_lt hfirst.read_lt) hiteration
            by_cases hadjacent : areAdjacent write.iterationNumber read.iterationNumber = true
            · let st₁ : PairSearch :=
                { st with
                  iterationsWithAdjacentDependence :=
                    (st.iterationsWithAdjacentDependence.setBit write.iterationNumber).setBit
                      read.iterationNumber }
              have hset : foundAlias args subInstrList inv WAW instrPair write read st
                  = .ok (st₁, false) := by
                simp only [foundAlias, hargs, hadjacent, if_true]
                rfl
              have hmarks₁ : Marks st₁.iterationsWithAdjacentDependence
                  ((marked.setBit write.iterationNumber).setBit read.iterationNumber) :=
                (hmarks.setBit hfirst.write_lt).setBit hfirst.read_lt
              rcases ih hmarks₁ hothers with ⟨st', marked', hok, hpairs, hmarks', hmem⟩
              refine ⟨st', marked', ?_, hpairs, hmarks', fun k => ?_⟩
              · simp only [hset, hok]
              · have hboth : MarkedFor isAlias [(write, read)] k ↔
                    k = write.iterationNumber ∨ k = read.iterationNumber := by
                  constructor
                  · rintro ⟨x, hx, -, -, hk⟩
                    rcases List.mem_singleton.1 hx with rfl
                    exact hk
                  · exact fun hk => ⟨(write, read), List.mem_singleton_self _, ⟨hiteration, hb⟩,
                      hnear.1 hadjacent, hk⟩
                rw [hmem, hcons, hboth, BoundedSet.mem_setBit, BoundedSet.mem_setBit, or_assoc,
                  or_assoc, or_assoc]
            · have hset : foundAlias args subInstrList inv WAW instrPair write read st
                  = .ok (st, false) := by
                simp only [foundAlias, hargs, if_true, if_neg hadjacent]
              simp only [hset]
              refine hpass ?_
              rintro ⟨k, x, hx, -, hneighbours, -⟩
              rcases List.mem_singleton.1 hx with rfl
              exact hadjacent (hnear.2 hneighbours)

/-! ## The search for a pair -/

/-- The search for a pair with `adjacent`: it is erased unless the marked iterations are the first
ones. -/
theorem searchesPair_adjacent (hargs : args.adjacent = true) {fuel : Nat}
    {writes reads : List MemSetEntry} (hfuel : writes.length ≤ fuel)
    (marked : List Nat) (hmarkable : ∀ write ∈ writes, ∀ read ∈ reads, ExtentsOverlap write read →
      Markable isAlias write read)
    (hmarked : ∀ k, (∃ write read, (write ∈ writes ∧ read ∈ reads ∧ ExtentsOverlap write read) ∧
        Aliases isAlias write read ∧ Neighbours write.iterationNumber read.iterationNumber ∧
          (k = write.iterationNumber ∨ k = read.iterationNumber)) ↔ k ∈ marked) {erased : Bool}
    (herased : (¬ (marked ≠ [] ∧ ∀ k ∈ marked, ∀ j < k, j ∈ marked)) ↔ erased = true) :
    SearchesPair args isAlias fuel subInstrList inv WAW instrPair writes reads (fun _ => False)
      erased := by
  intro tree hvalid hcontents pairs
  have hcompared : ∀ write read, (write, read) ∈ compared tree reads ↔
      write ∈ writes ∧ read ∈ reads ∧ ExtentsOverlap write read :=
    fun _ _ => mem_compared hvalid hcontents
  have hall : ∀ x ∈ compared tree reads, Markable isAlias x.1 x.2 := by
    intro x hx
    rcases (hcompared x.1 x.2).1 hx with ⟨hwrite, hread, hoverlap⟩
    exact hmarkable x.1 hwrite x.2 hread hoverlap
  let st : PairSearch := ⟨XanBitWords.new 1, pairs⟩
  have hnew : Marks st.iterationsWithAdjacentDependence (BoundedSet.new 1) := marks_new
  rcases searchEntries_marks subInstrList inv WAW instrPair hargs (compared tree reads) hnew hall
    with ⟨st', set, hok, hpairs, hmarks, hmem⟩
  have hset : ∀ k, k ∈ set.members ↔ k ∈ marked := by
    intro k
    have hnew : k ∉ (BoundedSet.new 1).members := id
    rw [hmem, or_iff_right hnew, ← hmarked]
    constructor
    · rintro ⟨x, hx, hrest⟩
      exact ⟨x.1, x.2, (hcompared x.1 x.2).1 hx, hrest⟩
    · rintro ⟨write, read, hfound, hrest⟩
      exact ⟨(write, read), (hcompared write read).2 hfound, hrest⟩
  -- as many bits as the set is long: no iteration below the last marked one is left out
  have hcount : toSize st'.iterationsWithAdjacentDependence.getCountOfBitsSet
        = st'.iterationsWithAdjacentDependence.length ↔
      marked ≠ [] ∧ ∀ k ∈ marked, ∀ j < k, j ∈ marked := by
    rw [hmarks.holds.getCountOfBitsSet_eq_iff hmarks.length_lt, hmarks.tight.forall_mem_iff]
    simp only [hset]
    refine and_congr_left fun _ => ⟨?_, List.exists_mem_of_ne_nil marked⟩
    rintro ⟨k, hk⟩
    exact List.ne_nil_of_mem hk
  have hread : checkReads isAlias (foundAlias args subInstrList inv WAW instrPair) fuel tree reads st
      = .ok (st', false) := by
    rw [checkReads_eq isAlias _ hvalid hcontents hfuel, hok]
  refine ⟨pairs, ?_, fun x => (or_iff_left id).symm⟩
  rw [searchPair, hread]
  cases herase : erased with
  | true =>
      have hne := (not_congr hcount).2 (herased.2 herase)
      simp only [hargs, hne, ne_eq, not_false_eq_true, and_self, if_true, hpairs, st]
  | false =>
      have heq := hcount.2 (of_not_not fun h => by
        rw [herased.1 h] at herase
        cases herase)
      simp only [heq, ne_eq, not_true_eq_false, and_false, if_false, hpairs, st]

section References

variable {slice : UInt64 × Stream → List MemSetEntry}
  {refs : UInt64 × Stream → List TaggedReference} {needs : UInt64 × Stream → Prop}
  {streams : UInt64 × Stream → List Reference}

/-- A pass with `adjacent` keeps the pairs that stay on the menu. -/
theorem StandFor.comesTo_adjacent (hargs : args.adjacent = true)
    (h : StandFor needs streams slice refs) (htest : DecidesSharing needs streams isAlias)
    (hneeds : ∀ key, NeedsOf WAW instrPair key → needs key)
    (hskip : inv.Skips subInstrList instrPair ↔
      refs (instrPair.1, .write) = [] ∧ refs (instrPair.2, secondStream WAW) = [])
    (hiteration : ∀ key, NeedsOf WAW instrPair key → ∀ r ∈ refs key, r.1.1 + 1 < 2 ^ 31) {fuel : Nat}
    (hfuel : (slice (instrPair.1, .write)).length ≤ fuel) :
    ComesTo args isAlias fuel subInstrList inv slice WAW (adjacentOutcomes refs) instrPair := by
  constructor
  · intro hnot
    rw [hskip] at hnot
    refine searchesPair_adjacent hargs hfuel (adjacentIterations refs WAW instrPair) ?_
      (fun k => ?_) ?_
    · intro write hwrite read hread hoverlap
      refine ⟨h.decided htest hneeds ⟨hwrite, hread, hoverlap⟩, ?_, ?_⟩
      · rcases h.exists_of_mem (hneeds _ (Or.inl rfl)) hwrite with ⟨r, hr, htag⟩
        have hlt := hiteration _ (Or.inl rfl) r hr
        rwa [htag] at hlt
      · rcases h.exists_of_mem (hneeds _ (Or.inr rfl)) hread with ⟨r, hr, htag⟩
        have hlt := hiteration _ (Or.inr rfl) r hr
        rwa [htag] at hlt
    · exact (h.exists_conflict_iff htest hneeds fun a b =>
        Neighbours a.1 b.1 ∧ (k = a.1 ∨ k = b.1)).trans mem_adjacentIterations.symm
    · simp only [adjacentOutcomes, Bool.not_eq_true', decide_eq_false_iff_not, StaysOn,
        or_iff_right hnot]
      rfl
  · intro hskips
    refine ⟨fun _ => id, ?_⟩
    simp only [adjacentOutcomes, Bool.not_eq_false', decide_eq_true_eq]
    exact Or.inl (hskip.1 hskips)

end References
end CamAlias
