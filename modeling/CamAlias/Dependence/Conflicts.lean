import CamAlias.Dependence.LoopAnalysis

/-!
# Conflicts — the pairs of entries that an invocation is searched for

For a pair of the menu the analyser goes through the reads (or the second writes) and through the writes
that overlap each of them, and records the effective instructions of every two entries that lie in
different iterations and alias.  If neither instruction has more than one effective instruction in the
invocation, it stops at the first such two entries.

* `checkOverlaps_eq`, `checkReads_eq`: the two loops as one search of a list;
* `Checked`: what the search comes to, whether it stops or not;
* `searchesPair_of_searchable`: the search for a pair.
-/

namespace CamAlias

open IntervalTree

/-- The extents of two entries overlap. -/
def ExtentsOverlap (write read : MemSetEntry) : Prop :=
  read.getLowerExtent.toNat ≤ write.getUpperExtent.toNat ∧
    write.getLowerExtent.toNat ≤ read.getUpperExtent.toNat

instance (write read : MemSetEntry) : Decidable (ExtentsOverlap write read) :=
  inferInstanceAs (Decidable (_ ∧ _))

/-- Two entries in different iterations that alias. -/
def Aliases (isAlias : MemSetEntry → MemSetEntry → Option Bool) (write read : MemSetEntry) : Prop :=
  write.iterationNumber ≠ read.iterationNumber ∧ isAlias write read = some true

/-- The dependences that are recorded for two entries. -/
def Names (WAW : Bool) (write read : MemSetEntry) (x : UInt64 × UInt64) : Prop :=
  x = (write.effectiveInstrID, read.effectiveInstrID) ∨
    WAW = true ∧ x = (read.effectiveInstrID, write.effectiveInstrID)

theorem mem_recordDependencePair {WAW : Bool} {write read : MemSetEntry}
    {pairs : Finset (UInt64 × UInt64)} {x : UInt64 × UInt64} :
    x ∈ recordDependencePair write.effectiveInstrID read.effectiveInstrID pairs WAW ↔
      x ∈ pairs ∨ Names WAW write read x := by
  cases WAW with
  | false => simp [recordDependencePair, Names, or_comm]
  | true => simp [recordDependencePair, Names, or_comm, or_assoc]

/-! ## What a search comes to -/

/-- All aliases among `found` are recorded beside `pairs`, and the flag says whether there is one and
the pair is to be erased (`c`). -/
structure Checked (isAlias : MemSetEntry → MemSetEntry → Option Bool) (WAW c : Bool)
    (found : MemSetEntry → MemSetEntry → Prop) (pairs : Finset (UInt64 × UInt64))
    (result : Finset (UInt64 × UInt64) × Bool) : Prop where
  recorded : ∀ x, x ∈ result.1 ↔ x ∈ pairs ∨
    ∃ write read, found write read ∧ Aliases isAlias write read ∧ Names WAW write read x
  complete : result.2 = true ↔ c = true ∧ ∃ write read, found write read ∧ Aliases isAlias write read

section Checked

variable {isAlias : MemSetEntry → MemSetEntry → Option Bool} {WAW c : Bool}
  {found found' : MemSetEntry → MemSetEntry → Prop} {pairs : Finset (UInt64 × UInt64)}
  {result result' : Finset (UInt64 × UInt64) × Bool}

theorem Checked.of_not_found (h : ∀ write read, found write read → ¬ Aliases isAlias write read) :
    Checked isAlias WAW c found pairs (pairs, false) := by
  refine ⟨fun x => ⟨Or.inl, ?_⟩, ⟨fun hfalse => ?_, ?_⟩⟩
  · rintro (hx | ⟨write, read, hfound, halias, -⟩)
    · exact hx
    · exact absurd halias (h write read hfound)
  · cases hfalse
  · rintro ⟨-, write, read, hfound, halias⟩
    exact absurd halias (h write read hfound)

/-- Two entries that alias. -/
theorem Checked.single {write read : MemSetEntry} (halias : Aliases isAlias write read) :
    Checked isAlias WAW c (fun w r => w = write ∧ r = read) pairs
      (recordDependencePair write.effectiveInstrID read.effectiveInstrID pairs WAW, c) := by
  refine ⟨fun x => mem_recordDependencePair.trans (or_congr_right ?_), ?_⟩
  · constructor
    · exact fun hnames => ⟨write, read, ⟨rfl, rfl⟩, halias, hnames⟩
    · rintro ⟨w, r, ⟨rfl, rfl⟩, -, hnames⟩
      exact hnames
  · exact ⟨fun hc => ⟨hc, write, read, ⟨rfl, rfl⟩, halias⟩, fun h => h.1⟩

theorem Checked.congr (h : Checked isAlias WAW c found pairs result)
    (hiff : ∀ write read, found write read ↔ found' write read) :
    Checked isAlias WAW c found' pairs result := by
  have heq : found = found' := by
    funext write read
    exact propext (hiff write read)
  exact heq ▸ h

/-- The search goes on. -/
theorem Checked.trans (h : Checked isAlias WAW c found pairs result) (hgo : result.2 = false)
    (h' : Checked isAlias WAW c found' result.1 result') :
    Checked isAlias WAW c (fun write read => found write read ∨ found' write read) pairs result' := by
  constructor
  · intro x
    rw [h'.recorded, h.recorded]
    constructor
    · rintro ((hx | ⟨write, read, hfound, hrest⟩) | ⟨write, read, hfound, hrest⟩)
      · exact Or.inl hx
      · exact Or.inr ⟨write, read, Or.inl hfound, hrest⟩
      · exact Or.inr ⟨write, read, Or.inr hfound, hrest⟩
    · rintro (hx | ⟨write, read, hfound | hfound, hrest⟩)
      · exact Or.inl (Or.inl hx)
      · exact Or.inl (Or.inr ⟨write, read, hfound, hrest⟩)
      · exact Or.inr ⟨write, read, hfound, hrest⟩
  · rw [h'.complete]
    constructor
    · rintro ⟨hc, write, read, hfound, halias⟩
      exact ⟨hc, write, read, Or.inr hfound, halias⟩
    · rintro ⟨hc, write, read, hfound | hfound, halias⟩
      · -- it would have stopped
        have hstop := h.complete.2 ⟨hc, write, read, hfound, halias⟩
        rw [hgo] at hstop
        cases hstop
      · exact ⟨hc, write, read, hfound, halias⟩

/-- The search stops, and what it has not come to would be recorded as the same dependences. -/
theorem Checked.stop (h : Checked isAlias WAW c found pairs result) (hstop : result.2 = true)
    (hsame : ∀ write read write' read', found write read → found' write' read' →
      write.effectiveInstrID = write'.effectiveInstrID ∧
        read.effectiveInstrID = read'.effectiveInstrID) :
    Checked isAlias WAW c (fun write read => found write read ∨ found' write read) pairs result := by
  rcases h.complete.1 hstop with ⟨hc, write, read, hfound, halias⟩
  constructor
  · intro x
    rw [h.recorded]
    refine or_congr_right ⟨?_, ?_⟩
    · rintro ⟨w, r, hwr, hrest⟩
      exact ⟨w, r, Or.inl hwr, hrest⟩
    · rintro ⟨w, r, hwr | hwr, hrest⟩
      · exact ⟨w, r, hwr, hrest⟩
      · rcases hsame write read w r hfound hwr with ⟨hw, hr⟩
        refine ⟨write, read, hfound, halias, ?_⟩
        have hnames := hrest.2
        rwa [Names, ← hw, ← hr] at hnames
  · rw [hstop]
    exact ⟨fun _ => ⟨hc, write, read, Or.inl hfound, halias⟩, fun _ => rfl⟩

end Checked

/-! ## The loops -/

section Loops

variable {σ : Type _} (isAlias : MemSetEntry → MemSetEntry → Option Bool)
  (foundAlias : MemSetEntry → MemSetEntry → σ → Except Fault (σ × Bool))

/-- The body of the two loops, for one write and read after the other. -/
def searchEntries : List (MemSetEntry × MemSetEntry) → σ → Except Fault (σ × Bool)
  | [], st => .ok (st, false)
  | (write, read) :: rest, st =>
      if write.iterationNumber = read.iterationNumber then searchEntries rest st
      else
        match isAlias write read with
        | none => .error .divisionByZero
        | some false => searchEntries rest st
        | some true =>
            match foundAlias write read st with
            | .error e => .error e
            | .ok (st, true) => .ok (st, true)
            | .ok (st, false) => searchEntries rest st

theorem searchEntries_append (xs ys : List (MemSetEntry × MemSetEntry)) :
    ∀ st : σ, searchEntries isAlias foundAlias (xs ++ ys) st
      = (searchEntries isAlias foundAlias xs st).bind fun result =>
          if result.2 then .ok result else searchEntries isAlias foundAlias ys result.1 := by
  induction xs with
  | nil => exact fun _ => rfl
  | cons x xs ih =>
      rcases x with ⟨write, read⟩
      intro st
      rw [List.cons_append, searchEntries, searchEntries]
      by_cases hiteration : write.iterationNumber = read.iterationNumber
      · rw [if_pos hiteration, if_pos hiteration]
        exact ih st
      · rw [if_neg hiteration, if_neg hiteration]
        cases isAlias write read with
        | none => rfl
        | some b =>
            cases b with
            | false => exact ih st
            | true =>
                simp only
                cases foundAlias write read st with
                | error e => rfl
                | ok result =>
                    rcases result with ⟨st', stop⟩
                    cases stop with
                    | true => rfl
                    | false => exact ih st'

/-- The loop over the intervals that overlap an entry. -/
theorem checkOverlaps_eq (memIt : MemSetEntry) (found : List (Interval Nat MemSetEntry)) :
    ∀ {oiter : Option (OverlapIterator Nat MemSetEntry)} {rounds : Nat} (st : σ),
      Emits memIt.getLowerExtent.toNat memIt.getUpperExtent.toNat found oiter →
      found.length ≤ rounds →
      checkOverlaps isAlias foundAlias memIt rounds oiter st
        = searchEntries isAlias foundAlias (found.map fun i => (i.value, memIt)) st := by
  induction found with
  | nil =>
      intro oiter rounds st hemits _
      cases oiter with
      | none => rw [checkOverlaps, List.map_nil, searchEntries]
      | some oiter =>
          rcases hemits with ⟨-, -, i, -, hfound⟩
          cases hfound
  | cons i found ih =>
      intro oiter rounds st hemits hrounds
      cases oiter with
      | none => cases hemits
      | some oiter =>
          rcases hemits with ⟨hvalid, habove, i', hi', hfound⟩
          rcases List.cons.inj hfound with ⟨rfl, htail⟩
          cases rounds with
          | zero => exact absurd hrounds (Nat.not_succ_le_zero _)
          | succ rounds =>
              have hnull : oiter.node.isNull = false := by
                cases hnode : oiter.node with
                | null => simp [OverlapIterator.interval?, hnode] at hi'
                | node _ _ _ _ _ => rfl
              have hnext := overlapIteratorNext_emits memIt.getLowerExtent.toNat
                memIt.getUpperExtent.toNat oiter.node oiter.parents oiter.position false hnull hvalid
                habove
              rw [if_neg (by decide), ← htail] at hnext
              have hrest := fun st => ih st hnext (Nat.le_of_succ_le_succ hrounds)
              rw [List.map_cons, checkOverlaps, searchEntries, hi']
              simp only
              -- entries of one iteration are passed over, the others are handed to the alias test
              by_cases hiteration : i.value.iterationNumber = memIt.iterationNumber
              · rw [if_pos hiteration, if_pos hiteration]
                exact hrest st
              · rw [if_neg hiteration, if_neg hiteration]
                cases isAlias i.value memIt with
                | none => rfl
                | some answer =>
                    cases answer with
                    | false => exact hrest st
                    | true =>
                        simp only
                        cases foundAlias i.value memIt st with
                        | error e => rfl
                        | ok result =>
                            rcases result with ⟨st', stop⟩
                            cases stop with
                            | true => rfl
                            | false => exact hrest st'

theorem overlapIteratorBegin_emits {tree : IntervalTree Nat MemSetEntry} (h : tree.Valid)
    (start stop : Nat) :
    Emits start stop (tree.findOverlapping start stop) (tree.overlapIteratorBegin start stop) := by
  cases tree with
  | null => simp [overlapIteratorBegin, overlapIteratorNext, Emits, findOverlapping]
  | node intervals center maxstop left right =>
      have hnext := overlapIteratorNext_emits start stop (.node intervals center maxstop left right)
        [] 0 true rfl h trivial
      rw [if_pos rfl, foundFrom_zero h, foundAbove, List.append_nil] at hnext
      exact hnext

/-- The writes and reads that are compared, in their order. -/
def compared (tree : IntervalTree Nat MemSetEntry) (reads : List MemSetEntry) :
    List (MemSetEntry × MemSetEntry) :=
  reads.flatMap fun memIt =>
    (tree.findOverlapping memIt.getLowerExtent.toNat memIt.getUpperExtent.toNat).map fun i =>
      (i.value, memIt)

/-- Writes and reads are compared where their extents overlap. -/
theorem mem_compared {tree : IntervalTree Nat MemSetEntry} {writes reads : List MemSetEntry}
    (hvalid : tree.Valid) (hcontents : tree.contents.Perm (writes.map MemSetEntry.toInterval))
    {write read : MemSetEntry} :
    (write, read) ∈ compared tree reads ↔
      write ∈ writes ∧ read ∈ reads ∧ ExtentsOverlap write read := by
  simp only [compared, List.mem_flatMap, List.mem_map, findOverlapping_eq hvalid, List.mem_filter,
    hcontents.mem_iff]
  constructor
  · rintro ⟨memIt, hread, i, ⟨⟨w, hw, rfl⟩, hoverlaps⟩, heq⟩
    rcases Prod.mk.inj heq with ⟨rfl, rfl⟩
    exact ⟨hw, hread, of_decide_eq_true hoverlaps⟩
  · rintro ⟨hwrite, hread, hoverlap⟩
    exact ⟨read, hread, write.toInterval, ⟨⟨write, hwrite, rfl⟩, decide_eq_true hoverlap⟩, rfl⟩

/-- The loop over the entries. -/
theorem checkReads_eq {writes : List MemSetEntry} {tree : IntervalTree Nat MemSetEntry}
    (hvalid : tree.Valid) (hcontents : tree.contents.Perm (writes.map MemSetEntry.toInterval))
    {fuel : Nat} (hfuel : writes.length ≤ fuel) (reads : List MemSetEntry) :
    ∀ st : σ, checkReads isAlias foundAlias fuel tree reads st
      = searchEntries isAlias foundAlias (compared tree reads) st := by
  induction reads with
  | nil => exact fun _ => rfl
  | cons memIt reads ih =>
      intro st
      let found := tree.findOverlapping memIt.getLowerExtent.toNat memIt.getUpperExtent.toNat
      have hlength : found.length ≤ fuel := by
        calc found.length
            = (tree.contents.filter
                (overlaps memIt.getLowerExtent.toNat memIt.getUpperExtent.toNat)).length := by
              rw [← findOverlapping_eq hvalid]
          _ ≤ tree.contents.length := List.length_filter_le _ _
          _ = writes.length := by rw [hcontents.length_eq, List.length_map]
          _ ≤ fuel := hfuel
      have hfirst := checkOverlaps_eq isAlias foundAlias memIt found st
        (overlapIteratorBegin_emits hvalid _ _) hlength
      have hcompared : compared tree (memIt :: reads)
          = (found.map fun i => (i.value, memIt)) ++ compared tree reads := List.flatMap_cons
      rw [checkReads, hcompared, searchEntries_append, hfirst]
      cases searchEntries isAlias foundAlias (found.map fun i => (i.value, memIt)) st with
      | error e => rfl
      | ok result =>
          rcases result with ⟨st', stop⟩
          cases stop with
          | true => rfl
          | false => exact ih st'

end Loops

/-! ## The search for a pair -/

/-- The search for a pair has an outcome, whatever tree the writes are in: the dependences that it
shows, and whether it is erased. -/
def SearchesPair (args : AnalysisArgs) (isAlias : MemSetEntry → MemSetEntry → Option Bool)
    (fuel : Nat) (subInstrList : Finset UInt64) (inv : InvocationTraces) (WAW : Bool)
    (instrPair : UInt64 × UInt64) (writes reads : List MemSetEntry)
    (shows : UInt64 × UInt64 → Prop) (erased : Bool) : Prop :=
  ∀ tree : IntervalTree Nat MemSetEntry, tree.Valid →
    tree.contents.Perm (writes.map MemSetEntry.toInterval) → ∀ pairs : Finset (UInt64 × UInt64),
      ∃ pairs', searchPair args isAlias fuel subInstrList inv WAW instrPair tree reads pairs
          = .ok (pairs', erased) ∧
        ∀ x, x ∈ pairs' ↔ x ∈ pairs ∨ shows x

section Recording

variable {args : AnalysisArgs} {isAlias : MemSetEntry → MemSetEntry → Option Bool}
  {subInstrList : Finset UInt64} {inv : InvocationTraces} {WAW : Bool} {instrPair : UInt64 × UInt64}
  {c : Bool} {writes reads : List MemSetEntry}

/-- The search for one invocation and pair runs through: `isAlias` decides the entries that are
compared, and whether the pair is to be erased is known where there is an alias. -/
structure Searchable (isAlias : MemSetEntry → MemSetEntry → Option Bool) (subInstrList : Finset UInt64)
    (inv : InvocationTraces) (instrPair : UInt64 × UInt64) (c : Bool)
    (writes reads : List MemSetEntry) : Prop where
  decided : ∀ write ∈ writes, ∀ read ∈ reads, ExtentsOverlap write read →
    ∃ b, isAlias write read = some b
  constant : writes ≠ [] → reads ≠ [] → constantCallIDs subInstrList inv instrPair = .ok c
  same : writes ≠ [] → reads ≠ [] → c = true →
    (∀ w ∈ writes, ∀ w' ∈ writes, w.effectiveInstrID = w'.effectiveInstrID) ∧
      ∀ r ∈ reads, ∀ r' ∈ reads, r.effectiveInstrID = r'.effectiveInstrID

variable (WAW) in
/-- Induction on the entries that are compared: either the search goes on behind the first ones, or
what it has not come to would be recorded as the same dependences. -/
theorem searchEntries_foundAlias (hargs : args.adjacent = false)
    (h : Searchable isAlias subInstrList inv instrPair c writes reads)
    (found : List (MemSetEntry × MemSetEntry)) :
    ∀ st : PairSearch, (∀ x ∈ found, x.1 ∈ writes ∧ x.2 ∈ reads ∧ ExtentsOverlap x.1 x.2) →
      ∃ st' complete,
        searchEntries isAlias (foundAlias args subInstrList inv WAW instrPair) found st
          = .ok (st', complete) ∧
        Checked isAlias WAW c (fun write read => (write, read) ∈ found) st.dependence_pairs
          (st'.dependence_pairs, complete) := by
  induction found with
  | nil => exact fun st _ => ⟨st, false, rfl, Checked.of_not_found (by simp)⟩
  | cons x found ih =>
      rcases x with ⟨write, read⟩
      intro st hmem
      rcases List.forall_mem_cons.1 hmem with ⟨⟨hwrite, hread, hoverlap⟩, hothers⟩
      have hcons : ∀ w r, ((w = write ∧ r = read) ∨ (w, r) ∈ found) ↔
          (w, r) ∈ (write, read) :: found := by
        intro w r
        rw [List.mem_cons, Prod.mk.injEq]
      rw [searchEntries]
      by_cases halias : Aliases isAlias write read
      · have hwrites := List.ne_nil_of_mem hwrite
        have hreads := List.ne_nil_of_mem hread
        let st₁ : PairSearch :=
          { st with
            dependence_pairs := recordDependencePair write.effectiveInstrID read.effectiveInstrID
              st.dependence_pairs WAW }
        have hfound : foundAlias args subInstrList inv WAW instrPair write read st
            = .ok (st₁, c) := by
          simp only [foundAlias, hargs, h.constant hwrites hreads]
          rfl
        have hfirst : Checked isAlias WAW c _ st.dependence_pairs (st₁.dependence_pairs, c) :=
          Checked.single halias
        rw [if_neg halias.1, halias.2]
        simp only [hfound]
        cases c with
        | true =>
            refine ⟨st₁, true, rfl, (hfirst.stop rfl ?_).congr hcons⟩
            rintro w r w' r' ⟨rfl, rfl⟩ hrest
            rcases hothers (w', r') hrest with ⟨hw', hr', -⟩
            rcases h.same hwrites hreads rfl with ⟨hsameWrites, hsameReads⟩
            exact ⟨hsameWrites _ hwrite _ hw', hsameReads _ hread _ hr'⟩
        | false =>
            rcases ih st₁ hothers with ⟨st', complete, hok, hchecked⟩
            exact ⟨st', complete, hok, (hfirst.trans rfl hchecked).congr hcons⟩
      · -- the entries are passed over
        rcases ih st hothers with ⟨st', complete, hok, hchecked⟩
        have hfirst : Checked isAlias WAW c (fun w r => w = write ∧ r = read) st.dependence_pairs
            (st.dependence_pairs, false) := Checked.of_not_found (by
          rintro w r ⟨rfl, rfl⟩
          exact halias)
        refine ⟨st', complete, ?_, (hfirst.trans rfl hchecked).congr hcons⟩
        by_cases hiteration : write.iterationNumber = read.iterationNumber
        · rw [if_pos hiteration, hok]
        · rcases h.decided write hwrite read hread hoverlap with ⟨b, hb⟩
          cases b with
          | true => exact absurd ⟨hiteration, hb⟩ halias
          | false => simp only [if_neg hiteration, hb, hok]

/-- The search for a pair, without `adjacent`. -/
theorem searchesPair_of_searchable (hargs : args.adjacent = false) {fuel : Nat}
    (h : Searchable isAlias subInstrList inv instrPair c writes reads)
    (hfuel : writes.length ≤ fuel) {shows : UInt64 × UInt64 → Prop} {erased : Bool}
    (hshows : ∀ x, (∃ write read, (write ∈ writes ∧ read ∈ reads ∧ ExtentsOverlap write read) ∧
      Aliases isAlias write read ∧ Names WAW write read x) ↔ shows x)
    (herased : (c = true ∧ ∃ write read, (write ∈ writes ∧ read ∈ reads ∧ ExtentsOverlap write read) ∧
      Aliases isAlias write read) ↔ erased = true) :
    SearchesPair args isAlias fuel subInstrList inv WAW instrPair writes reads shows erased := by
  intro tree hvalid hcontents pairs
  have hcompared : ∀ write read, (write, read) ∈ compared tree reads ↔
      write ∈ writes ∧ read ∈ reads ∧ ExtentsOverlap write read :=
    fun _ _ => mem_compared hvalid hcontents
  rcases searchEntries_foundAlias WAW hargs h (compared tree reads)
    ⟨XanBitWords.new 1, pairs⟩ (fun x hx => (hcompared x.1 x.2).1 hx) with
    ⟨st', complete, hok, hchecked⟩
  have hchecked := hchecked.congr hcompared
  have hcomplete : complete = erased := by
    rw [Bool.eq_iff_iff]
    exact hchecked.complete.trans herased
  refine ⟨st'.dependence_pairs, ?_, fun x => (hchecked.recorded x).trans (or_congr_right (hshows x))⟩
  have hread : checkReads isAlias (foundAlias args subInstrList inv WAW instrPair) fuel tree reads
      ⟨XanBitWords.new 1, pairs⟩ = .ok (st', complete) := by
    rw [checkReads_eq isAlias _ hvalid hcontents hfuel, hok]
  rw [searchPair, hread, hcomplete]
  simp only [hargs, Bool.false_eq_true, false_and, if_false]

end Recording
end CamAlias
