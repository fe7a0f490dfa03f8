import CamAlias.Dependence.References

/-!
# ReadInTurn — the references that are consumed in each invocation

Nothing in a memory trace marks where an invocation begins: the analysis of an invocation takes as many
references as the control flow traces have instances, from where the analysis of the invocations before
has left the stream.

* `Streaming.readInTurn_iff`: when a stream is read in turn as the references that are made;
* `LoopAnalysis.aligned_of_readInTurn`: then every analysis consumes them so;
* `LoopAnalysis.readInTurn_of_aligned`: and only then.
-/

namespace CamAlias

open Lib

/-! ## What is consumed -/

/-- A reference with the iteration in which it is made. -/
abbrev PlacedReference := Nat × Reference

/-- The references of an entry, with its iteration. -/
def MemSetEntry.placed (e : MemSetEntry) : List PlacedReference :=
  e.accesses.map fun r => (e.iterationNumber, r)

/-- The references of a stream that have been read for an invocation. -/
def InvocationAccesses.consumed (a : InvocationAccesses) (key : UInt64 × Stream) :
    List PlacedReference :=
  (((a.invMemoryTrace key.1).getSet key.2).getD []).flatMap MemSetEntry.placed

namespace LoopAnalysis

section Aligned

variable (args : AnalysisArgs) (isAlias : MemSetEntry → MemSetEntry → Option Bool)
  (sorter : StartSort Nat MemSetEntry) (fuel : Nat) (subInstrList : Finset UInt64)

/-- For an invocation, these references of a stream are consumed: its set can be built, and has them,
and the two passes leave no others behind. -/
structure Consumes (st : LoopAnalysis) (inv : InvocationTraces) (key : UInt64 × Stream)
    (refs : List PlacedReference) : Prop where
  built : ∃ a, InvocationAccesses.buildSet fuel subInstrList inv
      { memtraceStreamers := st.memtraceStreamers, invMemoryTrace := fun _ => {} } key.1 key.2
        = .ok a ∧ a.consumed key = refs
  left : ∀ a, st.accesses args isAlias sorter fuel subInstrList inv = .ok a → a.consumed key = refs

/-- Nothing is consumed for an invocation that is not analysed. -/
def ConsumesIf (st : LoopAnalysis) (key : UInt64 × Stream) (refs : List PlacedReference) :
    Option InvocationTraces → Prop
  | none => refs = []
  | some inv => Consumes args isAlias sorter fuel subInstrList st inv key refs

/-- In every invocation that is reached, what is consumed of each stream that is still needed is what
the invocation has made. -/
def Aligned (st : LoopAnalysis) (ts : List (Option InvocationTraces))
    (made : List (UInt64 × Stream → List PlacedReference)) : Prop :=
  ∀ (n : Nat) (st' : LoopAnalysis) (o : Option InvocationTraces)
    (refs : UInt64 × Stream → List PlacedReference),
    analyseAll (analyse args isAlias sorter fuel subInstrList) st (ts.take n) = .ok st' →
    ts[n]? = some o → made[n]? = some refs → ∀ key, st'.pairMenu.Needs key →
      ConsumesIf args isAlias sorter fuel subInstrList st' key (refs key) o

end Aligned
end LoopAnalysis

/-! ## One stream -/

/-- One slice after the other, the stream is read as these references. -/
def ReadInTurn (fuel : Nat) (subInstrList : Finset UInt64) (instrID : UInt64) :
    MemoryTraceStreamer → List (Option InvocationTraces) → List (List PlacedReference) → Prop
  | s, none :: ts, refs :: made => refs = [] ∧ ReadInTurn fuel subInstrList instrID s ts made
  | s, some t :: ts, refs :: made => ∃ slice s',
      s.nextSlice fuel t instrID (t.getNumInstancesInInvocation subInstrList instrID)
        = .ok (slice, s') ∧
      slice.flatMap MemSetEntry.placed = refs ∧ ReadInTurn fuel subInstrList instrID s' ts made
  | _, [], [] => True
  | _, _, _ => False

/-- What an invocation has of the instances of an instruction: as many references are taken as there
are instances in its blocks, and these lie in the iterations `places`. -/
inductive Places (fuel : Nat) (subInstrList : Finset UInt64) (instrID : UInt64) :
    Option InvocationTraces → List Nat → Prop
  | empty : Places fuel subInstrList instrID none []
  | seen {t : InvocationTraces} {blocks : List Block}
      (h : Sliceable fuel subInstrList instrID t (Block.total blocks, blocks)) :
      Places fuel subInstrList instrID (some t) ((blocks.flatMap Block.tags).map Prod.fst)

section Stream

variable {strides : BitVec 64 → BitVec 64 → Prop} {references : List Reference} {fuel : Nat}
  {subInstrList : Finset UInt64} {instrID : UInt64}

theorem flatMap_placed (slice : List MemSetEntry) :
    slice.flatMap MemSetEntry.placed
      = (slice.flatMap MemSetEntry.tagged).map fun x => (x.1.1, x.2) := by
  rw [List.map_flatMap]
  refine List.flatMap_congr fun e _ => ?_
  rw [MemSetEntry.placed, MemSetEntry.tagged, List.map_map]
  rfl

theorem eq_zip_iff {α β : Type _} {xs : List α} {ys : List β} {zs : List (α × β)}
    (hlen : xs.length = ys.length) :
    xs.zip ys = zs ↔ xs = zs.map Prod.fst ∧ ys = zs.map Prod.snd := by
  constructor
  · rintro rfl
    exact ⟨(List.map_fst_zip (Nat.le_of_eq hlen)).symm, (List.map_snd_zip (Nat.le_of_eq hlen.symm)).symm⟩
  · rintro ⟨rfl, rfl⟩
    exact (List.zip_of_prod rfl rfl).symm

/-- If there are enough of them, the next references are put into the iterations of the instances. -/
theorem MemoryTraceStreamer.Streaming.exists_placed {k : Nat} {s : MemoryTraceStreamer}
    (h : Streaming strides references k s) {t : InvocationTraces} {blocks : List Block}
    (hcut : t.CutInto instrID fuel blocks) (hfits : k + Block.total blocks ≤ references.length)
    (hfuel : references.length ≤ fuel) {refs : List PlacedReference} {rest : List Reference}
    (hmade : references.drop k = refs.map Prod.snd ++ rest) :
    ∃ slice s', s.nextSlice fuel t instrID (Block.total blocks) = .ok (slice, s') ∧
      Streaming strides references (k + Block.total blocks) s' ∧
      (slice.flatMap MemSetEntry.placed = refs ↔
        (blocks.flatMap Block.tags).map Prod.fst = refs.map Prod.fst) := by
  rcases h.nextSlice hcut hfits (Nat.le_refl _) hfuel with ⟨slice, s', hslice, hnext, htagged, -⟩
  refine ⟨slice, s', hslice, hnext, ?_⟩
  have htotal : ((blocks.flatMap Block.tags).map Prod.fst).length = Block.total blocks := by
    rw [List.length_map, Block.length_tags]
  have htake : ((references.drop k).take (Block.total blocks)).length = Block.total blocks := by
    rw [List.length_take, List.length_drop]
    omega
  have hplaced : slice.flatMap MemSetEntry.placed
      = ((blocks.flatMap Block.tags).map Prod.fst).zip
          ((references.drop k).take (Block.total blocks)) := by
    rw [flatMap_placed, htagged, List.zip_map_left]
    rfl
  rw [hplaced, eq_zip_iff (htotal.trans htake.symm)]
  -- what is taken are the references that are made, if their iterations are those of the instances
  refine and_iff_left_of_imp fun heq => ?_
  have hcount : (refs.map Prod.snd).length = Block.total blocks := by
    rw [← htotal, heq, List.length_map, List.length_map]
  rw [hmade, List.take_left' hcount]

/-- A stream is read in turn as the references that are made, if and only if these are made in the
iterations of the instances. -/
theorem MemoryTraceStreamer.Streaming.readInTurn_iff {ts : List (Option InvocationTraces)}
    {places : List (List Nat)} (hts : List.Forall₂ (Places fuel subInstrList instrID) ts places)
    (hfuel : references.length ≤ fuel) :
    ∀ {k : Nat} {s : MemoryTraceStreamer} {made : List (List PlacedReference)},
      Streaming strides references k s → k + (places.map List.length).sum < 2 ^ 64 →
      references.drop k = made.flatten.map Prod.snd → made.length = ts.length →
      (ReadInTurn fuel subInstrList instrID s ts made ↔ places = made.map (List.map Prod.fst)) := by
  induction hts with
  | nil =>
      intro k s made _ _ _ hlength
      rw [List.eq_nil_of_length_eq_zero hlength]
      exact iff_of_true trivial rfl
  | @cons o p ts places hplaces _ ih =>
      intro k s made h hasked hmade hlength
      cases made with
      | nil => cases hlength
      | cons refs made =>
          have hrestLength : made.length = ts.length := Nat.succ.inj hlength
          rw [List.map_cons, List.sum_cons] at hasked
          rw [List.flatten_cons, List.map_append] at hmade
          rw [List.map_cons, List.cons.injEq]
          cases hplaces with
          | empty =>
              rw [ReadInTurn, eq_comm (a := ([] : List Nat)), List.map_eq_nil_iff]
              refine and_congr_right ?_
              rintro rfl
              refine ih h ?_ hmade hrestLength
              rwa [List.length_nil, Nat.zero_add] at hasked
          | @seen t blocks ht =>
              have hnum : t.getNumInstancesInInvocation subInstrList instrID = Block.total blocks :=
                ht.num
              have hcut : t.CutInto instrID fuel blocks := ht.cut
              have htotal : Block.total blocks = ((blocks.flatMap Block.tags).map Prod.fst).length := by
                rw [List.length_map, Block.length_tags]
              -- behind this invocation, if it has made as many references as are taken
              have hrest : refs.length = Block.total blocks →
                  references.drop (k + Block.total blocks) = made.flatten.map Prod.snd := by
                intro hcount
                rw [← List.drop_drop, hmade, List.drop_left']
                rw [List.length_map, hcount]
              by_cases hfits : k + Block.total blocks ≤ references.length
              · rcases h.exists_placed hcut hfits hfuel hmade with ⟨slice, s', hslice, hnext, hfirst⟩
                have hmiddle : ReadInTurn fuel subInstrList instrID s (some t :: ts) (refs :: made) ↔
                    slice.flatMap MemSetEntry.placed = refs ∧
                      ReadInTurn fuel subInstrList instrID s' ts made := by
                  rw [ReadInTurn, hnum, hslice]
                  constructor
                  · rintro ⟨slice', s'', heq, hrefs, hturn⟩
                    rcases Prod.mk.inj (Except.ok.inj heq) with ⟨rfl, rfl⟩
                    exact ⟨hrefs, hturn⟩
                  · exact fun ⟨hrefs, hturn⟩ => ⟨slice, s', rfl, hrefs, hturn⟩
                rw [hmiddle, hfirst]
                refine and_congr_right fun heq => ih hnext ?_ (hrest ?_) hrestLength
                · rw [htotal]
                  omega
                · rw [htotal, heq, List.length_map]
              · -- the references do not suffice
                rcases h.nextSlice_error hcut id (Or.inl (Nat.lt_of_not_le hfits))
                  (by omega) hfuel with ⟨f, herror⟩
                refine iff_of_false ?_ ?_
                · rw [ReadInTurn, hnum, herror]
                  rintro ⟨_, _, heq, -⟩
                  cases heq
                · rintro ⟨heq, -⟩
                  have hcount : refs.length = Block.total blocks := by
                    rw [htotal, heq, List.length_map]
                  have hle := h.le
                  have hlen := congrArg List.length hmade
                  rw [List.length_drop, List.length_append, List.length_map] at hlen
                  omega

end Stream

/-! ## All streams -/

namespace LoopAnalysis

variable {args : AnalysisArgs} {isAlias : MemSetEntry → MemSetEntry → Option Bool}
  {sorter : StartSort Nat MemSetEntry} {fuel : Nat} {subInstrList : Finset UInt64}

/-- The streams that are needed are read in turn. -/
def AllReadInTurn (fuel : Nat) (subInstrList : Finset UInt64) (st : LoopAnalysis)
    (ts : List (Option InvocationTraces)) (made : List (UInt64 × Stream → List PlacedReference)) :
    Prop :=
  ∀ key, st.pairMenu.Needs key → ∃ s, st.memtraceStreamers key = some s ∧
    ReadInTurn fuel subInstrList key.1 s ts (made.map fun refs => refs key)

/-- A smaller menu needs no more streams. -/
theorem needs_of_subset {menu menu' : InstrPairMenu}
    (h : ∀ WAW, menu'.pairs WAW ⊆ menu.pairs WAW) {key : UInt64 × Stream} (hkey : menu'.Needs key) :
    menu.Needs key := by
  rcases hkey with ⟨WAW, p, hp, hpair⟩
  exact ⟨WAW, p, h WAW hp, hpair⟩

/-- The slices of the next invocation. -/
theorem AllReadInTurn.exists_slices {st : LoopAnalysis} {t : InvocationTraces}
    {ts : List (Option InvocationTraces)} {refs : UInt64 × Stream → List PlacedReference}
    {made : List (UInt64 × Stream → List PlacedReference)}
    (h : AllReadInTurn fuel subInstrList st (some t :: ts) (refs :: made)) :
    ∃ (current next : UInt64 × Stream → MemoryTraceStreamer)
      (slice : UInt64 × Stream → List MemSetEntry),
      Slices fuel subInstrList t st.pairMenu.Needs current next slice ∧
      (∀ key, st.pairMenu.Needs key → st.memtraceStreamers key = some (current key)) ∧
      ∀ key, st.pairMenu.Needs key → (slice key).flatMap MemSetEntry.placed = refs key ∧
        ReadInTurn fuel subInstrList key.1 (next key) ts (made.map fun refs => refs key) := by
  have hread : ∀ key, ∃ (s s' : MemoryTraceStreamer) (slice : List MemSetEntry),
      st.pairMenu.Needs key → st.memtraceStreamers key = some s ∧
        s.nextSlice fuel t key.1 (t.getNumInstancesInInvocation subInstrList key.1)
          = .ok (slice, s') ∧
        slice.flatMap MemSetEntry.placed = refs key ∧
        ReadInTurn fuel subInstrList key.1 s' ts (made.map fun refs => refs key) := by
    intro key
    by_cases hkey : st.pairMenu.Needs key
    · rcases h key hkey with ⟨s, hs, slice, s', hslice, hrefs, hturn⟩
      exact ⟨s, s', slice, fun _ => ⟨hs, hslice, hrefs, hturn⟩⟩
    · exact ⟨MemoryTraceStreamer.new [], MemoryTraceStreamer.new [], [], fun hyes => absurd hyes hkey⟩
  choose current next slice hall using hread
  exact ⟨current, next, slice, ⟨fun key hkey => (hall key hkey).2.1⟩,
    fun key hkey => (hall key hkey).1, fun key hkey => (hall key hkey).2.2⟩

/-- What is consumed is the slice. -/
theorem consumes_of_slices {st : LoopAnalysis} {t : InvocationTraces}
    {current next : UInt64 × Stream → MemoryTraceStreamer}
    {slice : UInt64 × Stream → List MemSetEntry}
    (hslices : Slices fuel subInstrList t st.pairMenu.Needs current next slice)
    (hstreamers : ∀ key, st.pairMenu.Needs key → st.memtraceStreamers key = some (current key))
    {key : UInt64 × Stream} (hkey : st.pairMenu.Needs key) :
    st.Consumes args isAlias sorter fuel subInstrList t key
      ((slice key).flatMap MemSetEntry.placed) := by
  refine ⟨?_, fun a ha => ?_⟩
  · have hkey : st.pairMenu.Needs (key.1, key.2) := hkey
    rcases (Positioned.start hstreamers).buildSet hslices hkey with
      ⟨a, hbuild, -, hread, -⟩
    refine ⟨a, hbuild, ?_⟩
    rw [InvocationAccesses.consumed, hread.set, Option.getD_some]
  · rw [InvocationAccesses.consumed, (of_accesses hslices hstreamers ha hkey).1]

/-- Every analysis of streams that are read in turn is aligned with the invocations. -/
theorem aligned_of_readInTurn (ts : List (Option InvocationTraces)) :
    ∀ {st : LoopAnalysis} {made : List (UInt64 × Stream → List PlacedReference)},
      AllReadInTurn fuel subInstrList st ts made →
      st.Aligned args isAlias sorter fuel subInstrList ts made := by
  induction ts with
  | nil =>
      rintro st made - n st' o refs - ho
      cases ho
  | cons o ts ih =>
      intro st made h n st' o' refs' hreached ho hrefs key hkey
      cases made with
      | nil => cases hrefs
      | cons refs made =>
          cases o with
          | none =>
              have hrest : AllReadInTurn fuel subInstrList st ts made := fun key hkey => by
                rcases h key hkey with ⟨s, hs, -, hturn⟩
                exact ⟨s, hs, hturn⟩
              cases n with
              | zero =>
                  rcases Except.ok.inj hreached with rfl
                  rcases Option.some.inj ho with rfl
                  rcases Option.some.inj hrefs with rfl
                  rcases h key hkey with ⟨s, -, hnil, -⟩
                  exact hnil
              | succ n => exact ih hrest n st' o' refs' hreached ho hrefs key hkey
          | some t =>
              rcases h.exists_slices with ⟨current, next, slice, hslices, hstreamers, hturn⟩
              cases n with
              | zero =>
                  rcases Except.ok.inj hreached with rfl
                  rcases Option.some.inj ho with rfl
                  rcases Option.some.inj hrefs with rfl
                  rw [← (hturn key hkey).1]
                  exact consumes_of_slices hslices hstreamers hkey
              | succ n =>
                  rw [List.take_succ_cons, analyseAll] at hreached
                  split at hreached
                  · cases hreached
                  · rename_i st₁ hst₁
                    -- the streams are left behind the invocation, whatever has been found in it
                    rcases of_analyse hslices hstreamers hst₁ with ⟨hnext, hsub⟩
                    refine ih (fun key hkey => ?_) n st' o' refs' hreached ho hrefs key hkey
                    have hkey := needs_of_subset hsub hkey
                    exact ⟨next key, hnext key hkey, (hturn key hkey).2⟩

/-- A test that finds nothing. -/
theorem searchesPair_of_never {inv : InvocationTraces} {WAW : Bool} {instrPair : UInt64 × UInt64}
    {writes reads : List MemSetEntry} (hargs : args.adjacent = false) (hfuel : writes.length ≤ fuel) :
    SearchesPair args (fun _ _ => some false) fuel subInstrList inv WAW instrPair writes reads
      (fun _ => False) false := by
  intro tree hvalid hcontents pairs
  have hnever : ∀ (xs : List (MemSetEntry × MemSetEntry)) (st : PairSearch),
      searchEntries (fun _ _ => some false) (foundAlias args subInstrList inv WAW instrPair) xs st
        = .ok (st, false) := by
    intro xs
    induction xs with
    | nil => exact fun _ => rfl
    | cons x xs ih =>
        intro st
        rw [searchEntries]
        split
        · exact ih st
        · exact ih st
  refine ⟨pairs, ?_, fun x => (or_iff_left id).symm⟩
  rw [searchPair, checkReads_eq _ _ hvalid hcontents hfuel, hnever]
  simp only [hargs, Bool.false_eq_true, false_and, if_false]

/-- With it the pairs stay on the menu, and the streams are left behind the invocation. -/
theorem exists_analyse_of_never (sorter : StartSort Nat MemSetEntry) {st : LoopAnalysis}
    {t : InvocationTraces}
    {current next : UInt64 × Stream → MemoryTraceStreamer}
    {slice : UInt64 × Stream → List MemSetEntry}
    (hslices : Slices fuel subInstrList t st.pairMenu.Needs current next slice)
    (hstreamers : ∀ key, st.pairMenu.Needs key → st.memtraceStreamers key = some (current key))
    (hfuel : ∀ key, st.pairMenu.Needs key → (slice key).length ≤ fuel) :
    ∃ st', st.analyse {} (fun _ _ => some false) sorter fuel subInstrList t = .ok st' ∧
      (∀ key, st'.pairMenu.Needs key ↔ st.pairMenu.Needs key) ∧
      ∀ key, st.pairMenu.Needs key → st'.memtraceStreamers key = some (next key) := by
  let never : Outcomes := { shows := fun _ _ _ => False, erased := fun _ _ => false }
  have hcomes : ∀ WAW, ∀ p ∈ st.pairMenu.pairs WAW,
      ComesTo {} (fun _ _ => some false) fuel subInstrList t slice WAW never p := by
    intro WAW p hp
    refine ⟨fun _ => searchesPair_of_never rfl ?_, fun _ => ⟨fun _ => id, rfl⟩⟩
    exact hfuel _ ⟨WAW, p, hp, Or.inl rfl⟩
  rcases analyse_eq hslices hstreamers hcomes sorter with ⟨st', hst', hanalysed⟩
  have hmenu : ∀ WAW, st'.pairMenu.pairs WAW = st.pairMenu.pairs WAW := by
    intro WAW
    rw [hanalysed.left]
    exact List.filter_true _
  refine ⟨st', hst', fun key => ?_, hanalysed.behind⟩
  simp only [InstrPairMenu.Needs, hmenu]

/-- The set that is built for an invocation is the slice. -/
theorem exists_slice_of_consumes {st : LoopAnalysis} {t : InvocationTraces} {key : UInt64 × Stream}
    {refs : List PlacedReference} {s : MemoryTraceStreamer}
    (h : st.Consumes args isAlias sorter fuel subInstrList t key refs)
    (hs : st.memtraceStreamers key = some s) :
    ∃ slice s', s.nextSlice fuel t key.1 (t.getNumInstancesInInvocation subInstrList key.1)
        = .ok (slice, s') ∧ slice.flatMap MemSetEntry.placed = refs := by
  rcases h.built with ⟨a, hbuild, hrefs⟩
  have hnone : ({} : StaticInstRec).getSet key.2 = none := by cases key.2 <;> rfl
  have hs : st.memtraceStreamers (key.1, key.2) = some s := hs
  simp only [InvocationAccesses.buildSet, hnone, hs] at hbuild
  split at hbuild
  · cases hbuild
  · rename_i slice s' hslice
    rcases Except.ok.inj hbuild with rfl
    refine ⟨slice, s', hslice, ?_⟩
    rw [← hrefs, InvocationAccesses.consumed]
    simp only [Function.update_self, StaticInstRec.getSet_setSet, Option.getD_some]

/-- If the analysis that finds nothing is aligned with the invocations, its streams are read in
turn. -/
theorem readInTurn_of_aligned (ts : List (Option InvocationTraces)) :
    ∀ {st : LoopAnalysis} {made : List (UInt64 × Stream → List PlacedReference)},
      made.length = ts.length →
      (∀ refs ∈ made, ∀ key, st.pairMenu.Needs key → (refs key).length ≤ fuel) →
      (∀ key, st.pairMenu.Needs key → ∃ s, st.memtraceStreamers key = some s) →
      st.Aligned {} (fun _ _ => some false) sorter fuel subInstrList ts made →
      AllReadInTurn fuel subInstrList st ts made := by
  induction ts with
  | nil =>
      intro st made hlength _ hstreamers _ key hkey
      rw [List.eq_nil_of_length_eq_zero hlength]
      rcases hstreamers key hkey with ⟨s, hs⟩
      exact ⟨s, hs, trivial⟩
  | cons o ts ih =>
      intro st made hlength hfuel hstreamers h
      cases made with
      | nil => cases hlength
      | cons refs made =>
          have hrestLength : made.length = ts.length := Nat.succ.inj hlength
          rcases List.forall_mem_cons.1 hfuel with ⟨hfirstFuel, hrestFuel⟩
          have hfirst := h 0 st o refs rfl rfl rfl
          cases o with
          | none =>
              have hrest := ih hrestLength hrestFuel hstreamers fun n st' o' refs' hreached =>
                h (n + 1) st' o' refs' hreached
              intro key hkey
              rcases hrest key hkey with ⟨s, hs, hturn⟩
              exact ⟨s, hs, hfirst key hkey, hturn⟩
          | some t =>
              have hread : ∀ key, ∃ (s s' : MemoryTraceStreamer) (slice : List MemSetEntry),
                  st.pairMenu.Needs key → st.memtraceStreamers key = some s ∧
                    s.nextSlice fuel t key.1 (t.getNumInstancesInInvocation subInstrList key.1)
                      = .ok (slice, s') ∧
                    slice.flatMap MemSetEntry.placed = refs key := by
                intro key
                by_cases hkey : st.pairMenu.Needs key
                · rcases hstreamers key hkey with ⟨s, hs⟩
                  rcases exists_slice_of_consumes (hfirst key hkey) hs with ⟨slice, s', hslice⟩
                  exact ⟨s, s', slice, fun _ => ⟨hs, hslice⟩⟩
                · exact ⟨MemoryTraceStreamer.new [], MemoryTraceStreamer.new [], [],
                    fun hyes => absurd hyes hkey⟩
              choose current next slice hall using hread
              have hslices : Slices fuel subInstrList t st.pairMenu.Needs current next slice :=
                ⟨fun key hkey => (hall key hkey).2.1⟩
              have hlong : ∀ key, st.pairMenu.Needs key → (slice key).length ≤ fuel := by
                intro key hkey
                calc (slice key).length
                    ≤ ((slice key).flatMap MemSetEntry.tagged).length := length_le_of_tagged rfl
                  _ = (refs key).length := by
                      rw [← (hall key hkey).2.2, flatMap_placed, List.length_map]
                  _ ≤ fuel := hfirstFuel key hkey
              -- so the next invocation is reached, with all the pairs
              rcases exists_analyse_of_never sorter hslices (fun key hkey => (hall key hkey).1)
                hlong with ⟨st₁, hst₁, hneeds, hbehind⟩
              have hrest : AllReadInTurn fuel subInstrList st₁ ts made := by
                refine ih hrestLength (fun refs hrefs key hkey => ?_) (fun key hkey => ?_) ?_
                · exact hrestFuel refs hrefs key ((hneeds key).1 hkey)
                · exact ⟨_, hbehind key ((hneeds key).1 hkey)⟩
                · intro n st' o' refs' hreached
                  refine h (n + 1) st' o' refs' ?_
                  rw [List.take_succ_cons, analyseAll]
                  simp only [analyseOne, hst₁, hreached]
              intro key hkey
              rcases hrest key ((hneeds key).2 hkey) with ⟨s, hs, hturn⟩
              rcases Option.some.inj (hs.symm.trans (hbehind key hkey)) with rfl
              exact ⟨current key, (hall key hkey).1, slice key, next key, (hall key hkey).2.1,
                (hall key hkey).2.2, hturn⟩

end LoopAnalysis
end CamAlias
