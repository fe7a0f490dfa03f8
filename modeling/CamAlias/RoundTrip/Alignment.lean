import CamAlias.Lib.Related
import CamAlias.Dependence.ReadInTurn
import CamAlias.RoundTrip.LoopDependences

/-!
# Alignment — the references of an execution and the invocations that they are consumed for

An instruction may make several references to one of its streams each time it is seen (two reads), or
none.  The references that are consumed for each invocation are those that it has made, with their
iterations, if and only if every iteration makes as many of them as it has instances of the
instruction, and the calls come in the order of their iterations (`staysAligned_iff`).
-/

namespace CamAlias

open Lib

/-! ## The iterations of references and instances -/

/-- The references to a stream, with the iterations in which they are made. -/
def MemoryInvocation.placed (inv : MemoryInvocation) (key : UInt64 × Stream) : List PlacedReference :=
  (inv.made key).map fun r => (r.1.1, r.2)

/-- The iteration of each instance of an instruction, in the loop or in a call. -/
def LoopInvocation.places (inv : LoopInvocation) (id : UInt64) : List Nat :=
  (inv.tags id).map Prod.fst

/-- Every iteration makes as many references to a stream as it has instances of its instruction. -/
def MemoryInvocation.OneEach (inv : MemoryInvocation) (key : UInt64 × Stream) : Prop :=
  (inv.placed key).map Prod.fst = inv.controlFlow.places key.1

instance (inv : MemoryInvocation) (key : UInt64 × Stream) : Decidable (inv.OneEach key) :=
  inferInstanceAs (Decidable (_ = _))

/-- The calls that see an instruction come in the order of the iterations in which they are made, if
they come in the order that the loop trace of `built` gives them. -/
def IterationsKept (id : UInt64) (built inv : LoopInvocation) : Prop :=
  ∀ c ∈ inv.callsSeeing id, ∀ c' ∈ inv.callsSeeing id,
    Before (iterationOf built.iterationSymbols) c.1 c'.1 → c.2.1 ≤ c'.2.1

/-- The calls are announced: the loop trace has them in their iterations. -/
structure CallsPlaced (built inv : LoopInvocation) : Prop where
  announced : built.Announced
  iterations : ∀ s, ∀ c ∈ inv.callsSeeing s,
    iterationOf inv.iterationSymbols c.1.1 c.1.2 = c.2.1

section Places

/-- What is listed by iterations has them in order. -/
theorem pairwise_map_zipIdx {α β : Type _} (xs : List α) {f : α → Nat → List β} {place : β → Nat}
    (h : ∀ x k, ∀ y ∈ f x k, place y = k) :
    ∀ k, (((xs.zipIdx k).flatMap fun i => f i.1 i.2).map place).Pairwise (· ≤ ·) := by
  induction xs with
  | nil => exact fun _ => List.Pairwise.nil
  | cons x xs ih =>
      intro k
      rw [List.zipIdx_cons, List.flatMap_cons, List.map_append, List.pairwise_append]
      have hfirst : ∀ n ∈ (f x k).map place, n = k := List.forall_mem_map.2 (h x k)
      refine ⟨?_, ih (k + 1), ?_⟩
      · refine List.pairwise_of_forall_mem_list fun n hn n' hn' => ?_
        rw [hfirst n hn, hfirst n' hn']
      · intro n hn n' hn'
        rcases List.mem_map.1 hn' with ⟨y, hy, rfl⟩
        rcases List.mem_flatMap.1 hy with ⟨i, hi, hy⟩
        rw [hfirst n hn, h i.1 i.2 y hy]
        exact Nat.le_of_succ_le (List.le_snd_of_mem_zipIdx hi)

theorem MemoryInvocation.pairwise_placed (inv : MemoryInvocation) (key : UInt64 × Stream) :
    ((inv.placed key).map Prod.fst).Pairwise (· ≤ ·) := by
  have hplace : ∀ (it : List MemoryEvent) (k : Nat), ∀ r ∈ it.flatMap (MemoryEvent.made key k),
      r.1.1 = k := by
    intro it k r hr
    rcases List.mem_flatMap.1 hr with ⟨e, -, hr⟩
    rcases List.mem_map.1 hr with ⟨reference, -, rfl⟩
    rfl
  rw [placed, List.map_map]
  exact pairwise_map_zipIdx inv.iterations hplace 0

variable {built inv : LoopInvocation} {order : List (UInt64 × Nat)} {id : UInt64}
  {subInstrList : Finset UInt64}

theorem IterationEvent.fst_of_mem_tags {e : IterationEvent} {k : Nat} {tag : Nat × UInt64}
    (h : tag ∈ e.tags id k) : tag.1 = k := by
  cases e with
  | seen instID =>
      simp only [tags] at h
      split at h
      · rw [List.mem_singleton.1 h]
      · cases h
  | dump => cases h
  | call callID body =>
      rcases List.mem_append.1 h with h | h
      · split at h
        · rw [List.mem_singleton.1 h]
        · cases h
      · rw [List.eq_of_mem_replicate h]

theorem LoopInvocation.pairwise_places (inv : LoopInvocation) (id : UInt64) :
    (inv.places id).Pairwise (· ≤ ·) := by
  have hplace : ∀ (it : List IterationEvent) (k : Nat), ∀ tag ∈ it.flatMap (IterationEvent.tags id k),
      tag.1 = k := by
    intro it k tag htag
    rcases List.mem_flatMap.1 htag with ⟨e, -, htag⟩
    exact e.fst_of_mem_tags htag
  exact pairwise_map_zipIdx inv.iterations hplace 0

/-- The instances in the calls, in the order of the cache. -/
theorem perm_tags_callBlocks (hperm : order.Perm (inv.executedCalls.map Prod.fst))
    (hiterations : ∀ c ∈ inv.callsSeeing id,
      iterationOf inv.iterationSymbols c.1.1 c.1.2 = c.2.1)
    (hzero : numSeen inv.iterationSymbols id = 0) :
    ((callBlocks inv.recorded order id).flatMap Block.tags).Perm (inv.tags id) := by
  rw [flatMap_tags_callBlocks, LoopInvocation.tags_eq_callsMade hzero, ← flatMap_callTags hiterations]
  exact (perm_callsSeeing id hperm).flatMap_right _

/-- In the order of the cache the instances have their iterations in order, if and only if the calls
have. -/
theorem pairwise_callBlocks_iff (hperm : order.Perm (inv.executedCalls.map Prod.fst))
    (hsorted : order.Pairwise (Before (iterationOf built.iterationSymbols)))
    (hiterations : ∀ c ∈ inv.callsSeeing id,
      iterationOf inv.iterationSymbols c.1.1 c.1.2 = c.2.1) :
    (((callBlocks inv.recorded order id).flatMap Block.tags).map Prod.fst).Pairwise (· ≤ ·) ↔
      IterationsKept id built inv := by
  let seen := order.filter fun p =>
    0 < CallTraceLoopInvocationGroup.seenInCall inv.recorded.calls id p
  have hmem : ∀ p, p ∈ seen ↔ p ∈ (inv.callsSeeing id).map Prod.fst := fun p =>
    (perm_callsSeeing id hperm).mem_iff
  have hseen : seen.Pairwise (Before (iterationOf built.iterationSymbols)) :=
    hsorted.sublist List.filter_sublist
  -- the iterations, one call after the other
  have hcalls : (((callBlocks inv.recorded order id).flatMap Block.tags).map Prod.fst).Pairwise
        (· ≤ ·) ↔
      seen.Pairwise fun p q =>
        iterationOf inv.iterationSymbols p.1 p.2 ≤ iterationOf inv.iterationSymbols q.1 q.2 := by
    have hmap : ((callBlocks inv.recorded order id).flatMap Block.tags).map Prod.fst
        = seen.flatMap fun p =>
            List.replicate (CallTraceLoopInvocationGroup.seenInCall inv.recorded.calls id p)
              (iterationOf inv.iterationSymbols p.1 p.2) := by
      rw [flatMap_tags_callBlocks, List.map_flatMap]
      refine List.flatMap_congr fun p _ => ?_
      rw [callTags, List.map_replicate]
    rw [hmap, List.pairwise_flatMap]
    constructor
    · rintro ⟨-, h⟩
      refine h.imp_of_mem fun {p q} hp hq hall => ?_
      have hpos : ∀ p ∈ seen,
          0 < CallTraceLoopInvocationGroup.seenInCall inv.recorded.calls id p := fun p hp =>
        of_decide_eq_true (List.mem_filter.1 hp).2
      exact hall _ (List.mem_replicate.2 ⟨Nat.pos_iff_ne_zero.1 (hpos p hp), rfl⟩) _
        (List.mem_replicate.2 ⟨Nat.pos_iff_ne_zero.1 (hpos q hq), rfl⟩)
    · intro h
      refine ⟨fun p _ => List.pairwise_replicate.2 (Or.inr (Nat.le_refl _)), h.imp ?_⟩
      intro p q hle n hn n' hn'
      rw [List.eq_of_mem_replicate hn, List.eq_of_mem_replicate hn']
      exact hle
  rw [hcalls]
  constructor
  · intro h c hc c' hc' hbefore
    have hp := (hmem c.1).2 (List.mem_map_of_mem hc)
    have hq := (hmem c'.1).2 (List.mem_map_of_mem hc')
    rw [← hiterations c hc, ← hiterations c' hc']
    -- of two calls only one is before the other
    have hall : ∀ p ∈ seen, ∀ q ∈ seen, Before (iterationOf built.iterationSymbols) p q →
        iterationOf inv.iterationSymbols p.1 p.2 ≤ iterationOf inv.iterationSymbols q.1 q.2 := by
      intro p hp q hq hpq
      rcases List.mem_iff_getElem.1 hp with ⟨i, hi, rfl⟩
      rcases List.mem_iff_getElem.1 hq with ⟨j, hj, rfl⟩
      rcases Nat.lt_trichotomy i j with hij | rfl | hji
      · exact List.pairwise_iff_getElem.1 h i j hi hj hij
      · exact Nat.le_refl _
      · have hqp := List.pairwise_iff_getElem.1 hseen j i hj hi hji
        exact absurd (hpq.trans hqp) (Before.irrefl _)
    exact hall c.1 hp c'.1 hq hbefore
  · intro h
    refine hseen.imp_of_mem fun {p q} hp hq hbefore => ?_
    rcases List.mem_map.1 ((hmem p).1 hp) with ⟨c, hc, rfl⟩
    rcases List.mem_map.1 ((hmem q).1 hq) with ⟨c', hc', rfl⟩
    rw [hiterations c hc, hiterations c' hc']
    exact h c hc c' hc' hbefore

/-- The iterations that the instances are dealt out to. -/
def dealtTo (inv : LoopInvocation) (order : List (UInt64 × Nat)) (id : UInt64) : List Nat :=
  ((instanceBlocks inv.recorded order id).flatMap Block.tags).map Prod.fst

/-- The instances are dealt out to their iterations, and to these in order if and only if the calls
have them in order. -/
theorem CallsPlaced.dealtTo_perm (h : CallsPlaced built inv) (hcalls : built.instances = inv.instances)
    (horder : CallOrder built.iterationSymbols inv.instances order)
    (hseparate : id ∈ subInstrList → numSeen inv.iterationSymbols id = 0)
    (hsub : ∀ callID, id ∈ (inv.instances callID).flatten → id ∈ subInstrList) :
    (dealtTo inv order id).Perm (inv.places id) ∧
      ((dealtTo inv order id).Pairwise (· ≤ ·) ↔ IterationsKept id built inv) := by
  by_cases hseen : 0 < numSeen inv.iterationSymbols id
  · have hblocks : instanceBlocks inv.recorded order id
        = iterationBlocks inv.iterationSymbols id := if_pos hseen
    have hnot : ∀ callID, id ∉ (inv.instances callID).flatten := fun callID hmem => by
      rw [hseparate (hsub callID hmem)] at hseen
      exact Nat.lt_irrefl 0 hseen
    have heq : dealtTo inv order id = inv.places id := by
      rw [dealtTo, hblocks, LoopInvocation.places, LoopInvocation.tags_eq_iterationBlocks hnot]
    refine ⟨List.Perm.of_eq heq, iff_of_true (heq ▸ inv.pairwise_places id) ?_⟩
    -- no call sees the instruction
    intro c hc
    rcases LoopInvocation.mem_callsSeeing.1 hc with ⟨hc, hid⟩
    exact absurd (List.mem_flatten.2 ⟨_, List.mem_of_getElem? (inv.mem_executedCalls hc).1, hid⟩)
      (hnot c.1.1)
  · have hblocks : instanceBlocks inv.recorded order id = callBlocks inv.recorded order id :=
      if_neg hseen
    have hperm := LoopInvocation.perm_executedCalls h.announced hcalls horder
    rw [dealtTo, hblocks]
    exact ⟨(perm_tags_callBlocks hperm (h.iterations id) (Nat.eq_zero_of_not_pos hseen)).map Prod.fst,
      pairwise_callBlocks_iff hperm horder.sorted (h.iterations id)⟩

/-- They are dealt out as the references are made if and only if every iteration makes one for each
instance and the calls have their iterations in order. -/
theorem MemoryInvocation.dealtTo_eq_iff {inv : MemoryInvocation} {key : UInt64 × Stream}
    (h : CallsPlaced built inv.controlFlow) (hcalls : built.instances = inv.controlFlow.instances)
    (horder : CallOrder built.iterationSymbols inv.controlFlow.instances order)
    (hseparate : key.1 ∈ subInstrList → numSeen inv.controlFlow.iterationSymbols key.1 = 0)
    (hsub : ∀ callID, key.1 ∈ (inv.controlFlow.instances callID).flatten → key.1 ∈ subInstrList) :
    dealtTo inv.controlFlow order key.1 = (inv.placed key).map Prod.fst ↔
      inv.OneEach key ∧ IterationsKept key.1 built inv.controlFlow := by
  rcases h.dealtTo_perm hcalls horder hseparate hsub with ⟨hperm, hiff⟩
  have heq : (dealtTo inv.controlFlow order key.1).Pairwise (· ≤ ·) →
      dealtTo inv.controlFlow order key.1 = inv.controlFlow.places key.1 := fun hsorted =>
    hperm.eq_of_pairwise (fun _ _ _ _ => Nat.le_antisymm) hsorted (inv.controlFlow.pairwise_places key.1)
  constructor
  · intro hplaced
    have hsorted := inv.pairwise_placed key
    rw [← hplaced] at hsorted
    exact ⟨hplaced.symm.trans (heq hsorted), hiff.1 hsorted⟩
  · rintro ⟨hone, hkept⟩
    exact (heq (hiff.2 hkept)).trans hone.symm

end Places

/-! ## Executions -/

/-- What the loop over the invocations hands to their analysis, whatever the analysis is. -/
def HandsOver (fuel : Nat) (loopTrace callTrace : List BzRead) (subInstrList : Finset UInt64)
    (ts : List (Option InvocationTraces)) : Prop :=
  ∃ callList callTraces,
    CallTraceStreamer.parseForInstructionLists callTrace = .ok (callList, subInstrList) ∧
    StreamParseCallTrace.parseCallTrace fuel callTrace = .ok callTraces ∧
    ∀ {σ : Type} (analyse : σ → InvocationTraces → Except Fault σ) (s : σ),
      (StreamParseLoopRec.forInvocations (visitTraces fuel (inSetOrder callList) analyse) fuel
        (StreamParseLoopRec.ofFile loopTrace) (CallAnalysis.start callTraces subInstrList, s)).map
          Prod.snd = analyseAll analyse s ts

/-- The invocations in which anything is seen are analysed. -/
def AnalysedWhereSeen (ts : List (Option InvocationTraces)) (invs : List MemoryInvocation) : Prop :=
  List.Forall₂ (fun o i => o.isSome = true ↔ i.controlFlow.iterationSymbols.flatten ≠ []) ts invs

/-- What is asked of an execution: in whatever reads its traces come, and whatever is analysed, what is
consumed of a stream for an invocation are the references that the invocation has made to it, with
their iterations. -/
def StaysAligned (loopID : UInt64) (invs : List MemoryInvocation)
    (memtraceInstrIDs : List UInt64 × List UInt64) : Prop :=
  match LoopTracer.record (LoopTracer.inTime (executionCalls loopID (controlFlows invs))) with
  | none => False
  | some none => invs = []
  | some (some files) => ∀ (loopTrace callTrace : List BzRead)
      (memoryTraces : UInt64 × Stream → List BzRead) (fuel : Nat),
      Delivered files.loopTrace loopTrace → Delivered files.callTrace callTrace →
      (∀ key, Opened memtraceInstrIDs key → ReadsStream invs key (memoryTraces key)) →
      (executionCalls loopID (controlFlows invs)).length < fuel →
      (∀ key, Opened memtraceInstrIDs key → (streamOf invs key).length ≤ fuel) →
      ∃ subInstrList ts, HandsOver fuel loopTrace callTrace subInstrList ts ∧
        AnalysedWhereSeen ts invs ∧
        ∀ args isAlias sorter (menu : InstrPairMenu),
          (∀ WAW, menu.pairs WAW ⊆ streamPairs memtraceInstrIDs WAW) →
          (LoopAnalysis.start menu memtraceInstrIDs memoryTraces).Aligned args isAlias sorter fuel
            subInstrList ts (invs.map MemoryInvocation.placed)

/-- Some pair of streams needs the stream. -/
def Paired (memtraceInstrIDs : List UInt64 × List UInt64) (key : UInt64 × Stream) : Prop :=
  ∃ WAW, ∃ p ∈ streamPairs memtraceInstrIDs WAW, NeedsOf WAW p key

/-- An instruction that is seen in a call is not seen in the loop. -/
def SeenApart (invs : List MemoryInvocation) (id : UInt64) : Prop :=
  (∃ inv ∈ invs, ∃ callID, id ∈ (inv.controlFlow.instances callID).flatten) →
    ∀ inv ∈ invs, id ∉ inv.controlFlow.iterationSymbols.flatten

/-- In its group, an invocation is related to the first one in which anything is seen. -/
def RelatedIn (invs : List MemoryInvocation) (es : List CallTraceLoopInvocationGroup)
    (R : LoopInvocation → LoopInvocation → Prop) (n : Nat) (i : MemoryInvocation) : Prop :=
  ∀ e ∈ es, n ∈ numbers e.repetitions → ∀ (m : Nat) (b : MemoryInvocation), invs[m]? = some b →
    FirstNonempty (recordedFlows invs) (numbers e.repetitions) m b.controlFlow.recorded →
    R b.controlFlow i.controlFlow

section Execution

variable {loopID : UInt64} {invs : List MemoryInvocation}
  {memtraceInstrIDs : List UInt64 × List UInt64} {groupOf : Nat → InvocationGroupCfc}
  {es : List CallTraceLoopInvocationGroup} {callList : List UInt64} {subInstrList : Finset UInt64}
  {fuel : Nat} {ts : List (Option InvocationTraces)} {key : UInt64 × Stream} {n : Nat}
  {i : MemoryInvocation}

/-- The references of all invocations are those of the stream. -/
theorem map_snd_flatten_placed (invs : List MemoryInvocation) (key : UInt64 × Stream) :
    ((invs.map fun i => i.placed key).flatten).map Prod.snd = streamOf invs key := by
  rw [← madeTo_map_made, madeTo, List.map_flatten, List.map_map, List.flatMap_map, List.map_flatMap,
    List.flatMap_def]
  refine congrArg List.flatten (List.map_congr_left fun i _ => ?_)
  rw [Function.comp_apply, MemoryInvocation.placed, List.map_map]
  rfl

theorem length_placed_le (hi : i ∈ invs) : (i.placed key).length ≤ (streamOf invs key).length := by
  rw [← map_snd_flatten_placed, List.length_map]
  exact (List.sublist_flatten_of_mem (List.mem_map_of_mem (f := fun i => i.placed key) hi)).length_le

/-- What the invocations of the groups have to be like, one after the other. -/
theorem inGroups_iff {R : LoopInvocation → LoopInvocation → Prop}
    (hgroups : callTraceGroups loopID (controlFlows invs) = es.map fun e => numbers e.repetitions) :
    InGroups loopID (controlFlows invs) R ↔
      ∀ (n : Nat) (i : MemoryInvocation), invs[n]? = some i → RelatedIn invs es R n i := by
  constructor
  · intro h n i hi e he hn m b hb hfirst
    refine h _ ?_ m b.controlFlow (getElem?_controlFlows hb) hfirst n hn i.controlFlow
      (getElem?_controlFlows hi)
    rw [hgroups]
    exact List.mem_map_of_mem he
  · intro h ns hns m built hbuilt hfirst n hn inv hget
    rw [hgroups] at hns
    rcases List.mem_map.1 hns with ⟨e, he, rfl⟩
    rw [controlFlows, List.getElem?_map] at hbuilt hget
    rcases Option.map_eq_some_iff.1 hbuilt with ⟨b, hb, rfl⟩
    rcases Option.map_eq_some_iff.1 hget with ⟨i, hi, rfl⟩
    exact h n i hi e he hn m b hb hfirst

/-- An invocation is in one group. -/
theorem relatedIn_iff {R : LoopInvocation → LoopInvocation → Prop}
    (htraces : TracesDescribe (recordedFlows invs) groupOf es callList)
    {e : CallTraceLoopInvocationGroup} (he : e ∈ es) (hn : n ∈ numbers e.repetitions) {m : Nat}
    {b : MemoryInvocation} (hb : invs[m]? = some b)
    (hfirst : FirstNonempty (recordedFlows invs) (numbers e.repetitions) m b.controlFlow.recorded) :
    RelatedIn invs es R n i ↔ R b.controlFlow i.controlFlow := by
  refine ⟨fun h => h e he hn m b hb hfirst, ?_⟩
  intro h e' he' hn' m' b' hb' hfirst'
  rcases List.mem_iff_getElem?.1 he with ⟨j, hj⟩
  rcases List.mem_iff_getElem?.1 he' with ⟨j', hj'⟩
  rcases htraces.index_unique hj hj' hn hn' with rfl
  rcases Option.some.inj (hj.symm.trans hj') with rfl
  rcases hfirst.unique hfirst' with rfl
  rcases Option.some.inj (hb.symm.trans hb') with rfl
  exact h

/-- What the traces have of the instances of an instruction in an invocation. -/
theorem exists_places (htraces : TracesDescribe (recordedFlows invs) groupOf es callList)
    (hsub : ∀ s, s ∈ subInstrList ↔
      ∃ inv ∈ recordedFlows invs, ∃ id, s ∈ (inv.calls id).flatten)
    (hplaced : ∀ (n : Nat) (i : MemoryInvocation), invs[n]? = some i →
      RelatedIn invs es CallsPlaced n i)
    (hapart : SeenApart invs key.1) (hfuel : ∀ i ∈ invs, i.iterations.length ≤ fuel)
    (hi : invs[n]? = some i) {o : Option InvocationTraces}
    (ho : TracedIf (recordedFlows invs) groupOf es n i.controlFlow.recorded o) :
    ∃ places, Places fuel subInstrList key.1 o places ∧
      places.length = (i.controlFlow.tags key.1).length ∧
      (places = (i.placed key).map Prod.fst ↔
        i.OneEach key ∧ RelatedIn invs es (IterationsKept key.1) n i) := by
  cases ho with
  | empty hempty =>
      have htags : i.controlFlow.tags key.1 = [] := LoopInvocation.tags_eq_nil hempty
      refine ⟨[], Places.empty, (congrArg List.length htags).symm, ?_⟩
      rw [MemoryInvocation.OneEach, LoopInvocation.places, htags, List.map_nil, eq_comm]
      refine (and_iff_left ?_).symm
      -- there are no calls to be in order
      intro e _ _ m b _ _ c hc
      rw [i.controlFlow.callsSeeing_eq_nil hempty] at hc
      cases hc
  | @seen order t hseen ht =>
      rcases ht.groupOrder with ⟨e, he, hn, m, built, hfirst, horder⟩
      rcases getElem?_recordedFlows hfirst.get with ⟨b, hb, rfl⟩
      have hget : (recordedFlows invs)[n]? = some i.controlFlow.recorded :=
        getElem?_recorded (getElem?_controlFlows hi)
      have hcalls : b.controlFlow.instances = i.controlFlow.instances :=
        htraces.calls_eq he hfirst.mem hfirst.get hn hget
      have hb' := (relatedIn_iff htraces he hn hb hfirst).1 (hplaced n i hi)
      have hmem := List.mem_of_getElem? hi
      have hsubOf : ∀ callID, key.1 ∈ (i.controlFlow.instances callID).flatten →
          key.1 ∈ subInstrList := fun callID hid =>
        (hsub key.1).2 ⟨_, mem_recordedFlows.2 ⟨i, hmem, rfl⟩, callID, hid⟩
      have hseparate : key.1 ∈ subInstrList →
          numSeen i.controlFlow.iterationSymbols key.1 = 0 := by
        intro hin
        rcases (hsub key.1).1 hin with ⟨inv, hinv, callID, hid⟩
        rcases mem_recordedFlows.1 hinv with ⟨i', hi', rfl⟩
        rw [numSeen_eq_count]
        exact List.count_eq_zero.2 (hapart ⟨i', hi', callID, hid⟩ i hmem)
      have hiterations : i.controlFlow.recorded.iterations.length ≤ fuel := by
        calc i.controlFlow.recorded.iterations.length
            = i.controlFlow.iterations.length := List.length_map _
          _ = i.iterations.length := List.length_map _
          _ ≤ fuel := hfuel i hmem
      have hsliceable := ht.sliceable htraces hget
        (lt_numSeen_of_order hb'.announced hcalls horder) subInstrList key.1 hiterations
      rw [LoopInvocation.instancesCounted_eq hseparate hsubOf] at hsliceable
      refine ⟨dealtTo i.controlFlow order key.1, Places.seen hsliceable, ?_, ?_⟩
      · rw [(hb'.dealtTo_perm hcalls horder hseparate hsubOf).1.length_eq, LoopInvocation.places,
          List.length_map]
      · rw [relatedIn_iff htraces he hn hb hfirst]
        exact MemoryInvocation.dealtTo_eq_iff hb' hcalls horder hseparate hsubOf

theorem length_of_traced (h : TracedAll (recordedFlows invs) groupOf es 0 ts) :
    ts.length = invs.length := by
  rw [← Nat.zero_add ts.length, h.length, recordedFlows, controlFlows, List.length_map,
    List.length_map]

theorem tracedIf_of_traced (h : TracedAll (recordedFlows invs) groupOf es 0 ts)
    {o : Option InvocationTraces} (ho : ts[n]? = some o) (hi : invs[n]? = some i) :
    TracedIf (recordedFlows invs) groupOf es n i.controlFlow.recorded o := by
  rcases h.traced n o ho with ⟨inv, hget, htraced⟩
  rw [Nat.zero_add] at hget htraced
  rcases Option.some.inj ((getElem?_recorded (getElem?_controlFlows hi)).symm.trans hget) with rfl
  exact htraced

/-- A stream is read in turn if and only if this is so in every invocation. -/
theorem readInTurn_placed_iff (htraces : TracesDescribe (recordedFlows invs) groupOf es callList)
    (hsub : ∀ s, s ∈ subInstrList ↔
      ∃ inv ∈ recordedFlows invs, ∃ id, s ∈ (inv.calls id).flatten)
    (hplaced : ∀ (n : Nat) (i : MemoryInvocation), invs[n]? = some i →
      RelatedIn invs es CallsPlaced n i)
    (hapart : SeenApart invs key.1) (hfuel : ∀ i ∈ invs, i.iterations.length ≤ fuel)
    (hts : TracedAll (recordedFlows invs) groupOf es 0 ts)
    (hlen : (executionCalls loopID (controlFlows invs)).length < 2 ^ 64)
    {strides : BitVec 64 → BitVec 64 → Prop} {s : MemoryTraceStreamer}
    (hstream : MemoryTraceStreamer.Streaming strides (streamOf invs key) 0 s)
    (hlong : (streamOf invs key).length ≤ fuel) :
    ReadInTurn fuel subInstrList key.1 s ts (invs.map fun i => i.placed key) ↔
      ∀ (n : Nat) (i : MemoryInvocation), invs[n]? = some i →
        i.OneEach key ∧ RelatedIn invs es (IterationsKept key.1) n i := by
  have hlength := length_of_traced hts
  let placesOf (n : Nat) (o : Option InvocationTraces) (i : MemoryInvocation) (places : List Nat) :=
    Places fuel subInstrList key.1 o places ∧ places.length = (i.controlFlow.tags key.1).length ∧
      (places = (i.placed key).map Prod.fst ↔
        i.OneEach key ∧ RelatedIn invs es (IterationsKept key.1) n i)
  rcases exists_forall_getElem (P := placesOf) hlength fun n ho hi =>
      exists_places htraces hsub hplaced hapart hfuel (List.getElem?_eq_getElem hi)
        (tracedIf_of_traced hts (List.getElem?_eq_getElem ho) (List.getElem?_eq_getElem hi)) with
    ⟨places, hus, hplaces⟩
  have hinvs : places.length = invs.length := hus.trans hlength
  have hall : List.Forall₂ (Places fuel subInstrList key.1) ts places := by
    refine List.forall₂_iff_get.2 ⟨hus.symm, fun n hn hu => ?_⟩
    exact (hplaces n hn (hlength ▸ hn) hu).1
  -- as many references are asked for as there are instances
  have hsum : 0 + (places.map List.length).sum < 2 ^ 64 := by
    have hmap : places.map List.length = invs.map fun i => (i.controlFlow.tags key.1).length := by
      refine List.ext_getElem (by rw [List.length_map, List.length_map, hinvs]) fun n hn hn' => ?_
      rw [List.length_map] at hn hn'
      rw [List.getElem_map, List.getElem_map]
      exact (hplaces n (hlength ▸ hn') hn' hn).2.1
    rw [Nat.zero_add, hmap]
    exact Nat.lt_of_le_of_lt (sum_length_tags_le loopID invs key.1) hlen
  have hdrop : (streamOf invs key).drop 0
      = (invs.map fun i => i.placed key).flatten.map Prod.snd := by
    rw [List.drop_zero, map_snd_flatten_placed]
  rw [hstream.readInTurn_iff hall hlong hsum hdrop (by rw [List.length_map, hlength])]
  constructor
  · rintro h n i hi
    rcases List.getElem?_eq_some_iff.1 hi with ⟨hn, rfl⟩
    refine (hplaces n (hlength ▸ hn) hn (hinvs ▸ hn)).2.2.1 ?_
    simp only [h, List.getElem_map]
  · intro h
    refine List.ext_getElem (by rw [List.length_map, List.length_map, hinvs]) fun n hu hn => ?_
    rw [List.length_map, List.length_map] at hn
    rw [List.getElem_map, List.getElem_map]
    exact (hplaces n (hlength ▸ hn) hn hu).2.2.2 (h n _ (List.getElem?_eq_getElem hn))

/-- What the traces of an execution say of it, in the reads that they come in. -/
structure LoopRead (loopID : UInt64) (invs : List MemoryInvocation) (fuel : Nat)
    (loopTrace callTrace : List BzRead) (groupOf : Nat → InvocationGroupCfc)
    (es : List CallTraceLoopInvocationGroup) (callList : List UInt64) (subInstrList : Finset UInt64)
    (ts : List (Option InvocationTraces)) : Prop where
  describe : TracesDescribe (recordedFlows invs) groupOf es callList
  groups : callTraceGroups loopID (controlFlows invs) = es.map fun e => numbers e.repetitions
  mem_subInstrList : ∀ s, s ∈ subInstrList ↔
    ∃ inv ∈ recordedFlows invs, ∃ id, s ∈ (inv.calls id).flatten
  traced : TracedAll (recordedFlows invs) groupOf es 0 ts
  analysed : AnalysedWhereSeen ts invs
  handsOver : HandsOver fuel loopTrace callTrace subInstrList ts

theorem analysedWhereSeen_of_traced (h : TracedAll (recordedFlows invs) groupOf es 0 ts) :
    AnalysedWhereSeen ts invs := by
  refine List.forall₂_iff_get.2 ⟨length_of_traced h, fun n hn hn' => ?_⟩
  have htraced := tracedIf_of_traced h (List.getElem?_eq_getElem hn) (List.getElem?_eq_getElem hn')
  rw [List.get_eq_getElem, List.get_eq_getElem]
  generalize ts[n] = o at htraced
  cases htraced with
  | empty hempty => exact iff_of_false Bool.false_ne_true (not_not.2 hempty)
  | seen hseen _ => exact iff_of_true rfl hseen

theorem exists_loopRead {files : LoopTracer.Files}
    (hlen : (executionCalls loopID (controlFlows invs)).length < 2 ^ 64)
    (hfits : LoopTracer.init.Fits (LoopTracer.inTime (executionCalls loopID (controlFlows invs))))
    (hrecord : LoopTracer.record (LoopTracer.inTime (executionCalls loopID (controlFlows invs)))
      = some (some files))
    (hplaced : InGroups loopID (controlFlows invs) CallsPlaced) {loopTrace callTrace : List BzRead}
    (hloopTrace : Delivered files.loopTrace loopTrace)
    (hcallTrace : Delivered files.callTrace callTrace)
    (hfuel : (executionCalls loopID (controlFlows invs)).length < fuel) :
    ∃ groupOf es callList subInstrList ts,
      LoopRead loopID invs fuel loopTrace callTrace groupOf es callList subInstrList ts := by
  rcases exists_tracesRead_of_record hlen hfits hrecord with
    ⟨-, groupOf, es, hgroups, hdelivered⟩
  rcases hdelivered loopTrace callTrace hloopTrace hcallTrace with ⟨callList, hread, -⟩
  have hlong : (recordedFlows invs).length < fuel :=
    Nat.lt_of_le_of_lt (length_recorded_le loopID (controlFlows invs)) hfuel
  have hseen : ∀ inv ∈ recordedFlows invs, inv.iterations.flatten.length ≤ fuel := fun inv hinv =>
    Nat.le_trans (length_symbols_recorded_le loopID hinv) (Nat.le_of_lt hfuel)
  rcases hread.visitTraces_cases hlong hseen with
    ⟨callTraces, hparse, ⟨ts, hts, -, hloop⟩ | ⟨hnot, -⟩⟩
  · refine ⟨groupOf, es, _, _, ts, hread.describe, hgroups, hread.mem_subInstrList, hts,
      analysedWhereSeen_of_traced hts, callList, callTraces, hread.lists, hparse, fun analyse s => ?_⟩
    rw [inSetOrder, hread.loop _ _ fuel (Nat.le_of_lt hlong)]
    exact hloop analyse s
  · -- all caches are built
    have hannounced := hplaced.imp fun _ _ h => h.announced
    exact absurd hnot (hannounced.not_notFound hgroups)

/-- All traces that are handed over. -/
theorem analyseAll_collect (ts : List (Option InvocationTraces)) :
    ∀ s : List InvocationTraces,
      analyseAll (fun s t => .ok (s ++ [t])) s ts = .ok (s ++ ts.reduceOption) := by
  induction ts with
  | nil => exact fun s => congrArg Except.ok (List.append_nil s).symm
  | cons o ts ih =>
      intro s
      cases o with
      | none => exact ih s
      | some t =>
          rw [List.reduceOption_cons_of_some, List.append_cons]
          exact ih (s ++ [t])

/-- What is handed over is determined by the loop. -/
theorem HandsOver.unique {loopTrace callTrace : List BzRead} {subInstrList' : Finset UInt64}
    {ts' : List (Option InvocationTraces)} (h : HandsOver fuel loopTrace callTrace subInstrList ts)
    (h' : HandsOver fuel loopTrace callTrace subInstrList' ts')
    (hseen : AnalysedWhereSeen ts invs) (hseen' : AnalysedWhereSeen ts' invs) :
    subInstrList' = subInstrList ∧ ts' = ts := by
  rcases h with ⟨callList, callTraces, hlists, hparse, hloop⟩
  rcases h' with ⟨callList', callTraces', hlists', hparse', hloop'⟩
  rcases Prod.mk.inj (Except.ok.inj (hlists.symm.trans hlists')) with ⟨rfl, rfl⟩
  rcases Except.ok.inj (hparse.symm.trans hparse') with rfl
  refine ⟨rfl, ?_⟩
  have hcollected := (hloop (fun s t => .ok (s ++ [t])) []).symm.trans
    (hloop' (fun s t => .ok (s ++ [t])) [])
  rw [analyseAll_collect, analyseAll_collect, List.nil_append, List.nil_append] at hcollected
  have hreduced := Except.ok.inj hcollected
  clear hloop hloop' hcollected hlists hlists' hparse hparse'
  -- the same invocations are analysed
  induction hseen generalizing ts' with
  | nil =>
      cases hseen'
      rfl
  | @cons o i ts invs ho _ ih =>
      cases hseen' with
      | @cons o' _ ts' _ ho' hrest' =>
          have hsame : o.isSome = o'.isSome := Bool.eq_iff_iff.2 (ho.trans ho'.symm)
          cases o with
          | none =>
              cases o' with
              | none => rw [ih hrest' hreduced]
              | some t' => cases hsame
          | some t =>
              cases o' with
              | none => cases hsame
              | some t' =>
                  rw [List.reduceOption_cons_of_some, List.reduceOption_cons_of_some] at hreduced
                  rcases List.cons.inj hreduced with ⟨rfl, hrest⟩
                  rw [ih hrest' hrest]

/-- The streams of a menu have files. -/
theorem opened_of_subset {menu : InstrPairMenu}
    (h : ∀ WAW, menu.pairs WAW ⊆ streamPairs memtraceInstrIDs WAW) (hkey : menu.Needs key) :
    Opened memtraceInstrIDs key := by
  rcases hkey with ⟨WAW, p, hp, hpair⟩
  exact opened_of_mem_streamPairs (h WAW hp) hpair

/-- A menu with one pair. -/
def singlePair (WAW : Bool) (p : UInt64 × UInt64) : InstrPairMenu where
  rw_menu := if WAW then [] else [p]
  ww_menu := if WAW then [p] else []

theorem pairs_singlePair {WAW : Bool} {p q : UInt64 × UInt64} {WAW' : Bool} :
    q ∈ (singlePair WAW p).pairs WAW' ↔ WAW' = WAW ∧ q = p := by
  cases WAW <;> cases WAW' <;> simp [singlePair, InstrPairMenu.pairs]

section Streams

variable {loopTrace callTrace : List BzRead} {memoryTraces : UInt64 × Stream → List BzRead}

/-- When the streams of an execution are read in turn. -/
theorem LoopRead.readInTurn_iff
    (h : LoopRead loopID invs fuel loopTrace callTrace groupOf es callList subInstrList ts)
    (hlen : (executionCalls loopID (controlFlows invs)).length < 2 ^ 64)
    (hplaced : InGroups loopID (controlFlows invs) CallsPlaced) (hapart : SeenApart invs key.1)
    (hfuel : (executionCalls loopID (controlFlows invs)).length < fuel)
    (huser : ∀ r ∈ streamOf invs key, r.InUserSpace) (hfew : (streamOf invs key).length < 2 ^ 64)
    (hlong : (streamOf invs key).length ≤ fuel) (hreads : ReadsStream invs key (memoryTraces key)) :
    ReadInTurn fuel subInstrList key.1 (MemoryTraceStreamer.new (memoryTraces key)) ts
        (invs.map fun i => i.placed key) ↔
      (∀ i ∈ invs, i.OneEach key) ∧
        InGroups loopID (controlFlows invs) (IterationsKept key.1) := by
  have hiterations : ∀ i ∈ invs, i.iterations.length ≤ fuel := by
    intro i hi
    have hrecorded : i.controlFlow.recorded ∈ recordedFlows invs :=
      mem_recordedFlows.2 ⟨i, hi, rfl⟩
    calc i.iterations.length
        = i.controlFlow.recorded.iterations.length := by
          rw [LoopInvocation.recorded, LoopInvocation.iterationSymbols, List.length_map,
            MemoryInvocation.controlFlow, List.length_map]
      _ ≤ (executionCalls loopID (controlFlows invs)).length :=
          length_iterations_recorded_le loopID hrecorded
      _ ≤ fuel := Nat.le_of_lt hfuel
  rw [readInTurn_placed_iff h.describe h.mem_subInstrList ((inGroups_iff h.groups).1 hplaced) hapart
    hiterations h.traced hlen (hreads.streaming hfew huser) hlong, inGroups_iff h.groups]
  constructor
  · intro hall
    refine ⟨fun i hi => ?_, fun n i hi => (hall n i hi).2⟩
    rcases List.mem_iff_getElem?.1 hi with ⟨n, hn⟩
    exact (hall n i hn).1
  · rintro ⟨hone, hkept⟩ n i hi
    exact ⟨hone i (List.mem_of_getElem? hi), hkept n i hi⟩

/-- All streams that a menu needs are read in turn, if each of them is. -/
theorem allReadInTurn_start_iff {menu : InstrPairMenu}
    (hmenu : ∀ WAW, menu.pairs WAW ⊆ streamPairs memtraceInstrIDs WAW) :
    LoopAnalysis.AllReadInTurn fuel subInstrList
        (LoopAnalysis.start menu memtraceInstrIDs memoryTraces) ts
        (invs.map MemoryInvocation.placed) ↔
      ∀ key, menu.Needs key → ReadInTurn fuel subInstrList key.1
        (MemoryTraceStreamer.new (memoryTraces key)) ts (invs.map fun i => i.placed key) := by
  refine forall_congr' fun key => imp_congr_right fun hkey => ?_
  have hopen : (LoopAnalysis.start menu memtraceInstrIDs memoryTraces).memtraceStreamers key
      = some (MemoryTraceStreamer.new (memoryTraces key)) :=
    openStreams_of_opened (opened_of_subset hmenu hkey)
  rw [hopen, List.map_map]
  constructor
  · rintro ⟨s, hs, hturn⟩
    rcases Option.some.inj hs with rfl
    exact hturn
  · exact fun hturn => ⟨_, rfl, hturn⟩

end Streams

/-- Where what is consumed is what has been made, every iteration makes one reference for each
instance, and the calls come in the order of their iterations. -/
theorem StaysAligned.oneEach
    (h : StaysAligned loopID invs memtraceInstrIDs)
    (hlen : (executionCalls loopID (controlFlows invs)).length < 2 ^ 64)
    (hfits : LoopTracer.init.Fits (LoopTracer.inTime (executionCalls loopID (controlFlows invs))))
    (hplaced : InGroups loopID (controlFlows invs) CallsPlaced)
    (hapart : ∀ key, Opened memtraceInstrIDs key → SeenApart invs key.1)
    (huser : ∀ key, Opened memtraceInstrIDs key → ∀ r ∈ streamOf invs key, r.InUserSpace)
    (hfew : ∀ key, Opened memtraceInstrIDs key → (streamOf invs key).length < 2 ^ 64)
    (hkey : Paired memtraceInstrIDs key) :
    (∀ i ∈ invs, i.OneEach key) ∧ InGroups loopID (controlFlows invs) (IterationsKept key.1) := by
  rcases LoopTracer.record_execution loopID (controlFlows invs) hlen hfits with
    ⟨hnil, hrecord⟩ | ⟨files, hrecord, -, -⟩
  · -- there is no invocation
    have hinvs : invs = [] := List.map_eq_nil_iff.1 hnil
    subst hinvs
    refine ⟨by simp, ?_⟩
    intro ns _ m built hbuilt
    cases hbuilt
  simp only [StaysAligned, hrecord] at h
  rcases exists_tracesRead_of_record hlen hfits hrecord with ⟨⟨hloopLines, hcallLines, -⟩, -⟩
  let memoryTraces : UInt64 × Stream → List BzRead := fun key => wholeRead
    ((MemoryTracer.run (invs.flatMap MemoryInvocation.memoryCalls)).shutdown key.1 key.2)
  have hreads : ∀ key, Opened memtraceInstrIDs key → ReadsStream invs key (memoryTraces key) :=
    fun key hkey => readsStream_wholeRead invs key (hfew key hkey)
  let fuel := max ((executionCalls loopID (controlFlows invs)).length + 1) (2 ^ 64)
  have hfuel : (executionCalls loopID (controlFlows invs)).length < fuel :=
    Nat.lt_of_lt_of_le (Nat.lt_succ_self _) (Nat.le_max_left _ _)
  have hlong : ∀ key, Opened memtraceInstrIDs key → (streamOf invs key).length ≤ fuel :=
    fun key hkey => Nat.le_trans (Nat.le_of_lt (hfew key hkey)) (Nat.le_max_right _ _)
  rcases exists_loopRead hlen hfits hrecord hplaced hloopLines.delivered hcallLines.delivered hfuel
    with ⟨groupOf, es, callList, subInstrList, ts, hread⟩
  rcases h _ _ memoryTraces fuel hloopLines.delivered hcallLines.delivered hreads hfuel hlong with
    ⟨subInstrList', ts', hover, hseen, haligned⟩
  rcases hread.handsOver.unique hover hread.analysed hseen with ⟨rfl, rfl⟩
  rcases hkey with ⟨WAW, p, hp, hpair⟩
  have hmenu : ∀ WAW', (singlePair WAW p).pairs WAW' ⊆ streamPairs memtraceInstrIDs WAW' := by
    intro WAW' q hq
    rcases pairs_singlePair.1 hq with ⟨rfl, rfl⟩
    exact hp
  have hneeds : (singlePair WAW p).Needs key := ⟨WAW, p, pairs_singlePair.2 ⟨rfl, rfl⟩, hpair⟩
  have hopened := opened_of_subset hmenu hneeds
  have hlengths : (invs.map MemoryInvocation.placed).length = ts'.length := by
    rw [List.length_map, hseen.length_eq]
  have hturn := LoopAnalysis.readInTurn_of_aligned ts' hlengths ?_ ?_
    (haligned {} (fun _ _ => some false) IntervalTree.mergeByStart _ hmenu)
  · exact (hread.readInTurn_iff hlen hplaced (hapart key hopened) hfuel (huser key hopened)
      (hfew key hopened) (hlong key hopened) (hreads key hopened)).1
        ((allReadInTurn_start_iff hmenu).1 hturn key hneeds)
  · intro refs hrefs key hkey
    rcases List.mem_map.1 hrefs with ⟨i, hi, rfl⟩
    exact Nat.le_trans (length_placed_le hi) (hlong key (opened_of_subset hmenu hkey))
  · intro key hkey
    exact ⟨_, openStreams_of_opened (opened_of_subset hmenu hkey)⟩

/-- In one iteration, the first instance of the instruction in a call makes two reads, and the second
one none. -/
def unevenReads : List MemoryInvocation :=
  [⟨1, [[.seen 3 (some (.ofWrite 1000)),
      .call 9 none [.seen 7 (some ⟨1000, 4, 2000, 4, 0, 0⟩), .dump, .seen 7 none]],
      [.call 5 none [.seen 7 (some (.ofRead 1000)), .memTraceDump]]]⟩,
    ⟨0, [[.call 9 none [.seen 7 (some ⟨1000, 4, 2000, 4, 0, 0⟩), .seen 7 none]],
      [.call 5 none [.seen 7 (some (.ofRead 1004))], .seen 3 (some (.ofWrite 1008))]]⟩]

/-- Each time that it is seen, the instruction makes two reads. -/
def twoReads : List MemoryInvocation :=
  [⟨0, [[.seen 3 (some (.ofWrite 1000))], [.seen 7 (some ⟨1000, 4, 2000, 4, 0, 0⟩)]]⟩,
    ⟨0, [[.seen 3 (some (.ofWrite 1000))], [.seen 7 (some ⟨1000, 4, 2000, 4, 0, 0⟩)]]⟩]

end Execution
end CamAlias
