import CamAlias.Dependence.Adjacency
import CamAlias.RoundTrip.Blocks

/-!
# Dependences — what is found in the traces of a loop

`dependence_analysis` reads a loop trace, a call trace and the memory traces of single instructions, and
nothing in the memory traces says to which invocation, iteration or call a reference belongs.  Where the
counts and the blocks of every stream are in step with the references that are made, the dependences are
those between these references, up to the invocation in which a pair is erased.

* `Traced.constantCallIDs_eq`: when a pair is erased;
* `TracesRead.dependence_analysis_eq`: the dependences.
-/

namespace CamAlias

open Lib

/-! ## One invocation -/

/-- The references that are made to a stream in an invocation are in step with its traces. -/
structure InStepWith (subInstrList : Finset UInt64) (inv : Invocation) (order : List (UInt64 × Nat))
    (id : UInt64) (refs : List TaggedReference) : Prop where
  counted : instancesCounted subInstrList inv order id = refs.length
  tags : (instanceBlocks inv order id).flatMap Block.tags = refs.map Prod.fst

section Invocation

variable {invs : List Invocation} {groupOf : Nat → InvocationGroupCfc}
  {es : List CallTraceLoopInvocationGroup} {n : Nat} {inv : Invocation}
  {order : List (UInt64 × Nat)} {t : InvocationTraces} {subInstrList : Finset UInt64} {id : UInt64}
  {refs : List TaggedReference}

theorem oneInstruction_iff_tags :
    OneInstruction refs ↔ ∀ tag ∈ refs.map Prod.fst, ∀ tag' ∈ refs.map Prod.fst, tag.2 = tag'.2 := by
  simp only [OneInstruction, List.forall_mem_map]

/-- The iterations have the instruction itself. -/
theorem tag_snd_of_mem_iterationBlocks {iterations : List (List UInt64)} {tag : Nat × UInt64}
    (h : tag ∈ (iterationBlocks iterations id).flatMap Block.tags) : tag.2 = id := by
  rcases List.mem_flatMap.1 h with ⟨b, hb, htag⟩
  rcases List.mem_map.1 hb with ⟨k, -, rfl⟩
  exact congrArg Prod.snd (List.eq_of_mem_replicate htag)

/-- The calls have their IDs. -/
theorem exists_tag_iff_exists_call {callID : UInt64} :
    (∃ tag ∈ (callBlocks inv order id).flatMap Block.tags, tag.2 = callID) ↔
      ∃ p ∈ order.filter fun p => 0 < CallTraceLoopInvocationGroup.seenInCall inv.calls id p,
        p.1 = callID := by
  constructor
  · rintro ⟨tag, htag, rfl⟩
    rcases List.mem_flatMap.1 htag with ⟨b, hb, htag⟩
    rcases List.mem_map.1 hb with ⟨p, hp, rfl⟩
    exact ⟨p, hp, (congrArg Prod.snd (List.eq_of_mem_replicate htag)).symm⟩
  · rintro ⟨p, hp, rfl⟩
    have hpos : 0 < CallTraceLoopInvocationGroup.seenInCall inv.calls id p :=
      of_decide_eq_true (List.mem_filter.1 hp).2
    refine ⟨_, List.mem_flatMap.2 ⟨_, List.mem_map_of_mem hp, List.mem_replicate.2
      ⟨Nat.pos_iff_ne_zero.1 hpos, rfl⟩⟩, rfl⟩

/-- Whether an instruction has one effective instruction in an invocation. -/
theorem Traced.hasConstantCallID_eq (h : Traced invs groupOf es n inv order t)
    (hsmall : (order.map (CallTraceLoopInvocationGroup.seenInCall inv.calls id)).sum < 2 ^ 64)
    (hstep : InStepWith subInstrList inv order id refs)
    (hseparate : id ∈ subInstrList → numSeen inv.iterations id = 0) (hne : refs ≠ []) :
    ∃ c, t.hasConstantCallID subInstrList id = .ok c ∧ (c = true ↔ OneInstruction refs) := by
  have htags := hstep.tags
  have hpos : 0 < refs.length := List.length_pos_iff.2 hne
  rw [oneInstruction_iff_tags, ← htags]
  by_cases hsub : id ∈ subInstrList
  · have hzero := hseparate hsub
    have hblocks : instanceBlocks inv order id = callBlocks inv order id :=
      if_neg (by rw [hzero]; exact Nat.lt_irrefl 0)
    let count := CallTraceLoopInvocationGroup.seenInCall inv.calls id
    have hsum : 0 + (order.map count).sum < 2 ^ 64 := by rwa [Nat.zero_add]
    have hmap := map_cacheEntries order 0 hsum
    rw [← h.callInstances id] at hmap
    -- the call IDs of the entries
    have hids : (t.invocCallTrace.callInstances id).map (fun c => c.callID)
        = (order.filter fun p => 0 < count p).map Prod.fst := by
      calc (t.invocCallTrace.callInstances id).map (fun c => c.callID)
          = ((t.invocCallTrace.callInstances id).map
              (fun e => ((e.callID, e.callInstance), e.getNumInstances))).map fun x => x.1.1 := by
            rw [List.map_map]
            rfl
        _ = _ := by
            rw [hmap, List.map_map]
            rfl
    have hentries : t.invocCallTrace.callInstances id ≠ [] := by
      intro hnil
      rw [hnil] at hids
      have hnone : (order.filter fun p => 0 < count p) = [] := List.map_eq_nil_iff.1 hids.symm
      have hlen := congrArg List.length htags
      rw [hblocks, callBlocks, hnone, List.length_map] at hlen
      exact Nat.lt_irrefl _ (hlen ▸ hpos)
    have hmem : ∀ callID, (∃ tag ∈ (instanceBlocks inv order id).flatMap Block.tags,
        tag.2 = callID) ↔ ∃ c ∈ t.invocCallTrace.callInstances id, c.callID = callID := by
      intro callID
      rw [hblocks, exists_tag_iff_exists_call, ← List.mem_map, ← List.mem_map, hids]
    have hflag : t.hasConstantCallID subInstrList id = t.invocCallTrace.isConstantCallID id :=
      if_pos hsub
    refine ⟨_, hflag.trans (h.constantCallIDs id hentries), ?_⟩
    simp only [List.all_eq_true, beq_iff_eq]
    constructor
    · intro hall tag htag tag' htag'
      rcases (hmem _).1 ⟨tag, htag, rfl⟩ with ⟨c, hc, hcID⟩
      rcases (hmem _).1 ⟨tag', htag', rfl⟩ with ⟨c', hc', hcID'⟩
      rw [← hcID, ← hcID']
      exact hall c hc c' hc'
    · intro hall c hc c' hc'
      rcases (hmem _).2 ⟨c, hc, rfl⟩ with ⟨tag, htag, htagID⟩
      rcases (hmem _).2 ⟨c', hc', rfl⟩ with ⟨tag', htag', htagID'⟩
      rw [← htagID, ← htagID']
      exact hall tag htag tag' htag'
  · have hcounted := hstep.counted
    rw [instancesCounted, if_neg hsub] at hcounted
    have hblocks : instanceBlocks inv order id = iterationBlocks inv.iterations id :=
      if_pos (hcounted ▸ hpos)
    refine ⟨true, by rw [InvocationTraces.hasConstantCallID, if_neg hsub], iff_of_true rfl ?_⟩
    intro tag htag tag' htag'
    rw [hblocks] at htag htag'
    rw [tag_snd_of_mem_iterationBlocks htag, tag_snd_of_mem_iterationBlocks htag']

/-- When a pair is erased. -/
theorem Traced.constantCallIDs_eq {refsOf : UInt64 × Stream → List TaggedReference}
    (h : Traced invs groupOf es n inv order t)
    (hsmall : ∀ id, (order.map (CallTraceLoopInvocationGroup.seenInCall inv.calls id)).sum < 2 ^ 64)
    {keyA keyB : UInt64 × Stream}
    (hstepA : InStepWith subInstrList inv order keyA.1 (refsOf keyA))
    (hstepB : InStepWith subInstrList inv order keyB.1 (refsOf keyB))
    (hseparateA : keyA.1 ∈ subInstrList → numSeen inv.iterations keyA.1 = 0)
    (hseparateB : keyB.1 ∈ subInstrList → numSeen inv.iterations keyB.1 = 0)
    (hneA : refsOf keyA ≠ []) (hneB : refsOf keyB ≠ []) :
    ∃ c, CamAlias.constantCallIDs subInstrList t (keyA.1, keyB.1) = .ok c ∧
      (c = true ↔ OneInstruction (refsOf keyA) ∧ OneInstruction (refsOf keyB)) := by
  rcases h.hasConstantCallID_eq (hsmall _) hstepA hseparateA hneA with ⟨a, ha, haOne⟩
  rcases h.hasConstantCallID_eq (hsmall _) hstepB hseparateB hneB with ⟨b, hb, hbOne⟩
  rw [← haOne, ← hbOne]
  cases a with
  | false => exact ⟨false, by simp only [CamAlias.constantCallIDs, ha], by simp⟩
  | true => exact ⟨b, by simp only [CamAlias.constantCallIDs, ha, hb], by simp⟩

end Invocation

/-! ## All invocations -/

/-- The references of all invocations to a stream. -/
def madeTo (made : List (UInt64 × Stream → List TaggedReference)) (key : UInt64 × Stream) :
    List Reference :=
  (made.flatMap fun refs => refs key).map Prod.snd

/-- The references that are made in one invocation after the other, to the streams that are needed: they
are what the files have, and they are in step with the traces. -/
structure MadeInStep (fuel : Nat) (done : List Invocation) (es : List CallTraceLoopInvocationGroup)
    (subInstrList : Finset UInt64) (needs : UInt64 × Stream → Prop)
    (memoryTraces : UInt64 × Stream → List BzRead)
    (made : List (UInt64 × Stream → List TaggedReference)) : Prop where
  length : made.length = done.length
  streaming : ∀ key, needs key → MemoryTraceStreamer.Streaming (StrideIn (madeTo made key))
    (madeTo made key) 0 (MemoryTraceStreamer.new (memoryTraces key))
  fuel : ∀ key, needs key → (madeTo made key).length ≤ fuel
  userSpace : ∀ key, needs key → ∀ r ∈ madeTo made key, r.InUserSpace
  announced : ∀ (n : Nat) (inv : Invocation) (order : List (UInt64 × Nat)), done[n]? = some inv →
    GroupOrder done es n inv order → ∀ p ∈ order, p.2 < numSeen inv.iterations p.1
  separate : ∀ inv ∈ done, ∀ key, needs key → key.1 ∈ subInstrList →
    numSeen inv.iterations key.1 = 0
  empty : ∀ (n : Nat) (inv : Invocation) (refs : UInt64 × Stream → List TaggedReference),
    done[n]? = some inv → made[n]? = some refs → inv.iterations.flatten = [] →
      ∀ key, needs key → refs key = []
  inStep : ∀ (n : Nat) (inv : Invocation) (refs : UInt64 × Stream → List TaggedReference)
    (order : List (UInt64 × Nat)), done[n]? = some inv → made[n]? = some refs →
      inv.iterations.flatten ≠ [] → GroupOrder done es n inv order →
      CallOrder.Found inv.calls order →
      ∀ key, needs key → InStepWith subInstrList inv order key.1 (refs key)

/-- The invocations in which something is seen, with their references. -/
def withTraces (zs : List (Option InvocationTraces × (UInt64 × Stream → List TaggedReference))) :
    List (InvocationTraces × (UInt64 × Stream → List TaggedReference)) :=
  zs.filterMap fun z => z.1.map fun t => (t, z.2)

theorem mem_withTraces {zs : List (Option InvocationTraces × (UInt64 × Stream → List TaggedReference))}
    {row : InvocationTraces × (UInt64 × Stream → List TaggedReference)} :
    row ∈ withTraces zs ↔ (some row.1, row.2) ∈ zs := by
  rw [withTraces, List.mem_filterMap]
  constructor
  · rintro ⟨⟨o, refs⟩, hz, hrow⟩
    rcases Option.map_eq_some_iff.1 hrow with ⟨t, rfl, rfl⟩
    exact hz
  · exact fun hz => ⟨_, hz, rfl⟩

theorem map_fst_withTraces
    (zs : List (Option InvocationTraces × (UInt64 × Stream → List TaggedReference))) :
    (withTraces zs).map Prod.fst = (zs.map Prod.fst).reduceOption := by
  rw [withTraces, List.map_filterMap, List.reduceOption, List.filterMap_map]
  refine List.filterMap_congr fun z _ => ?_
  rcases z with ⟨_ | t, refs⟩ <;> rfl

/-- Nothing is lost with the other invocations if nothing is made in them. -/
theorem flatten_withTraces {key : UInt64 × Stream}
    (zs : List (Option InvocationTraces × (UInt64 × Stream → List TaggedReference)))
    (hempty : ∀ z ∈ zs, z.1 = none → z.2 key = []) :
    ((withTraces zs).map fun row => row.2 key).flatten = zs.flatMap fun z => z.2 key := by
  induction zs with
  | nil => rfl
  | cons z zs ih =>
      rcases List.forall_mem_cons.1 hempty with ⟨hfirst, hrest⟩
      rw [List.flatMap_cons, ← ih hrest]
      rcases z with ⟨o, refs⟩
      cases o with
      | none =>
          rw [hfirst rfl]
          rfl
      | some t => rfl

section Run

variable {fuel : Nat} {done : List Invocation} {groupOf : Nat → InvocationGroupCfc}
  {es : List CallTraceLoopInvocationGroup} {subInstrList : Finset UInt64}
  {needs : UInt64 × Stream → Prop} {memoryTraces : UInt64 × Stream → List BzRead}
  {made : List (UInt64 × Stream → List TaggedReference)} {ts : List (Option InvocationTraces)}

/-- What is known of an invocation in which something is seen. -/
structure RowOf (done : List Invocation) (groupOf : Nat → InvocationGroupCfc)
    (es : List CallTraceLoopInvocationGroup)
    (made : List (UInt64 × Stream → List TaggedReference)) (n : Nat) (inv : Invocation)
    (order : List (UInt64 × Nat))
    (row : InvocationTraces × (UInt64 × Stream → List TaggedReference)) : Prop where
  get : done[n]? = some inv
  made : made[n]? = some row.2
  seen : inv.iterations.flatten ≠ []
  traced : Traced done groupOf es n inv order row.1

theorem TracedAll.exists_rowOf (hts : TracedAll done groupOf es 0 ts)
    {row : InvocationTraces × (UInt64 × Stream → List TaggedReference)}
    (hrow : row ∈ withTraces (ts.zip made)) :
    ∃ n inv order, RowOf done groupOf es made n inv order row := by
  rcases List.mem_iff_getElem?.1 (mem_withTraces.1 hrow) with ⟨n, hn⟩
  rcases List.getElem?_zip_eq_some.1 hn with ⟨ht, hmade⟩
  rcases hts.traced n _ ht with ⟨inv, hget, htraced⟩
  rw [Nat.zero_add] at hget htraced
  cases htraced with
  | seen hseen htraced => exact ⟨n, inv, _, hget, hmade, hseen, htraced⟩

/-- Nothing is made in an invocation in which nothing is seen. -/
theorem MadeInStep.empty_of_none (h : MadeInStep fuel done es subInstrList needs memoryTraces made)
    (hts : TracedAll done groupOf es 0 ts) {key : UInt64 × Stream} (hkey : needs key)
    {z : Option InvocationTraces × (UInt64 × Stream → List TaggedReference)}
    (hz : z ∈ ts.zip made) (hnone : z.1 = none) : z.2 key = [] := by
  rcases List.mem_iff_getElem?.1 hz with ⟨n, hn⟩
  rcases List.getElem?_zip_eq_some.1 hn with ⟨ht, hmade⟩
  rcases hts.traced n _ ht with ⟨inv, hget, htraced⟩
  rw [Nat.zero_add] at hget htraced
  rw [hnone] at htraced
  cases htraced with
  | empty hempty => exact h.empty n inv z.2 hget hmade hempty key hkey

/-- The counts and blocks of a stream, one invocation after the other. -/
theorem MadeInStep.exists_units (h : MadeInStep fuel done es subInstrList needs memoryTraces made)
    {callList : List UInt64} (htraces : TracesDescribe done groupOf es callList)
    (hfuel : ∀ inv ∈ done, inv.iterations.length ≤ fuel) {key : UInt64 × Stream} (hkey : needs key)
    {rows : List (InvocationTraces × (UInt64 × Stream → List TaggedReference))}
    (hrows : ∀ row ∈ rows, ∃ n inv order, RowOf done groupOf es made n inv order row) :
    ∃ us, List.Forall₂ (Sliceable fuel subInstrList key.1) (rows.map Prod.fst) us ∧
      InStep us (rows.map fun row => row.2 key) := by
  induction rows with
  | nil => exact ⟨[], List.Forall₂.nil, List.Forall₂.nil⟩
  | cons row rows ih =>
      rcases List.forall_mem_cons.1 hrows with ⟨⟨n, inv, order, hrow⟩, hrest⟩
      rcases ih hrest with ⟨us, hsliceable, hinStep⟩
      have hstep := h.inStep n inv row.2 order hrow.get hrow.made hrow.seen hrow.traced.groupOrder
        hrow.traced.found key hkey
      refine ⟨(instancesCounted subInstrList inv order key.1, instanceBlocks inv order key.1) :: us,
        List.Forall₂.cons ?_ hsliceable, List.Forall₂.cons ⟨hstep.counted, hstep.tags⟩ hinStep⟩
      exact hrow.traced.sliceable htraces hrow.get
        (h.announced n inv order hrow.get hrow.traced.groupOrder) subInstrList key.1
        (hfuel inv (List.mem_of_getElem? hrow.get))

/-- What an invocation refers to follows each other in the stream. -/
theorem infix_madeTo {refs : UInt64 × Stream → List TaggedReference} (h : refs ∈ made)
    (key : UInt64 × Stream) : (refs key).map Prod.snd <:+: madeTo made key := by
  have hwithin : refs key <:+: (made.map fun refs => refs key).flatten :=
    List.infix_of_mem_flatten (List.mem_map_of_mem (f := fun refs => refs key) h)
  rw [madeTo, List.flatMap_def]
  exact hwithin.map Prod.snd

/-- What is read of the streams is what has been made. -/
theorem MadeInStep.exists_slices (h : MadeInStep fuel done es subInstrList needs memoryTraces made)
    {callList : List UInt64} (htraces : TracesDescribe done groupOf es callList)
    (hfuel : ∀ inv ∈ done, inv.iterations.length ≤ fuel) (hts : TracedAll done groupOf es 0 ts) :
    ∃ slices : UInt64 × Stream → List (List MemSetEntry),
      SlicedInto fuel subInstrList needs (fun key => MemoryTraceStreamer.new (memoryTraces key))
        (invocationSteps ((withTraces (ts.zip made)).map Prod.fst) slices) ∧
      ∀ (n : Nat) (row : InvocationTraces × (UInt64 × Stream → List TaggedReference)),
        (withTraces (ts.zip made))[n]? = some row →
          StandFor needs (madeTo made) (fun key => (slices key).getD n []) row.2 := by
  have hmem : ∀ row ∈ withTraces (ts.zip made), ∃ n inv order,
      RowOf done groupOf es made n inv order row := fun row hrow => hts.exists_rowOf hrow
  have hlength : ts.length = made.length := by
    rw [h.length, ← hts.length, Nat.zero_add]
  have hread : ∀ key, ∃ slices, needs key →
      MemoryTraceStreamer.readSlices fuel subInstrList key.1
          (MemoryTraceStreamer.new (memoryTraces key)) ((withTraces (ts.zip made)).map Prod.fst)
            = .ok slices ∧
        slices.map (fun slice => slice.flatMap MemSetEntry.tagged)
          = (withTraces (ts.zip made)).map (fun row => row.2 key) ∧
        ∀ slice ∈ slices, Strided (StrideIn (madeTo made key)) slice := by
    intro key
    by_cases hkey : needs key
    · rcases h.exists_units htraces hfuel hkey hmem with ⟨us, hus, hinStep⟩
      have hstream := h.streaming key hkey
      have hfew := hstream.few
      -- nothing else is in the file
      have hall : ((withTraces (ts.zip made)).map fun row => row.2 key).flatten
          = made.flatMap fun refs => refs key := by
        rw [flatten_withTraces _ fun z hz hnone => h.empty_of_none hts hkey hz hnone]
        calc (ts.zip made).flatMap (fun z => z.2 key)
            = ((ts.zip made).map Prod.snd).flatMap fun refs => refs key := by
              rw [List.flatMap_map]
          _ = made.flatMap fun refs => refs key := by
              rw [List.map_snd_zip (Nat.le_of_eq hlength.symm)]
      have hdrop : (madeTo made key).drop 0
          = ((withTraces (ts.zip made)).map fun row => row.2 key).flatten.map Prod.snd := by
        rw [List.drop_zero, hall]
        rfl
      have hasked : 0 + (us.map Prod.fst).sum < 2 ^ 64 := by
        rw [Nat.zero_add, hinStep.sum_eq, hall, ← List.length_map Prod.snd]
        exact hfew
      have hiff := hstream.readSlices_iff hus (h.fuel key hkey) hasked hinStep.length hdrop
      rcases hiff.2 hinStep with ⟨slices, hslices⟩
      exact ⟨slices, fun _ => hslices⟩
    · exact ⟨[], fun hyes => absurd hyes hkey⟩
  choose slices hslices using hread
  refine ⟨slices, slicedInto_invocationSteps _ fun key hkey => (hslices key hkey).1, ?_⟩
  intro n row hrow
  have hslice : ∀ key, needs key → ∃ slice ∈ slices key, (slices key).getD n [] = slice ∧
      slice.flatMap MemSetEntry.tagged = row.2 key := by
    intro key hkey
    have hget := congrArg (fun xs => xs[n]?) (hslices key hkey).2.1
    simp only [List.getElem?_map, hrow, Option.map_some, Option.map_eq_some_iff] at hget
    rcases hget with ⟨slice, hslice, htagged⟩
    exact ⟨slice, List.mem_of_getElem? hslice, by
      rw [List.getD_eq_getElem?_getD, hslice, Option.getD_some], htagged⟩
  refine ⟨fun key hkey => ?_, fun key hkey e he => ?_, h.userSpace⟩
  · rcases hslice key hkey with ⟨slice, -, heq, htagged⟩
    rw [heq, htagged]
  · rcases hslice key hkey with ⟨slice, hmemSlice, heq, htagged⟩
    rw [heq] at he
    rcases hmem row (List.mem_of_getElem? hrow) with ⟨m, inv, order, hrowOf⟩
    exact ⟨( accesses_infix htagged he).trans (infix_madeTo (List.mem_of_getElem? hrowOf.made) key),
      (hslices key hkey).2.2 slice hmemSlice e he⟩

/-- An invocation is searched as its references are. -/
theorem MadeInStep.constantCallIDs (h : MadeInStep fuel done es subInstrList needs memoryTraces made)
    {callList : List UInt64} (htraces : TracesDescribe done groupOf es callList) {n : Nat}
    {inv : Invocation} {order : List (UInt64 × Nat)}
    {row : InvocationTraces × (UInt64 × Stream → List TaggedReference)}
    (hrow : RowOf done groupOf es made n inv order row) {WAW : Bool} {p : UInt64 × UInt64}
    (hneeds : ∀ key, NeedsOf WAW p key → needs key) (hne : row.2 (p.1, .write) ≠ [])
    (hne' : row.2 (p.2, secondStream WAW) ≠ []) :
    CamAlias.constantCallIDs subInstrList row.1 p = .ok (erasable subInstrList row.1 p) ∧
      (erasable subInstrList row.1 p = true ↔ OneInstruction (row.2 (p.1, .write)) ∧
        OneInstruction (row.2 (p.2, secondStream WAW))) := by
  have hstep : ∀ key, NeedsOf WAW p key → InStepWith subInstrList inv order key.1 (row.2 key) :=
    fun key hkey => h.inStep n inv row.2 order hrow.get hrow.made hrow.seen hrow.traced.groupOrder
      hrow.traced.found key (hneeds key hkey)
  have hseparate : ∀ key, NeedsOf WAW p key → key.1 ∈ subInstrList →
      numSeen inv.iterations key.1 = 0 := fun key hkey =>
    h.separate inv (List.mem_of_getElem? hrow.get) key (hneeds key hkey)
  rcases hrow.traced.constantCallIDs_eq (fun id => hrow.traced.sum_lt htraces hrow.get id)
    (hstep _ (Or.inl rfl)) (hstep _ (Or.inr rfl)) (hseparate _ (Or.inl rfl))
    (hseparate _ (Or.inr rfl)) hne hne' with ⟨c, hc, hone⟩
  have herasable : erasable subInstrList row.1 p = c := by
    have hsame : CamAlias.constantCallIDs subInstrList row.1 p = .ok c := hc
    rw [erasable, hsame]
    cases c <;> rfl
  rw [herasable]
  exact ⟨hc, hone⟩

/-- A pair is passed over in an invocation in which its instructions make no references. -/
theorem MadeInStep.skips_iff (h : MadeInStep fuel done es subInstrList needs memoryTraces made)
    {callList : List UInt64} (htraces : TracesDescribe done groupOf es callList) {n : Nat}
    {inv : Invocation} {order : List (UInt64 × Nat)}
    {row : InvocationTraces × (UInt64 × Stream → List TaggedReference)}
    (hrow : RowOf done groupOf es made n inv order row) {WAW : Bool} {p : UInt64 × UInt64}
    (hneeds : ∀ key, NeedsOf WAW p key → needs key) :
    row.1.Skips subInstrList p ↔
      row.2 (p.1, .write) = [] ∧ row.2 (p.2, secondStream WAW) = [] := by
  have hcount : ∀ key, NeedsOf WAW p key →
      (row.1.getNumInstancesInInvocation subInstrList key.1 = 0 ↔ row.2 key = []) := by
    intro key hkey
    have hstep := h.inStep n inv row.2 order hrow.get hrow.made hrow.seen hrow.traced.groupOrder
      hrow.traced.found key (hneeds key hkey)
    rw [hrow.traced.getNumInstancesInInvocation_eq htraces hrow.get, hstep.counted,
      List.length_eq_zero_iff]
  exact and_congr (hcount _ (Or.inl rfl)) (hcount _ (Or.inr rfl))

/-- What an analysis makes of the references of an invocation. -/
def AnalysisArgs.outcomes (args : AnalysisArgs)
    (refs : UInt64 × Stream → List TaggedReference) : Outcomes :=
  if args.adjacent then adjacentOutcomes refs else dependenceOutcomes refs

/-- A pair whose instructions make no references shows nothing, and is kept. -/
theorem AnalysisArgs.idle_of_nil (args : AnalysisArgs)
    {refs : UInt64 × Stream → List TaggedReference} {WAW : Bool} {p : UInt64 × UInt64}
    (hwrite : refs (p.1, .write) = []) (hread : refs (p.2, secondStream WAW) = []) :
    (∀ x, ¬ (args.outcomes refs).shows WAW p x) ∧ (args.outcomes refs).erased WAW p = false := by
  rw [AnalysisArgs.outcomes]
  split
  · refine ⟨fun _ => id, ?_⟩
    simp only [adjacentOutcomes, Bool.not_eq_false', decide_eq_true_eq]
    exact Or.inl ⟨hwrite, hread⟩
  · have hnone : ∀ write read, ¬ Conflict refs WAW p write read := by
      rintro write read ⟨hmem, -⟩
      rw [hwrite] at hmem
      cases hmem
    constructor
    · rintro x ⟨write, read, hconflict, -⟩
      exact hnone write read hconflict
    · refine decide_eq_false ?_
      rintro ⟨-, write, read, hconflict⟩
      exact hnone write read hconflict

/-- A pass comes to what is made of the references. -/
theorem MadeInStep.comesTo (h : MadeInStep fuel done es subInstrList needs memoryTraces made)
    {callList : List UInt64} (htraces : TracesDescribe done groupOf es callList)
    {args : AnalysisArgs} {isAlias : MemSetEntry → MemSetEntry → Option Bool}
    (htest : DecidesSharing needs (madeTo made) isAlias)
    (hfew : args.adjacent = true → ∀ refs ∈ made, ∀ key, needs key → ∀ r ∈ refs key,
      r.1.1 + 1 < 2 ^ 31) {n : Nat} {inv : Invocation} {order : List (UInt64 × Nat)}
    {row : InvocationTraces × (UInt64 × Stream → List TaggedReference)}
    {slice : UInt64 × Stream → List MemSetEntry} (hrow : RowOf done groupOf es made n inv order row)
    (hstand : StandFor needs (madeTo made) slice row.2) {WAW : Bool}
    {p : UInt64 × UInt64} (hneeds : ∀ key, NeedsOf WAW p key → needs key)
    (hlength : (slice (p.1, .write)).length ≤ fuel) :
    ComesTo args isAlias fuel subInstrList row.1 slice WAW (args.outcomes row.2) p := by
  have hskips := h.skips_iff htraces hrow hneeds
  cases hadjacent : args.adjacent with
  | false =>
      rw [AnalysisArgs.outcomes, if_neg (by rw [hadjacent]; exact Bool.false_ne_true)]
      exact hstand.comesTo_dependences hadjacent htest hneeds
        (fun hne hne' => h.constantCallIDs htraces hrow hneeds hne hne')
        (fun hskip => (hskips.1 hskip).1) hlength
  | true =>
      rw [AnalysisArgs.outcomes, if_pos hadjacent]
      refine hstand.comesTo_adjacent hadjacent htest hneeds hskips (fun key hkey r hr => ?_) hlength
      exact hfew hadjacent row.2 (List.mem_of_getElem? hrow.made) key (hneeds key hkey) r hr

/-- The outcomes of the invocations in which something is seen are all there is to see. -/
theorem MadeInStep.outcomes_iff (h : MadeInStep fuel done es subInstrList needs memoryTraces made)
    (hts : TracedAll done groupOf es 0 ts) (args : AnalysisArgs) {WAW : Bool}
    {menu : List (UInt64 × UInt64)}
    (hneeds : ∀ p ∈ menu, ∀ key, NeedsOf WAW p key → needs key) :
    (∀ p ∈ menu, ((withTraces (ts.zip made)).all fun row => !(args.outcomes row.2).erased WAW p)
        = made.all fun refs => !(args.outcomes refs).erased WAW p) ∧
      ∀ x, Reported (fun row => (args.outcomes row.2).shows WAW)
          (fun row p => (args.outcomes row.2).erased WAW p = true) (withTraces (ts.zip made)) menu x ↔
        Reported (fun refs => (args.outcomes refs).shows WAW)
          (fun refs p => (args.outcomes refs).erased WAW p = true) made menu x := by
  have hsnd : (ts.zip made).map Prod.snd = made := by
    refine List.map_snd_zip ?_
    rw [h.length, ← hts.length, Nat.zero_add]
  -- nothing is made in the other invocations
  have hother : ∀ z ∈ ts.zip made, z.1 = none → ∀ p ∈ menu,
      (∀ x, ¬ (args.outcomes z.2).shows WAW p x) ∧ (args.outcomes z.2).erased WAW p = false := by
    intro z hz hnone p hp
    refine args.idle_of_nil ?_ ?_
    · exact h.empty_of_none hts (hneeds p hp _ (Or.inl rfl)) hz hnone
    · exact h.empty_of_none hts (hneeds p hp _ (Or.inr rfl)) hz hnone
  constructor
  · intro p hp
    rw [Bool.eq_iff_iff, List.all_eq_true, List.all_eq_true]
    constructor
    · intro hall refs hrefs
      rw [← hsnd] at hrefs
      rcases List.mem_map.1 hrefs with ⟨⟨o, refs⟩, hz, rfl⟩
      cases o with
      | none => rw [(hother _ hz rfl p hp).2, Bool.not_false]
      | some t => exact hall (t, refs) (mem_withTraces.2 hz)
    · intro hall row hrow
      refine hall row.2 ?_
      rw [← hsnd]
      exact List.mem_map.2 ⟨_, mem_withTraces.1 hrow, rfl⟩
  · intro x
    have hzip : Reported (fun z => (args.outcomes z.2).shows WAW)
          (fun z p => (args.outcomes z.2).erased WAW p = true) (ts.zip made) menu x ↔
        Reported (fun row => (args.outcomes row.2).shows WAW)
          (fun row p => (args.outcomes row.2).erased WAW p = true) (withTraces (ts.zip made)) menu x := by
      refine reported_filterMap _ _ ?_ ?_
      · intro z hz hnone p hp
        rcases hother z hz (Option.map_eq_none_iff.1 hnone) p hp with ⟨hshows, hkept⟩
        exact ⟨hshows x, by rw [hkept]; exact Bool.false_ne_true⟩
      · intro z hz row hrow p hp
        rcases Option.map_eq_some_iff.1 hrow with ⟨t, -, rfl⟩
        exact ⟨Iff.rfl, Iff.rfl⟩
    have hall : Reported (fun z => (args.outcomes z.2).shows WAW)
          (fun z p => (args.outcomes z.2).erased WAW p = true) (ts.zip made) menu x ↔
        Reported (fun refs => (args.outcomes refs).shows WAW)
          (fun refs p => (args.outcomes refs).erased WAW p = true) made menu x := by
      have hfilter : Reported (fun z => (args.outcomes z.2).shows WAW)
            (fun z p => (args.outcomes z.2).erased WAW p = true) (ts.zip made) menu x ↔
          Reported (fun refs => (args.outcomes refs).shows WAW)
            (fun refs p => (args.outcomes refs).erased WAW p = true)
            ((ts.zip made).filterMap fun z => some z.2) menu x := by
        refine reported_filterMap _ _ ?_ ?_
        · intro z hz hnone
          cases hnone
        · intro z hz refs hrefs p hp
          rcases Option.some.inj hrefs with rfl
          exact ⟨Iff.rfl, Iff.rfl⟩
      have hmap : (ts.zip made).filterMap (fun z => some z.2) = (ts.zip made).map Prod.snd := by
        rw [← List.filterMap_eq_map]
        rfl
      rwa [hmap, hsnd] at hfilter
    exact hzip.symm.trans hall

/-- The analysis of all invocations, in terms of references. -/
theorem MadeInStep.analyseAll_eq {menu : InstrPairMenu}
    (h : MadeInStep fuel done es subInstrList menu.Needs memoryTraces made) {callList : List UInt64}
    (htraces : TracesDescribe done groupOf es callList)
    (hfuel : ∀ inv ∈ done, inv.iterations.length ≤ fuel) (hts : TracedAll done groupOf es 0 ts)
    {args : AnalysisArgs} {isAlias : MemSetEntry → MemSetEntry → Option Bool}
    (sorter : StartSort Nat MemSetEntry) {st : LoopAnalysis} (hmenu : st.pairMenu = menu)
    (hstreamers : ∀ key, menu.Needs key →
      st.memtraceStreamers key = some (MemoryTraceStreamer.new (memoryTraces key)))
    (htest : DecidesSharing menu.Needs (madeTo made) isAlias)
    (hfew : args.adjacent = true → ∀ refs ∈ made, ∀ key, menu.Needs key → ∀ r ∈ refs key,
      r.1.1 + 1 < 2 ^ 31) :
    ∃ st', analyseAll (LoopAnalysis.analyse args isAlias sorter fuel subInstrList) st ts = .ok st' ∧
      (∀ WAW, st'.pairMenu.pairs WAW
        = (menu.pairs WAW).filter fun p => made.all fun refs => !(args.outcomes refs).erased WAW p) ∧
      ∀ WAW x, x ∈ st'.dependence_pairs WAW ↔ x ∈ st.dependence_pairs WAW ∨
        Reported (fun refs => (args.outcomes refs).shows WAW)
          (fun refs p => (args.outcomes refs).erased WAW p = true) made (menu.pairs WAW) x := by
  subst hmenu
  rcases h.exists_slices htraces hfuel hts with ⟨slices, hsliced, hstand⟩
  let rows := withTraces (ts.zip made)
  let steps := invocationSteps (rows.map Prod.fst) slices
  have hneeds : ∀ WAW, ∀ p ∈ st.pairMenu.pairs WAW, ∀ key, NeedsOf WAW p key →
      st.pairMenu.Needs key := fun WAW p hp key hkey => ⟨WAW, p, hp, hkey⟩
  have hget : ∀ n, steps[n]? = rows[n]?.map fun row => (row.1, fun key => (slices key).getD n []) := by
    intro n
    rw [getElem?_invocationSteps (rows.map Prod.fst) slices n, List.getElem?_map, Option.map_map]
    rfl
  have hlength : steps.length = (rows.map fun row => args.outcomes row.2).length := by
    calc steps.length = (steps.map Prod.fst).length := (List.length_map _).symm
      _ = rows.length := by rw [map_fst_invocationSteps, List.length_map]
      _ = (rows.map fun row => args.outcomes row.2).length := (List.length_map _).symm
  -- in every invocation the slices stand for the references that are made in it
  have hall : AllComeTo args isAlias fuel subInstrList st.pairMenu steps
      (rows.map fun row => args.outcomes row.2) := by
    refine List.forall₂_iff_zip.2 ⟨hlength, fun {s o} hzip WAW p hp => ?_⟩
    rcases List.mem_iff_getElem?.1 hzip with ⟨n, hn⟩
    rcases List.getElem?_zip_eq_some.1 hn with ⟨hs, ho⟩
    rw [hget] at hs
    rcases Option.map_eq_some_iff.1 hs with ⟨row, hrow, rfl⟩
    rw [List.getElem?_map, hrow] at ho
    rcases Option.some.inj ho with rfl
    rcases hts.exists_rowOf (List.mem_of_getElem? hrow) with ⟨m, inv, order, hrowOf⟩
    have hstands := hstand n row hrow
    refine h.comesTo htraces htest hfew hrowOf hstands (hneeds WAW p hp) ?_
    have hkey := hneeds WAW p hp _ (Or.inl rfl)
    calc ((slices (p.1, .write)).getD n []).length
        ≤ (row.2 (p.1, .write)).length := length_le_of_tagged (hstands.tagged _ hkey)
      _ = ((row.2 (p.1, .write)).map Prod.snd).length := (List.length_map _).symm
      _ ≤ (madeTo made (p.1, .write)).length :=
          (infix_madeTo (List.mem_of_getElem? hrowOf.made) _).length_le
      _ ≤ fuel := h.fuel _ hkey
  rcases LoopAnalysis.analyseAll_eq sorter steps hstreamers hsliced hall with
    ⟨st', hst', hleft, hrecorded⟩
  refine ⟨st', ?_, fun WAW => ?_, fun WAW x => (hrecorded WAW x).trans (or_congr_right ?_)⟩
  · -- invocations in which nothing is seen are not analysed
    have hmap : steps.map (fun s => some s.1) = ts.reduceOption.map some := by
      have hfst : (ts.zip made).map Prod.fst = ts := by
        refine List.map_fst_zip ?_
        rw [h.length, ← hts.length, Nat.zero_add]
      calc steps.map (fun s => some s.1)
          = (steps.map Prod.fst).map some := by
            rw [List.map_map]
            rfl
        _ = ts.reduceOption.map some := by
            rw [map_fst_invocationSteps, map_fst_withTraces, hfst]
    rw [analyseAll_reduceOption, ← hmap]
    exact hst'
  · rw [hleft]
    refine List.filter_congr fun p hp => ?_
    rw [List.all_map]
    exact (h.outcomes_iff hts args (hneeds WAW)).1 p hp
  · have hrows : Reported (fun o => o.shows WAW) (fun o p => o.erased WAW p = true)
          (rows.map fun row => args.outcomes row.2) (st.pairMenu.pairs WAW) x ↔
        Reported (fun row => (args.outcomes row.2).shows WAW)
          (fun row p => (args.outcomes row.2).erased WAW p = true) rows (st.pairMenu.pairs WAW) x :=
      reported_congr (g := fun _ row => args.outcomes row.2) (fun n => List.getElem?_map)
        fun n row _ p _ => ⟨Iff.rfl, Iff.rfl⟩
    exact hrows.trans ((h.outcomes_iff hts args (hneeds WAW)).2 x)

end Run

/-! ## The files -/

/-- A loop that remembers the number of the last invocation. -/
theorem visitAll_numbered {β : Type} (visit : β → Nat → InvocationGroupCfc → Except Fault β)
    (xs : List (Nat × InvocationGroupCfc)) :
    ∀ (b : β) (k : Nat),
      StreamParseLoopRec.visitAll (fun st n g => (visit st.1 n g).map fun b => (b, n)) (b, k) xs
        = (StreamParseLoopRec.visitAll visit b xs).map fun b =>
            (b, (xs.getLast?.map Prod.fst).getD k) := by
  induction xs with
  | nil => exact fun _ _ => rfl
  | cons x xs ih =>
      intro b k
      simp only [StreamParseLoopRec.visitAll]
      cases visit b x.1 x.2 with
      | error f => rfl
      | ok b' =>
          have hlast : ((x :: xs).getLast?.map Prod.fst).getD k
              = (xs.getLast?.map Prod.fst).getD x.1 := by
            rw [List.getLast?_cons]
            cases xs.getLast? <;> rfl
          rw [hlast]
          exact ih b' x.1

/-- A stream of `memory_accesses`: the instructions with a file of reads, and those with a file of
writes. -/
def Opened (memtraceInstrIDs : List UInt64 × List UInt64) : UInt64 × Stream → Prop
  | (id, .read) => id ∈ memtraceInstrIDs.1
  | (id, .write) => id ∈ memtraceInstrIDs.2

/-- The pairs of a pass: a write with a read, or two writes. -/
def streamPairs (memtraceInstrIDs : List UInt64 × List UInt64) (WAW : Bool) : List (UInt64 × UInt64) :=
  if WAW then wwPairs (fun _ _ => true) memtraceInstrIDs.2
  else rwPairs (fun _ _ => true) memtraceInstrIDs.2 memtraceInstrIDs.1

section Streams

variable {instrList subInstrList : Finset UInt64} {memtraceInstrIDs : List UInt64 × List UInt64}
  {key : UInt64 × Stream} {WAW : Bool} {p : UInt64 × UInt64}

/-- The menu has the pairs of instructions that are seen. -/
theorem mem_pairs_buildInstrPairMenu :
    p ∈ (buildInstrPairMenu instrList subInstrList memtraceInstrIDs).pairs WAW ↔
      p ∈ streamPairs memtraceInstrIDs WAW ∧
        instructionPairIsInInstructionTrace instrList subInstrList p.1 p.2 = true := by
  cases WAW with
  | false =>
      refine (mem_rwPairs _).trans ?_
      have hpair : p ∈ streamPairs memtraceInstrIDs false ↔ _ := mem_rwPairs _
      constructor
      · exact fun ⟨hwi, hri, htest⟩ => ⟨hpair.2 ⟨hwi, hri, rfl⟩, htest⟩
      · rintro ⟨hp, htest⟩
        rcases hpair.1 hp with ⟨hwi, hri, -⟩
        exact ⟨hwi, hri, htest⟩
  | true => exact mem_wwPairs _

/-- The streams of the pairs have files. -/
theorem opened_of_mem_streamPairs (hp : p ∈ streamPairs memtraceInstrIDs WAW)
    (hkey : NeedsOf WAW p key) : Opened memtraceInstrIDs key := by
  cases WAW with
  | false =>
      rcases (mem_rwPairs _).1 hp with ⟨hwi, hri, -⟩
      rcases hkey with rfl | rfl
      · exact hwi
      · exact hri
  | true =>
      rcases mem_of_mem_wwPairs _ hp with ⟨h1, h2⟩
      rcases hkey with rfl | rfl
      · exact h1
      · exact h2

theorem openStreams_of_opened {memoryTraces : UInt64 × Stream → List BzRead}
    (h : Opened memtraceInstrIDs key) :
    LoopAnalysis.openStreams memtraceInstrIDs memoryTraces key
      = some (MemoryTraceStreamer.new (memoryTraces key)) := by
  rcases key with ⟨id, stream⟩
  cases stream with
  | read => exact if_pos h
  | write => exact if_pos h

end Streams

/-- The two lists of pairs, after `adjacent` has erased some of them, and the dependences, in terms of
references. -/
structure Findings.Show (findings : Findings) (menu : InstrPairMenu)
    (made : List (UInt64 × Stream → List TaggedReference)) (args : AnalysisArgs) : Prop where
  left : ∀ WAW, findings.pairMenu.pairs WAW
    = (menu.pairs WAW).filter fun p => made.all fun refs => !(args.outcomes refs).erased WAW p
  recorded : ∀ WAW x, (x ∈ if WAW then findings.ww_dependence_pairs
      else findings.rw_dependence_pairs) ↔
    Reported (fun refs => (args.outcomes refs).shows WAW)
      (fun refs p => (args.outcomes refs).erased WAW p = true) made (menu.pairs WAW) x

/-- What is found in the traces is what the references show for the pairs of the menu, up to the
invocation in which a pair is erased. -/
theorem TracesRead.dependence_analysis_eq {loopTrace callTrace : List BzRead}
    {done : List Invocation} {groupOf : Nat → InvocationGroupCfc}
    {es : List CallTraceLoopInvocationGroup} {callList subInstrList instrList : Finset UInt64}
    (h : TracesRead loopTrace callTrace done groupOf es callList subInstrList)
    (hinstrs : LoopTraceStreamer.parseForInstructionList loopTrace = .ok (instrList, done.length))
    (hfound : ¬ NotFound done es) (hpos : 0 < done.length) (hlt : done.length < 2 ^ 64) {fuel : Nat}
    (hlong : done.length < fuel) (hseen : ∀ inv ∈ done, inv.iterations.flatten.length ≤ fuel)
    (hiterations : ∀ inv ∈ done, inv.iterations.length ≤ fuel)
    {memtraceInstrIDs : List UInt64 × List UInt64} {memoryTraces : UInt64 × Stream → List BzRead}
    {made : List (UInt64 × Stream → List TaggedReference)} {args : AnalysisArgs} {ddgs : DdgFiles}
    {sdl : StaticDDGLex} {menu : InstrPairMenu}
    (hmenu : chooseMenu args ddgs instrList subInstrList memtraceInstrIDs = .ok (sdl, menu))
    (hopened : ∀ key, menu.Needs key → Opened memtraceInstrIDs key)
    (hmade : MadeInStep fuel done es subInstrList menu.Needs memoryTraces made)
    {isAlias : MemSetEntry → MemSetEntry → Option Bool} (sorter : StartSort Nat MemSetEntry)
    (htest : DecidesSharing menu.Needs (madeTo made) isAlias)
    (hfew : args.adjacent = true → ∀ refs ∈ made, ∀ key, menu.Needs key → ∀ r ∈ refs key,
      r.1.1 + 1 < 2 ^ 31) :
    ∃ findings, dependence_analysis args isAlias sorter fuel loopTrace callTrace ddgs
        memtraceInstrIDs memoryTraces = .ok (sdl, findings) ∧ findings.Show menu made args := by
  rcases h.visitTraces_cases hlong hseen with
    ⟨callTraces, hparse, ⟨ts, hts, -, hloop⟩ | ⟨hnot, -⟩⟩
  · let start := LoopAnalysis.start menu memtraceInstrIDs memoryTraces
    have hstart : start.pairMenu = menu := rfl
    rcases hmade.analyseAll_eq h.describe hiterations hts sorter hstart
      (fun key hkey => openStreams_of_opened (hopened key hkey)) htest hfew with
      ⟨st, hst, hleft, hrecorded⟩
    have hanalyse := hloop (LoopAnalysis.analyse args isAlias sorter fuel subInstrList) start
    rw [hst] at hanalyse
    rcases exists_of_map_eq_ok hanalyse with ⟨⟨calls, st'⟩, hvisit, rfl⟩
    -- the loop remembers the last invocation number, by which `dependence_analysis` checks that all
    -- invocations of the first pass have been seen
    have hnumbered := visitAll_numbered (visitTraces fuel (callList.sort (· ≤ ·))
        (LoopAnalysis.analyse args isAlias sorter fuel subInstrList))
      ((List.range' 0 done.length).map fun n => (n, groupOf n))
      (CallAnalysis.start callTraces subInstrList, start) (2 ^ 64 - 1)
    rw [hvisit] at hnumbered
    have hlast : (((List.range' 0 done.length).map fun n => (n, groupOf n)).getLast?.map
        Prod.fst).getD (2 ^ 64 - 1) = done.length - 1 := by
      rw [List.getLast?_map, List.getLast?_range', if_neg (Nat.pos_iff_ne_zero.1 hpos)]
      simp
    rw [hlast] at hnumbered
    have hall := h.loop (fun st n g => (visitTraces fuel (callList.sort (· ≤ ·))
        (LoopAnalysis.analyse args isAlias sorter fuel subInstrList) st.1 n g).map fun st => (st, n))
      ((CallAnalysis.start callTraces subInstrList, start), 2 ^ 64 - 1) fuel (Nat.le_of_lt hlong)
    rw [hnumbered] at hall
    have hcount : (done.length - 1 + 1) % 2 ^ 64 = done.length := by
      rw [Nat.sub_add_cancel hpos, Nat.mod_eq_of_lt hlt]
    refine ⟨⟨st'.pairMenu, st'.rw_dependence_pairs, st'.ww_dependence_pairs⟩, ?_, hleft,
      fun WAW x => ?_⟩
    · simp only [dependence_analysis, hinstrs, h.lists, hparse, hmenu, loop_analysis_memeff,
        inSetOrder]
      rw [hall]
      simp only [Except.map, hcount, if_true]
    · have hiff := hrecorded WAW x
      have hnone : x ∉ start.dependence_pairs WAW := by
        cases WAW <;> exact Finset.notMem_empty x
      rw [or_iff_right hnone] at hiff
      exact hiff
  · exact absurd hnot hfound

end CamAlias
