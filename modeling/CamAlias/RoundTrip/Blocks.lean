import CamAlias.Dependence.NextSlice
import CamAlias.RoundTrip.CallTrace
import CamAlias.RoundTrip.InvocationTraces

/-!
# Blocks — what the control flow traces say of the instances of an instruction

The accesses of an instruction are dealt out to the iterations of the loop trace if the loop trace has
instances of it, and to the calls in the order of the cache otherwise.  How many of them are taken is
counted in another way: in the cache if the instruction is seen in a call of any invocation, and in the
loop trace otherwise.

* `Traced.sliceable`: the blocks and the counts of an invocation.
-/

namespace CamAlias

open Lib

/-! ## Blocks and counts -/

/-- The iterations, with the instances of an instruction in each. -/
def iterationBlocks (iterations : List (List UInt64)) (id : UInt64) : List Block :=
  (List.range iterations.length).map fun k =>
    { iterationNumber := k, effectiveInstrID := id, instances := seenIn iterations id k }

/-- The calls in which an instruction is seen, in the iterations in which their IDs are. -/
def callBlocks (inv : Invocation) (order : List (UInt64 × Nat)) (id : UInt64) : List Block :=
  (order.filter fun p => 0 < CallTraceLoopInvocationGroup.seenInCall inv.calls id p).map fun p =>
    { iterationNumber := iterationOf inv.iterations p.1 p.2
      effectiveInstrID := p.1
      instances := CallTraceLoopInvocationGroup.seenInCall inv.calls id p }

/-- What the accesses of an instruction are dealt out to. -/
def instanceBlocks (inv : Invocation) (order : List (UInt64 × Nat)) (id : UInt64) : List Block :=
  if 0 < numSeen inv.iterations id then iterationBlocks inv.iterations id else callBlocks inv order id

/-- How many of them are taken. -/
def instancesCounted (subInstrList : Finset UInt64) (inv : Invocation) (order : List (UInt64 × Nat))
    (id : UInt64) : Nat :=
  if id ∈ subInstrList then
    (order.map (CallTraceLoopInvocationGroup.seenInCall inv.calls id)).sum
  else numSeen inv.iterations id

theorem total_iterationBlocks (iterations : List (List UInt64)) (id : UInt64) :
    Block.total (iterationBlocks iterations id) = numSeen iterations id := by
  simp only [Block.total, iterationBlocks, List.map_map]
  rfl

theorem total_callBlocks (inv : Invocation) (order : List (UInt64 × Nat)) (id : UInt64) :
    Block.total (callBlocks inv order id)
      = (order.map (CallTraceLoopInvocationGroup.seenInCall inv.calls id)).sum := by
  simp only [Block.total, callBlocks, List.map_map, Function.comp_def]
  induction order with
  | nil => rfl
  | cons p order ih =>
      rw [List.map_cons, List.sum_cons, ← ih, List.filter_cons]
      split
      · rfl
      · rename_i hzero
        have hnone : CallTraceLoopInvocationGroup.seenInCall inv.calls id p = 0 := by
          simpa using hzero
        rw [hnone, Nat.zero_add]

/-- The last entry of a cache ends with the last instance. -/
theorem MemSet.CacheTiles.getLast {cache : List CallTraceInstructionCacheEntry} {lo hi : Nat}
    (h : MemSet.CacheTiles lo cache hi) :
    (cache = [] ∧ lo = hi) ∨ ∃ back, cache.getLast? = some back ∧ back.end + 1 = hi := by
  induction cache generalizing lo with
  | nil => exact Or.inl ⟨rfl, h⟩
  | cons c cache ih =>
      rcases h with ⟨-, -, hrest⟩
      rcases ih hrest with ⟨rfl, hlast⟩ | ⟨back, hback, hhi⟩
      · exact Or.inr ⟨c, rfl, hlast⟩
      · refine Or.inr ⟨back, ?_, hhi⟩
        cases cache with
        | nil => cases hback
        | cons c' cache => rwa [List.getLast?_cons_cons]

/-! ## The traces of an invocation -/

section Traces

variable {invs : List Invocation} {groupOf : Nat → InvocationGroupCfc}
  {es : List CallTraceLoopInvocationGroup} {callList : List UInt64} {n : Nat} {inv : Invocation}
  {order : List (UInt64 × Nat)} {t : InvocationTraces}

/-- The order of a cache has each instance of a call once, and counts fewer than `2 ^ 64` of an
instruction in them. -/
theorem Traced.sum_lt (h : Traced invs groupOf es n inv order t)
    (htraces : TracesDescribe invs groupOf es callList) (hget : invs[n]? = some inv) (id : UInt64) :
    (order.map (CallTraceLoopInvocationGroup.seenInCall inv.calls id)).sum < 2 ^ 64 := by
  rcases h.groupOrder with ⟨e, -, -, m, built, -, horder⟩
  exact (htraces.small inv (List.mem_of_getElem? hget)).seenInCalls order
    (nodup_of_before horder.sorted) h.found id

/-- How many instances are counted. -/
theorem Traced.getNumInstancesInInvocation_eq (h : Traced invs groupOf es n inv order t)
    (htraces : TracesDescribe invs groupOf es callList) (hget : invs[n]? = some inv)
    (subInstrList : Finset UInt64) (id : UInt64) :
    t.getNumInstancesInInvocation subInstrList id = instancesCounted subInstrList inv order id := by
  rw [InvocationTraces.getNumInstancesInInvocation, instancesCounted]
  split
  · have hlt := h.sum_lt htraces hget id
    let count := CallTraceLoopInvocationGroup.seenInCall inv.calls id
    have htiles : MemSet.CacheTiles 0 (cacheEntries count 0 order) (0 + (order.map count).sum) :=
      cacheTiles_cacheEntries order 0
    rw [Nat.zero_add, ← h.callInstances id] at htiles
    rw [CallTraceLoopInvocationGroup.getNumInstances]
    rcases htiles.getLast with ⟨hnil, hzero⟩ | ⟨back, hback, hend⟩
    · rw [hnil, ← hzero]
      rfl
    · simp only [hback, hend]
      exact Nat.mod_eq_of_lt hlt
  · rcases htraces.loop n inv hget with ⟨g, hg, hdescribes, hfresh⟩
    rw [h.invocGroup, hg]
    exact (instanceTable_of_describes hdescribes hfresh
      (htraces.small inv (List.mem_of_getElem? hget)).seen).num_eq id

/-- The counts of the iterations that the loop goes through. -/
theorem instancesIn_of_describes {iterations : List (List UInt64)} {g : InvocationGroupCfc}
    (h : Describes 0 iterations g.iterations) (id : UInt64) {k : Nat} (hk : k < iterations.length) :
    g.instancesIn id k = seenIn iterations id k := by
  rcases h.groups.exists_group (Nat.zero_le k) (by simpa using hk) with ⟨g', hg', hgk⟩
  rcases List.mem_map.1 hg' with ⟨gr, hgr, rfl⟩
  rcases h.groups.value _ (List.mem_map_of_mem hgr) k hgk with ⟨symbols, hsymbols, hexp, -⟩
  rw [Nat.sub_zero] at hsymbols
  rw [CfcGroup.group_snd] at hexp
  rw [InvocationGroupCfc.instancesIn_eq (InvocationGroupCfc.Covers.of_describes h) hgr hgk, hexp,
    seenIn, hsymbols, Option.getD_some]

theorem map_iterationBlock {its : List (Nat × IterationGroupCfc)} {ks : List Nat} {c : Nat → Nat}
    {id : UInt64} (hfst : its.map Prod.fst = ks)
    (hcounts : its.map (fun i => (MemSet.iterationBlock id i).instances) = ks.map c) :
    its.map (MemSet.iterationBlock id) = ks.map fun k =>
      { iterationNumber := k, effectiveInstrID := id, instances := c k } := by
  subst hfst
  rw [List.map_map, List.map_inj_left] at hcounts
  rw [List.map_map]
  refine List.map_congr_left fun i hi => ?_
  have hcount : (MemSet.iterationBlock id i).instances = c i.1 := hcounts i hi
  simp only [Function.comp_apply, ← hcount]
  rfl

/-- The loop over the iterations. -/
theorem cutInto_iterationBlocks (h : Traced invs groupOf es n inv order t)
    (htraces : TracesDescribe invs groupOf es callList) (hget : invs[n]? = some inv) {id : UInt64}
    (hseen : 0 < numSeen inv.iterations id) {fuel : Nat} (hfuel : inv.iterations.length ≤ fuel) :
    t.CutInto id fuel (iterationBlocks inv.iterations id) := by
  rcases htraces.loop n inv hget with ⟨g, hg, hdescribes, hfresh⟩
  have hcovers := InvocationGroupCfc.Covers.of_describes hdescribes
  have htable := instanceTable_of_describes hdescribes hfresh
    (htraces.small inv (List.mem_of_getElem? hget)).seen
  have hcounts : (List.range inv.iterations.length).map (g.instancesIn id)
      = (List.range inv.iterations.length).map (seenIn inv.iterations id) :=
    List.map_congr_left fun k hk => instancesIn_of_describes hdescribes id (List.mem_range.1 hk)
  have htotal : before (g.instancesIn id) inv.iterations.length < 2 ^ 64 := by
    rw [before, hcounts]
    exact htable.num_lt id
  rcases MemSet.collectIterations_counts hcovers id htotal hfuel with ⟨its, hits, hfst, hinstances⟩
  rw [hcounts] at hinstances
  have hblocks := map_iterationBlock hfst hinstances
  have hcontains : g.precomputeDataStructures.containsInstruction id = true := by
    simp only [InvocationGroupCfc.containsInstruction, htable.num_eq, hseen, decide_true]
  intro set
  have hfill := MemSet.fillBlocks_map set.entries (MemSet.iterationBlock id) fuel its
    ⟨[], set.sliceIterator, set.outstandingInstances⟩ fun _ _ => rfl
  rw [hblocks] at hfill
  simp only [MemSet.getInvocationSliceWithIterTags, h.invocGroup, hg, hcontains, if_true, hits, hfill,
    iterationBlocks]
  cases MemSet.fillBlocks set.entries .ok fuel _ _ <;> rfl

/-- The loop over the calls. -/
theorem cutInto_callBlocks (h : Traced invs groupOf es n inv order t)
    (htraces : TracesDescribe invs groupOf es callList) (hget : invs[n]? = some inv) {id : UInt64}
    (hseen : ¬ 0 < numSeen inv.iterations id)
    (hannounced : ∀ p ∈ order, p.2 < numSeen inv.iterations p.1) (fuel : Nat) :
    t.CutInto id fuel (callBlocks inv order id) := by
  rcases htraces.loop n inv hget with ⟨g, hg, hdescribes, hfresh⟩
  have htable := instanceTable_of_describes hdescribes hfresh
    (htraces.small inv (List.mem_of_getElem? hget)).seen
  have hcontains : g.precomputeDataStructures.containsInstruction id = false := by
    simp only [InvocationGroupCfc.containsInstruction, htable.num_eq, hseen, decide_false]
  have hsmall : 0 + (order.map (CallTraceLoopInvocationGroup.seenInCall inv.calls id)).sum
      < 2 ^ 64 := by
    rw [Nat.zero_add]
    exact h.sum_lt htraces hget id
  have hmap := map_cacheEntries order 0 hsmall
  rw [← h.callInstances id] at hmap
  let B (c : CallTraceInstructionCacheEntry) : Block :=
    { iterationNumber := iterationOf inv.iterations c.callID c.callInstance
      effectiveInstrID := c.callID
      instances := c.getNumInstances }
  have hblocks : (t.invocCallTrace.callInstances id).map B = callBlocks inv order id := by
    calc (t.invocCallTrace.callInstances id).map B
        = ((t.invocCallTrace.callInstances id).map
            (fun e => ((e.callID, e.callInstance), e.getNumInstances))).map fun x =>
              { iterationNumber := iterationOf inv.iterations x.1.1 x.1.2
                effectiveInstrID := x.1.1
                instances := x.2 } := by
          rw [List.map_map]
          rfl
      _ = callBlocks inv order id := by
          rw [hmap, List.map_map]
          rfl
  -- every entry names an instance that the loop trace has
  have hblock : ∀ c ∈ t.invocCallTrace.callInstances id,
      MemSet.callBlock g.precomputeDataStructures c = .ok (B c) := by
    intro c hc
    have hmem : ((c.callID, c.callInstance), c.getNumInstances) ∈
        (order.filter fun p =>
          0 < CallTraceLoopInvocationGroup.seenInCall inv.calls id p).map fun p =>
            (p, CallTraceLoopInvocationGroup.seenInCall inv.calls id p) := by
      rw [← hmap]
      exact List.mem_map_of_mem hc
    rcases List.mem_map.1 hmem with ⟨p, hp, heq⟩
    have hpair : p = (c.callID, c.callInstance) := congrArg Prod.fst heq
    have hlt := hannounced p (List.mem_filter.1 hp).1
    rw [hpair] at hlt
    rw [MemSet.callBlock, htable.iter_eq _ _ hlt]
  intro set
  have hfill := MemSet.fillBlocks_map set.entries B fuel _
    ⟨[], set.sliceIterator, set.outstandingInstances⟩ hblock
  rw [hblocks] at hfill
  have hcache : t.invocCallTrace.callTraceCache[id]?.getD [] = t.invocCallTrace.callInstances id :=
    rfl
  simp only [MemSet.getInvocationSliceWithIterTags, h.invocGroup, hg, hcontains, Bool.false_eq_true,
    if_false, hcache, hfill]
  cases MemSet.fillBlocks set.entries .ok fuel _ _ <;> rfl

/-- What the analyser has of an instruction in an invocation. -/
theorem Traced.sliceable (h : Traced invs groupOf es n inv order t)
    (htraces : TracesDescribe invs groupOf es callList) (hget : invs[n]? = some inv)
    (hannounced : ∀ p ∈ order, p.2 < numSeen inv.iterations p.1) (subInstrList : Finset UInt64)
    (id : UInt64) {fuel : Nat} (hfuel : inv.iterations.length ≤ fuel) :
    Sliceable fuel subInstrList id t
      (instancesCounted subInstrList inv order id, instanceBlocks inv order id) := by
  refine ⟨h.getNumInstancesInInvocation_eq htraces hget subInstrList id, ?_, ?_⟩
  · rw [instanceBlocks]
    split
    · rename_i hseen
      exact cutInto_iterationBlocks h htraces hget hseen hfuel
    · rename_i hseen
      exact cutInto_callBlocks h htraces hget hseen hannounced fuel
  · intro hpos
    rw [instanceBlocks]
    split
    · rename_i hseen
      rwa [total_iterationBlocks]
    · rename_i hseen
      rw [total_callBlocks]
      simp only [instancesCounted] at hpos
      split at hpos
      · exact hpos
      · exact absurd hpos hseen

end Traces
end CamAlias
