import CamAlias.Analyser.CallTraceCache
import CamAlias.Lib.Occurrence

/-!
# InstanceTable — the tables that the call trace cache is built from

The cache of an invocation is built from the loop trace, which says in which iteration each instance
of a call ID lies, and from the call trace, which says what is seen in the instance.

* `instanceTable_of_describes`: the loop trace of an invocation;
* `counted_buildLuts`, `not_counted_buildLuts`: an instance of a call in the call trace.
-/

namespace CamAlias

open Lib

/-! ## The loop trace -/

/-- How often an ID is seen in an iteration. -/
def seenIn (iterations : List (List UInt64)) (id : UInt64) (k : Nat) : Nat :=
  (iterations[k]?.getD []).count id

/-- How often an ID is seen in all iterations. -/
def numSeen (iterations : List (List UInt64)) (id : UInt64) : Nat :=
  before (seenIn iterations id) iterations.length

/-- The iteration in which an instance of an ID is seen. -/
def iterationOf (iterations : List (List UInt64)) (id : UInt64) (j : Nat) : Nat :=
  blockOf (seenIn iterations id) iterations.length j

theorem numSeen_eq_count (iterations : List (List UInt64)) (id : UInt64) :
    numSeen iterations id = iterations.flatten.count id := by
  have hsizes : seenIn iterations id
      = blockSize (iterations.map fun symbols => symbols.filter (· == id)) := by
    funext k
    rw [seenIn, blockSize, List.getElem?_map]
    cases iterations[k]? with
    | none => rfl
    | some symbols => exact List.count_eq_length_filter
  have hlen := length_tagged (iterations.map fun symbols => symbols.filter (· == id))
  rw [List.length_map, ← hsizes] at hlen
  rw [numSeen, ← hlen, ← List.length_map (f := Prod.snd), map_snd_tagged, List.count_eq_length_filter,
    List.filter_flatten]

variable {iterations : List (List UInt64)} {inv : InvocationGroupCfc}

/-- The iteration groups of an invocation are tabulated. -/
theorem instanceTable_of_describes (h : Describes 0 iterations inv.iterations)
    (hfresh : inv.instructionInstanceLut = ∅) (hlen : iterations.flatten.length < 2 ^ 64) :
    InstanceTable inv.precomputeDataStructures (numSeen iterations) (iterationOf iterations) := by
  have hcovers := InvocationGroupCfc.Covers.of_describes h
  have hpos : ∀ g ∈ inv.iterations, CompressionPattern.PositiveAll g.controlFlow := by
    intro g hg
    rcases List.exists_mem_of_ne_nil _ (h.numbers_ne_nil hg) with ⟨k, hk⟩
    rcases h.groups.value _ (List.mem_map_of_mem hg) k hk with ⟨symbols, -, -, hpos⟩
    exact hpos
  have hinstances : ∀ id, ∀ k < iterations.length, inv.instancesIn id k = seenIn iterations id k := by
    intro id k hk
    rcases h.groups.exists_group (Nat.zero_le k) (by simpa using hk) with ⟨g', hg', hgk⟩
    rcases List.mem_map.1 hg' with ⟨g, hg, rfl⟩
    rcases h.groups.value _ (List.mem_map_of_mem hg) k hgk with ⟨symbols, hsymbols, hexp, -⟩
    rw [Nat.sub_zero] at hsymbols
    rw [CfcGroup.group_snd] at hexp
    rw [InvocationGroupCfc.instancesIn_eq hcovers hg hgk, hexp, seenIn, hsymbols, Option.getD_some]
  have hbefore : ∀ id, ∀ k ≤ iterations.length,
      before (inv.instancesIn id) k = before (seenIn iterations id) k := by
    intro id k hk
    refine congrArg List.sum (List.map_congr_left ?_)
    intro i hi
    exact hinstances id i (Nat.lt_of_lt_of_le (List.mem_range.1 hi) hk)
  have hlt : ∀ id, numSeen iterations id < 2 ^ 64 := by
    intro id
    have hle : iterations.flatten.count id ≤ iterations.flatten.length := List.count_le_length
    rw [numSeen_eq_count]
    omega
  have hnone : ∀ id : UInt64, inv.instructionInstanceLut[id]? = none := by
    intro id
    simp [hfresh]
  have htotal : ∀ id, before (inv.instancesIn id) iterations.length < 2 ^ 64 := by
    intro id
    rw [hbefore id _ (Nat.le_refl _)]
    exact hlt id
  constructor
  · intro id
    rw [InvocationGroupCfc.getNumInstances_precompute hcovers id, Nat.mod_eq_of_lt (htotal id),
      hbefore id _ (Nat.le_refl _)]
    rfl
  · exact hlt
  · intro id j hj
    have hj' : j < before (inv.instancesIn id) iterations.length := by
      rwa [hbefore id _ (Nat.le_refl _)]
    rcases InvocationGroupCfc.exists_block_precompute hcovers hpos (hnone id) (htotal id) hj'
      with ⟨k, hk, hiter, hblock⟩
    have hblock' : InBlock (seenIn iterations id) k j := by
      refine ⟨?_, ?_⟩
      · rw [← hbefore id k (Nat.le_of_lt hk)]
        exact hblock.le
      · rw [← hbefore id (k + 1) hk]
        exact hblock.lt
    rw [hiter, iterationOf, hblock'.blockOf_eq hk]
  · intro id j j' hle hj'
    have hj : j < numSeen iterations id := Nat.lt_of_le_of_lt hle hj'
    exact (inBlock_blockOf hj).2.mono (inBlock_blockOf hj').2 hle

/-- The groups of an invocation are empty if nothing is seen in it. -/
theorem isEmpty_iff_of_describes (h : Describes 0 iterations inv.iterations) :
    inv.precomputeDataStructures.isEmpty = true ↔ iterations.flatten = [] := by
  have hgroup : ∀ g ∈ inv.iterations, ∀ symbols, StandsFor g.controlFlow symbols →
      (g.buildNumberOfInstancesLut.isEmpty = true ↔ symbols = []) := by
    intro g _ symbols hstands
    have hcounts := CompressionPattern.counts_sumInstances hstands.2
    rw [hstands.1] at hcounts
    simp only [CfcGroup.isEmpty, CfcGroup.buildNumberOfInstancesLut, List.isEmpty_nil, Bool.true_and]
    rw [Std.TreeMap.isEmpty_iff_forall_not_mem, List.eq_nil_iff_forall_not_mem]
    refine forall_congr' fun id => not_congr ?_
    rw [Std.TreeMap.mem_iff_isSome_getElem?]
    exact hcounts.mem_iff id
  rw [InvocationGroupCfc.isEmpty, InvocationGroupCfc.iterations_precompute, List.all_map,
    List.all_eq_true, List.flatten_eq_nil_iff]
  constructor
  · intro hall symbols hsymbols
    rcases List.mem_iff_getElem?.1 hsymbols with ⟨k, hk⟩
    have hlt := (List.getElem?_eq_some_iff.1 hk).1
    rcases h.groups.exists_group (Nat.zero_le k) (by simpa using hlt) with ⟨g', hg', hgk⟩
    rcases List.mem_map.1 hg' with ⟨g, hg, rfl⟩
    rcases h.groups.value _ (List.mem_map_of_mem hg) k hgk with ⟨symbols', hsymbols', hstands⟩
    rw [Nat.sub_zero, hk] at hsymbols'
    rcases Option.some.inj hsymbols' with rfl
    exact (hgroup g hg _ hstands).1 (hall g hg)
  · intro hall g hg
    rcases List.exists_mem_of_ne_nil _ (h.numbers_ne_nil hg) with ⟨k, hk⟩
    rcases h.groups.value _ (List.mem_map_of_mem hg) k hk with ⟨symbols, hsymbols, hstands⟩
    exact (hgroup g hg _ hstands).2 (hall _ (List.mem_of_getElem? hsymbols))

/-! ## The call trace -/

/-- A table of groups that stand for a sequence holds the group of each of its elements. -/
theorem Describes.tiles_buildLut {content : List (List UInt64)} {gs : List CfcGroup}
    (h : Describes 0 content gs) (f : CfcGroup → CfcGroup) :
    let lut := RepetitionPatternLookup.buildLut (gs.map fun g => (g.repetitions, f g))
    lut.Tiles 0 content.length ∧ ∀ k g', (k, g') ∈ lut.entries →
      ∃ g ∈ gs, g' = f g ∧ ∃ symbols, content[k]? = some symbols ∧
        StandsFor g.controlFlow symbols := by
  intro lut
  have hperm : (gs.flatMap fun g => numbers g.repetitions).Perm (List.range content.length) := by
    have hgroups := h.groups.perm
    rwa [List.flatMap_map, ← List.range_eq_range'] at hgroups
  rcases InvocationGroupCfc.tiles_buildLut_groups (fun g hg r hr => (h.ascending g hg).le hr) hperm f
    with ⟨htiles, hentries⟩
  refine ⟨htiles, ?_⟩
  intro k g' hmem
  rcases hentries k g' hmem with ⟨g, hg, hk, rfl⟩
  exact ⟨g, hg, rfl, h.groups.value _ (List.mem_map_of_mem hg) k hk⟩

namespace CallTraceLoopInvocationGroup

/-- How often an instruction is seen in an instance of a call. -/
def seenInCall (calls : UInt64 → List (List UInt64)) (s : UInt64) (p : UInt64 × Nat) : Nat :=
  ((calls p.1)[p.2]?.getD []).count s

variable {clig : CallTraceLoopInvocationGroup} {calls : UInt64 → List (List UInt64)}

theorem call_buildLuts (clig : CallTraceLoopInvocationGroup) (id : UInt64) :
    clig.buildLuts.call id
      = match clig.calls[id]? with
        | some call => call.buildLut
        | none => CallTraceCall.new := by
  simp only [call, buildLuts, Std.ExtTreeMap.getElem?_map]
  cases clig.calls[id]? <;> rfl

/-- The instances of a call are tabulated. -/
theorem tiles_buildLuts {id : UInt64} (h : Describes 0 (calls id) (instancesOf clig.calls id)) :
    (clig.buildLuts.call id).lut.Tiles 0 (calls id).length ∧
      ∀ j g, (j, g) ∈ (clig.buildLuts.call id).lut.entries →
        ∃ symbols, (calls id)[j]? = some symbols ∧ Counts g.numInstancesLut symbols := by
  rw [call_buildLuts]
  rw [instancesOf] at h
  cases hcall : clig.calls[id]? with
  | none =>
      rw [hcall] at h
      have hnil : calls id = [] := by
        by_contra hne
        exact h.ne_nil_iff.2 hne rfl
      rw [hnil]
      exact ⟨rfl, by simp [CallTraceCall.new, RepetitionPatternLookup.entries]⟩
  | some call =>
      rw [hcall] at h
      have hlut : call.buildLut.lut = RepetitionPatternLookup.buildLut (call.callInstances.map
          fun g => (g.repetitions, CallTraceInstanceGroup.buildNumberOfInstancesLut g)) := by
        simp only [CallTraceCall.buildLut, List.map_map]
        rfl
      simp only [hlut]
      rcases Describes.tiles_buildLut h CallTraceInstanceGroup.buildNumberOfInstancesLut with
        ⟨htiles, hentries⟩
      refine ⟨htiles, ?_⟩
      intro j g' hmem
      rcases hentries j g' hmem with ⟨g, -, rfl, symbols, hsymbols, hexp, hpos⟩
      have hcounts := CompressionPattern.counts_sumInstances hpos
      rw [hexp] at hcounts
      exact ⟨symbols, hsymbols, hcounts⟩

/-- An instance of a call is found, with what is seen in it. -/
theorem counted_buildLuts (h : ∀ id, Describes 0 (calls id) (instancesOf clig.calls id))
    (hlen : ∀ id, ∀ symbols ∈ calls id, symbols.length < 2 ^ 64) {p : UInt64 × Nat}
    (hp : p.2 < (calls p.1).length) : clig.buildLuts.Counted (seenInCall calls) p := by
  rcases tiles_buildLuts (h p.1) with ⟨htiles, hentries⟩
  rcases htiles.lookupData_eq (Nat.zero_le _) hp with ⟨g, hlookup, hmem⟩
  rcases hentries _ _ hmem with ⟨symbols, hsymbols, hcounts⟩
  refine ⟨g, hlookup, ?_⟩
  intro s
  have hlt : symbols.count s < 2 ^ 64 :=
    Nat.lt_of_le_of_lt List.count_le_length (hlen _ _ (List.mem_of_getElem? hsymbols))
  rw [hcounts.getElem?_eq hlt, seenInCall, hsymbols, Option.getD_some]

/-- No further instance is found. -/
theorem not_found_buildLuts (h : ∀ id, Describes 0 (calls id) (instancesOf clig.calls id))
    {p : UInt64 × Nat} (hp : (calls p.1).length ≤ p.2) :
    clig.buildLuts.getInstanceGroupFromInstanceNumber p.1 p.2 = .error .outOfRange :=
  (tiles_buildLuts (h p.1)).1.lookupData_error hp

theorem empty_buildLuts {id : UInt64} (h : Describes 0 (calls id) (instancesOf clig.calls id)) :
    (clig.buildLuts.call id).empty = false ↔ calls id ≠ [] := by
  rw [← h.ne_nil_iff, call_buildLuts, instancesOf]
  cases clig.calls[id]? with
  | none => simp [CallTraceCall.new, CallTraceCall.empty]
  | some call => simp [CallTraceCall.empty, CallTraceCall.buildLut]

end CallTraceLoopInvocationGroup

/-! ## The order of the cache -/

theorem Before.trans {iter : UInt64 → Nat → Nat} {p q r : UInt64 × Nat} (h : Before iter p q)
    (h' : Before iter q r) : Before iter p r := by
  simp only [Before, UInt64.lt_iff_toNat_lt] at h h' ⊢
  rcases h with hlt | ⟨heq, hlt | ⟨hid, hlt⟩⟩
  · rcases h' with hlt' | ⟨heq', -⟩
    · exact Or.inl (Nat.lt_trans hlt hlt')
    · exact Or.inl (heq' ▸ hlt)
  · rcases h' with hlt' | ⟨heq', hlt' | ⟨hid', -⟩⟩
    · exact Or.inl (heq ▸ hlt')
    · exact Or.inr ⟨heq.trans heq', Or.inl (Nat.lt_trans hlt hlt')⟩
    · exact Or.inr ⟨heq.trans heq', Or.inl (hid' ▸ hlt)⟩
  · rcases h' with hlt' | ⟨heq', hlt' | ⟨hid', hlt'⟩⟩
    · exact Or.inl (heq ▸ hlt')
    · exact Or.inr ⟨heq.trans heq', Or.inl (hid ▸ hlt')⟩
    · exact Or.inr ⟨heq.trans heq', Or.inr ⟨hid.trans hid', Nat.lt_trans hlt hlt'⟩⟩

theorem Before.irrefl {iter : UInt64 → Nat → Nat} (p : UInt64 × Nat) : ¬ Before iter p p := by
  rintro (hlt | ⟨-, hlt | ⟨-, hlt⟩⟩)
  · exact Nat.lt_irrefl _ hlt
  · exact UInt64.lt_irrefl _ hlt
  · exact Nat.lt_irrefl _ hlt

theorem nodup_of_before {iter : UInt64 → Nat → Nat} {order : List (UInt64 × Nat)}
    (h : order.Pairwise (Before iter)) : order.Nodup := by
  refine h.imp ?_
  rintro p q hpq rfl
  exact Before.irrefl p hpq

/-- Two lists in this order with the same members are the same. -/
theorem eq_of_before {iter : UInt64 → Nat → Nat} {order order' : List (UInt64 × Nat)}
    (h : order.Pairwise (Before iter)) (h' : order'.Pairwise (Before iter))
    (hmem : ∀ p, p ∈ order ↔ p ∈ order') : order = order' := by
  have hperm : order.Perm order' :=
    (List.perm_ext_iff_of_nodup (nodup_of_before h) (nodup_of_before h')).2 hmem
  refine hperm.eq_of_pairwise ?_ h h'
  intro p q _ _ hpq hqp
  exact absurd (hpq.trans hqp) (Before.irrefl p)

/-- The instances of the calls of an invocation, in the order that the loop trace gives them. -/
structure CallOrder (iterations : List (List UInt64)) (calls : UInt64 → List (List UInt64))
    (order : List (UInt64 × Nat)) : Prop where
  sorted : order.Pairwise (Before (iterationOf iterations))
  mem_iff : ∀ p, p ∈ order ↔ calls p.1 ≠ [] ∧ p.2 < numSeen iterations p.1

namespace CallOrder

variable {calls : UInt64 → List (List UInt64)} {order : List (UInt64 × Nat)}

/-- There are no more of them than instructions seen. -/
theorem length_le (h : CallOrder iterations calls order) :
    order.length ≤ iterations.flatten.length := by
  let items := iterations.flatten.map fun id => (id, ())
  have hsub : order ⊆ (number items).map Prod.fst := by
    intro p hp
    have hlt := ((h.mem_iff p).1 hp).2
    rw [numSeen_eq_count, List.count_eq_length_filter] at hlt
    rw [mem_map_fst_number, withKey, List.length_map, List.filter_map, List.length_map]
    simpa only [Function.comp_def, beq_eq_decide] using hlt
  have hle := (List.subperm_of_subset (nodup_of_before h.sorted) hsub).length_le
  rwa [List.length_map, length_number, List.length_map] at hle

theorem eq (h : CallOrder iterations calls order) {order' : List (UInt64 × Nat)}
    (h' : CallOrder iterations calls order') : order' = order :=
  eq_of_before h'.sorted h.sorted fun p => (h'.mem_iff p).trans (h.mem_iff p).symm

/-- All instances that the loop trace has are in the call trace. -/
def Found (calls : UInt64 → List (List UInt64)) (order : List (UInt64 × Nat)) : Prop :=
  ∀ p ∈ order, p.2 < (calls p.1).length

end CallOrder

namespace CallTraceLoopInvocationGroup

/-- The cache has the entries of the instances in `order`. -/
structure Cached (clig : CallTraceLoopInvocationGroup) (calls : UInt64 → List (List UInt64))
    (order : List (UInt64 × Nat)) : Prop where
  built : clig.callTraceCacheBuilt = true
  callInstances : ∀ s, clig.callInstances s = cacheEntries (seenInCall calls s) 0 order

variable {clig : CallTraceLoopInvocationGroup} {calls : UInt64 → List (List UInt64)}
  {invGroup : InvocationGroupCfc} {callInstrList : List UInt64}

/-- The cache of an invocation is built, or one of the instances is not found. -/
theorem buildCallTraceCache_cases
    (htable : InstanceTable invGroup (numSeen iterations) (iterationOf iterations))
    (h : ∀ id, Describes 0 (calls id) (instancesOf clig.calls id))
    (hlen : ∀ id, ∀ symbols ∈ calls id, symbols.length < 2 ^ 64)
    (hsum : ∀ order, CallOrder iterations calls order → CallOrder.Found calls order →
      ∀ s, (order.map (seenInCall calls s)).sum < 2 ^ 64)
    (hfresh : clig.callTraceCache = ∅) (hsorted : callInstrList.Pairwise (· < ·))
    (hlist : ∀ id, calls id ≠ [] → id ∈ callInstrList) {fuel : Nat}
    (hfuel : iterations.flatten.length ≤ fuel) (sub : InstancesMap) :
    ∃ order, CallOrder iterations calls order ∧
      ((CallOrder.Found calls order ∧ ∃ clig' sub',
          clig.buildLuts.buildCallTraceCache fuel invGroup sub callInstrList = .ok (clig', sub') ∧
            clig'.Cached calls order) ∨
        (¬ CallOrder.Found calls order ∧ ∃ e,
          clig.buildLuts.buildCallTraceCache fuel invGroup sub callInstrList = .error e)) := by
  rcases exists_order htable hsorted clig.buildLuts with ⟨order, hbefore, hmem, hbuild⟩
  have horder : CallOrder iterations calls order := by
    refine ⟨hbefore, fun p => ?_⟩
    rw [hmem, empty_buildLuts (h p.1)]
    exact ⟨fun hp => hp.2, fun hp => ⟨hlist _ hp.1, hp⟩⟩
  refine ⟨order, horder, ?_⟩
  rw [hbuild fuel sub (Nat.le_trans horder.length_le hfuel)]
  by_cases hfound : CallOrder.Found calls order
  · have hfreshLuts : clig.buildLuts.callTraceCache = ∅ := hfresh
    rcases exists_cache hfreshLuts
      (fun p hp => counted_buildLuts h hlen (hfound p hp)) (hsum order horder hfound) sub with
      ⟨clig', sub', hok, hbuilt, hentries⟩
    exact Or.inl ⟨hfound, clig', sub', hok, hbuilt, hentries⟩
  · refine Or.inr ⟨hfound, ?_⟩
    cases hall : clig.buildLuts.addAll order (clig.buildLuts.callTraceCache, ∅) with
    | error e => exact ⟨e, rfl⟩
    | ok st =>
        -- all instances would have been found
        refine absurd (fun p hp => ?_) hfound
        rcases isOk_of_addAll hall p hp with ⟨g, hg⟩
        by_contra hle
        rw [not_found_buildLuts h (Nat.le_of_not_lt hle)] at hg
        cases hg

end CallTraceLoopInvocationGroup
end CamAlias
