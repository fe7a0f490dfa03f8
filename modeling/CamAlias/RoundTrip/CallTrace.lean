import CamAlias.RoundTrip.CallAnalysis
import CamAlias.Tracer.CallOrder

/-!
# CallTrace — what is read back of the calls of an execution

The loop trace and the call trace of an execution are joined by instance numbers: the cache of an
invocation names instances of calls, and the loop trace says in which iteration each of them lies.

* `LoopInvocation.small`: below `2 ^ 64` calls of the interface nothing overflows;
* `LoopInvocation.Announced.perm_executedCalls`: the cache names the calls that are made;
* `callTrace_roundTrip`: how often an instruction is seen in the calls of an iteration.
-/

namespace CamAlias

open Lib

namespace LoopInvocation

variable {inv : LoopInvocation} {id : UInt64} {order : List (UInt64 × Nat)}

/-! ## Bounds -/

theorem mem_executedCalls_of_mem_instances {symbols : List UInt64} (h : symbols ∈ inv.instances id) :
    ∃ j k, ((id, j), k, symbols) ∈ inv.executedCalls := by
  rcases List.mem_iff_getElem?.1 h with ⟨j, hj⟩
  have hlt := (List.getElem?_eq_some_iff.1 hj).1
  rcases List.mem_map.1 ((inv.mem_map_fst_executedCalls (id, j)).2 hlt) with
    ⟨⟨p, k, symbols'⟩, hc, rfl⟩
  have hsame := (inv.mem_executedCalls hc).1
  rw [hj] at hsame
  rcases Option.some.inj hsame with rfl
  exact ⟨j, k, hc⟩

/-- How often an instruction is seen in a call. -/
theorem seenInCall_eq {c : (UInt64 × Nat) × Nat × List UInt64} (hc : c ∈ inv.executedCalls)
    (s : UInt64) : CallTraceLoopInvocationGroup.seenInCall inv.instances s c.1 = c.2.2.count s := by
  rw [CallTraceLoopInvocationGroup.seenInCall, (inv.mem_executedCalls hc).1, Option.getD_some]

/-- An execution makes a call of the interface for everything that is counted. -/
theorem small (inv : LoopInvocation) {loopID : UInt64} (hlen : (inv.apiCalls loopID).length < 2 ^ 64) :
    inv.recorded.Small := by
  have hcalls := inv.sum_length_executedCalls_le loopID
  refine ⟨?_, ?_, ?_⟩
  · exact Nat.lt_of_le_of_lt (inv.length_flatten_iterationSymbols_le loopID) hlen
  · intro id symbols hsymbols
    rcases mem_executedCalls_of_mem_instances hsymbols with ⟨j, k, hc⟩
    have hle : symbols.length ≤ (inv.executedCalls.map fun c => c.2.2.length).sum :=
      List.le_sum_of_mem (List.mem_map_of_mem (f := fun c => c.2.2.length) hc)
    omega
  · intro order hnodup hfound s
    have hsub : order ⊆ inv.executedCalls.map Prod.fst := fun p hp =>
      (inv.mem_map_fst_executedCalls p).2 (hfound p hp)
    refine Nat.lt_of_le_of_lt ?_ hlen
    calc (order.map (CallTraceLoopInvocationGroup.seenInCall inv.instances s)).sum
        ≤ ((inv.executedCalls.map Prod.fst).map
            (CallTraceLoopInvocationGroup.seenInCall inv.instances s)).sum :=
          sum_map_le_of_nodup hnodup hsub _
      _ ≤ (inv.executedCalls.map fun c => c.2.2.length).sum := by
          rw [List.map_map]
          refine List.sum_le_sum fun c hc => ?_
          rw [Function.comp_apply, seenInCall_eq hc]
          exact List.count_le_length
      _ ≤ (inv.apiCalls loopID).length := hcalls

/-! ## Announcements -/

/-- Every call of an iteration is announced in it. -/
theorem blockSize_callBlocks_le (inv : LoopInvocation) (id : UInt64) (k : Nat) :
    blockSize (inv.callBlocks id) k ≤ seenIn inv.iterationSymbols id k := by
  have hevent : ∀ e : IterationEvent, (e.instances id).length ≤ e.symbols.count id := by
    intro e
    cases e with
    | seen instID => exact Nat.zero_le _
    | dump => exact Nat.zero_le _
    | call callID body =>
        by_cases hid : id = callID
        · simp [IterationEvent.instances, IterationEvent.symbols, hid]
        · simp [IterationEvent.instances, hid]
  have hevents : ∀ it : List IterationEvent,
      (it.flatMap (IterationEvent.instances id)).length
        ≤ (it.flatMap IterationEvent.symbols).count id := by
    intro it
    induction it with
    | nil => exact Nat.le_refl _
    | cons e it ih =>
        rw [List.flatMap_cons, List.flatMap_cons, List.length_append, List.count_append]
        exact Nat.add_le_add (hevent e) ih
  rw [blockSize, seenIn, callBlocks, iterationSymbols, List.getElem?_map, List.getElem?_map]
  cases inv.iterations[k]? with
  | none => exact Nat.le_refl _
  | some it => exact hevents it

/-- The instances of an ID, counted by iterations. -/
theorem length_instances (inv : LoopInvocation) (id : UInt64) :
    (inv.instances id).length = before (blockSize (inv.callBlocks id)) inv.iterations.length := by
  have hlen := length_tagged (inv.callBlocks id)
  rwa [← List.length_map (f := Prod.snd), map_snd_tagged, flatten_callBlocks, callBlocks,
    List.length_map] at hlen

theorem length_instances_le (inv : LoopInvocation) (id : UInt64) :
    (inv.instances id).length ≤ numSeen inv.iterationSymbols id := by
  rw [length_instances, numSeen, iterationSymbols, List.length_map]
  exact before_le_before fun i _ => inv.blockSize_callBlocks_le id i

/-- An invocation in which nothing is seen makes no call. -/
theorem instances_eq_nil (hempty : inv.iterationSymbols.flatten = []) (id : UInt64) :
    inv.instances id = [] := by
  have hle := inv.length_instances_le id
  rw [numSeen_eq_count, hempty, List.count_nil] at hle
  exact List.eq_nil_of_length_eq_zero (Nat.le_zero.1 hle)

namespace Announced

theorem numSeen_eq (h : inv.Announced) (hid : inv.instances id ≠ []) :
    numSeen inv.iterationSymbols id = (inv.instances id).length := by
  rw [numSeen_eq_count]
  exact h id hid

/-- Only the calls of an iteration are seen in it. -/
theorem seenIn_eq (h : inv.Announced) (hid : inv.instances id ≠ []) {k : Nat}
    (hk : k < inv.iterations.length) :
    blockSize (inv.callBlocks id) k = seenIn inv.iterationSymbols id k := by
  refine eq_of_before_eq (fun i _ => inv.blockSize_callBlocks_le id i) ?_ k hk
  have hseen := h.numSeen_eq hid
  rw [numSeen, iterationSymbols, List.length_map, length_instances] at hseen
  exact hseen.symm

/-- The loop trace has an instance of a call in the iteration in which the call is made. -/
theorem iterationOf_eq (h : inv.Announced) {c : (UInt64 × Nat) × Nat × List UInt64}
    (hc : c ∈ inv.executedCalls) : iterationOf inv.iterationSymbols c.1.1 c.1.2 = c.2.1 := by
  rcases inv.mem_executedCalls hc with ⟨hget, hk, hblock⟩
  have hid : inv.instances c.1.1 ≠ [] := by
    intro hnil
    rw [hnil] at hget
    cases hget
  have hsame : ∀ n ≤ inv.iterations.length, before (blockSize (inv.callBlocks c.1.1)) n
      = before (seenIn inv.iterationSymbols c.1.1) n := by
    intro n hn
    refine congrArg List.sum (List.map_congr_left fun i hi => ?_)
    exact h.seenIn_eq hid (Nat.lt_of_lt_of_le (List.mem_range.1 hi) hn)
  have hblock' : InBlock (seenIn inv.iterationSymbols c.1.1) c.2.1 c.1.2 := by
    refine ⟨?_, ?_⟩
    · rw [← hsame _ (Nat.le_of_lt hk)]
      exact hblock.le
    · rw [← hsame _ hk]
      exact hblock.lt
  refine hblock'.blockOf_eq ?_
  rwa [iterationSymbols, List.length_map]

end Announced

/-- The call trace has all instances that the loop trace has, if every ID of a call is seen as often
as it is called. -/
theorem found_iff_announced (horder : CallOrder inv.iterationSymbols inv.instances order) :
    CallOrder.Found inv.instances order ↔ inv.Announced := by
  constructor
  · intro hfound id hid
    rw [← numSeen_eq_count]
    refine Nat.le_antisymm (Nat.not_lt.1 fun hlt => ?_) (inv.length_instances_le id)
    exact Nat.lt_irrefl _ (hfound (id, (inv.instances id).length) ((horder.mem_iff _).2 ⟨hid, hlt⟩))
  · intro h p hp
    rcases (horder.mem_iff p).1 hp with ⟨hid, hlt⟩
    rwa [h.numSeen_eq hid] at hlt

/-- The order of a group has the calls of each of its invocations. -/
theorem perm_executedCalls {built : LoopInvocation} (hbuilt : built.Announced)
    (hcalls : built.instances = inv.instances)
    (horder : CallOrder built.iterationSymbols inv.instances order) :
    order.Perm (inv.executedCalls.map Prod.fst) := by
  refine (List.perm_ext_iff_of_nodup (nodup_of_before horder.sorted) inv.nodup_executedCalls).2 ?_
  intro p
  rw [horder.mem_iff, mem_map_fst_executedCalls, ← hcalls]
  constructor
  · rintro ⟨hid, hlt⟩
    rwa [hbuilt.numSeen_eq hid] at hlt
  · intro hlt
    have hid : built.instances p.1 ≠ [] := List.ne_nil_of_length_pos (Nat.zero_lt_of_lt hlt)
    exact ⟨hid, by rwa [hbuilt.numSeen_eq hid]⟩

/-! ## Counts -/

/-- How often `s` is seen in the calls with the ID `callID` that are made in iteration `k`. -/
def numSeenInCalls (inv : LoopInvocation) (k : Nat) (callID s : UInt64) : Nat :=
  ((inv.iterations[k]?.getD []).flatMap (IterationEvent.instances callID)).flatten.count s

theorem numSeenInCalls_eq_sum (inv : LoopInvocation) (k : Nat) (callID s : UInt64) :
    inv.numSeenInCalls k callID s
      = ((inv.executedCalls.filter fun c => c.1.1 == callID && c.2.1 == k).map
          fun c => c.2.2.count s).sum := by
  have hmade : inv.executedCalls.map (fun c => (c.1.1, c.2)) = inv.callsMade :=
    map_snd_numberFrom _ _
  have hblock : (inv.callBlocks callID)[k]?.getD []
      = (inv.iterations[k]?.getD []).flatMap (IterationEvent.instances callID) := by
    rw [callBlocks, List.getElem?_map]
    cases inv.iterations[k]? <;> rfl
  have hcalls : ((inv.executedCalls.filter fun c => c.1.1 == callID && c.2.1 == k).map
        fun c => c.2.2)
      = (inv.callBlocks callID)[k]?.getD [] := by
    calc (inv.executedCalls.filter fun c => c.1.1 == callID && c.2.1 == k).map (fun c => c.2.2)
        = ((inv.executedCalls.map fun c => (c.1.1, c.2)).filter
            fun c => c.1 == callID && c.2.1 == k).map fun c => c.2.2 := by
          rw [List.filter_map, List.map_map]
          rfl
      _ = ((withKey callID inv.callsMade).filter fun x => x.1 == k).map Prod.snd := by
          rw [hmade, withKey, List.filter_map, List.map_map, List.filter_filter]
          congr 1
          refine List.filter_congr fun c _ => ?_
          rw [Bool.and_comm, beq_eq_decide]
          rfl
      _ = (inv.callBlocks callID)[k]?.getD [] := by
          rw [withKey_callsMade, map_snd_filter_tagged]
  rw [numSeenInCalls, ← hblock, ← hcalls, List.count_flatten, List.map_map]
  rfl

end LoopInvocation

/-- Entries of instances that see nothing are left out. -/
theorem sum_filter_pos {α : Type _} (f : α → Nat) (p : α → Bool) (xs : List α) :
    (((xs.filter fun x => 0 < f x).filter p).map f).sum = ((xs.filter p).map f).sum := by
  rw [List.filter_filter]
  induction xs with
  | nil => rfl
  | cons x xs ih =>
      by_cases hp : p x = true
      · by_cases hpos : 0 < f x
        · simp [hpos, hp, ih]
        · simp [Nat.eq_zero_of_not_pos hpos, hp, ih]
      · simp [hp, ih]

namespace InvocationCalls

variable {inv : LoopInvocation} {out : InvocationCalls} {order : List (UInt64 × Nat)} {s : UInt64}

theorem inIteration_eq (calls : InvocationCalls) (k : Nat) (cii : CallTraceInstructionCacheEntry) :
    calls.inIteration k cii
      = ((calls.invGroup.getIterationNumber cii.callID cii.callInstance).toOption == some k) := by
  rw [inIteration]
  cases calls.invGroup.getIterationNumber cii.callID cii.callInstance <;> rfl

/-- The entries of an instruction count what is seen in the calls of an iteration, where the loop
trace has every call in its iteration. -/
theorem numInstances_eq (hperm : order.Perm (inv.executedCalls.map Prod.fst))
    (hentries : out.callInstances s = cacheEntries
      (CallTraceLoopInvocationGroup.seenInCall inv.instances s) 0 order)
    (hlt : (order.map (CallTraceLoopInvocationGroup.seenInCall inv.instances s)).sum < 2 ^ 64)
    (htable : ∀ c ∈ inv.executedCalls,
      out.invGroup.getIterationNumber c.1.1 c.1.2 = .ok c.2.1) (k : Nat) (callID : UInt64) :
    out.numInstances k callID s = inv.numSeenInCalls k callID s := by
  let count := CallTraceLoopInvocationGroup.seenInCall inv.instances s
  let wanted : UInt64 × Nat → Bool := fun p =>
    p.1 == callID && (out.invGroup.getIterationNumber p.1 p.2).toOption == some k
  have hsmall : 0 + (order.map count).sum < 2 ^ 64 := by rwa [Nat.zero_add]
  have hmap := map_cacheEntries order 0 hsmall
  -- the entries are the calls of the cache, and these are the calls that are made, in some order
  calc out.numInstances k callID s
      = ((((cacheEntries count 0 order).map fun e =>
          ((e.callID, e.callInstance), e.getNumInstances)).filter fun x => wanted x.1).map
            Prod.snd).sum := by
        simp only [numInstances, inIteration_eq, hentries]
        rw [List.filter_map, List.map_map]
        rfl
    _ = (((order.filter fun p => 0 < count p).filter wanted).map count).sum := by
        rw [hmap, List.filter_map, List.map_map]
        rfl
    _ = ((order.filter wanted).map count).sum := sum_filter_pos count wanted order
    _ = (((inv.executedCalls.map Prod.fst).filter wanted).map count).sum :=
        ((hperm.filter wanted).map count).sum_eq
    _ = ((inv.executedCalls.filter fun c => c.1.1 == callID && c.2.1 == k).map
          fun c => c.2.2.count s).sum := by
        have hwanted : inv.executedCalls.filter (wanted ∘ Prod.fst)
            = inv.executedCalls.filter fun c => c.1.1 == callID && c.2.1 == k := by
          refine List.filter_congr fun c hc => ?_
          simp only [wanted, Function.comp_apply, htable c hc, Except.toOption,
            Option.some_beq_some]
        rw [List.filter_map, hwanted, List.map_map]
        congr 1
        refine List.map_congr_left fun c hc => ?_
        exact LoopInvocation.seenInCall_eq (List.mem_of_mem_filter hc) s
    _ = inv.numSeenInCalls k callID s := (inv.numSeenInCalls_eq_sum k callID s).symm

end InvocationCalls

/-! ## The files of an execution -/

/-- The loop trace has an instance of a call, wherever its table says. -/
theorem TracesDescribe.getIterationNumber_eq {invs : List Invocation}
    {groupOf : Nat → InvocationGroupCfc} {es : List CallTraceLoopInvocationGroup}
    {callList : List UInt64} (h : TracesDescribe invs groupOf es callList) {n : Nat}
    {inv : Invocation} (hget : invs[n]? = some inv) {id : UInt64} {j : Nat}
    (hj : j < numSeen inv.iterations id) :
    (groupOf n).getIterationNumber id j = .ok (iterationOf inv.iterations id j) := by
  rcases h.loop n inv hget with ⟨g, hg, hdescribes, hfresh⟩
  have htable := instanceTable_of_describes hdescribes hfresh
    (h.small inv (List.mem_of_getElem? hget)).seen
  rw [hg]
  exact htable.iter_eq id j hj

theorem LoopInvocation.lt_numSeen {inv : LoopInvocation}
    {c : (UInt64 × Nat) × Nat × List UInt64} (hc : c ∈ inv.executedCalls) :
    c.1.2 < numSeen inv.iterationSymbols c.1.1 :=
  Nat.lt_of_lt_of_le
    ((inv.mem_map_fst_executedCalls c.1).1 (List.mem_map_of_mem hc)) (inv.length_instances_le c.1.1)

theorem LoopInvocation.executedCalls_eq_nil {inv : LoopInvocation}
    (hempty : inv.iterationSymbols.flatten = []) : inv.executedCalls = [] := by
  refine List.eq_nil_iff_forall_not_mem.2 fun c hc => ?_
  have hlt := (inv.mem_map_fst_executedCalls c.1).1 (List.mem_map_of_mem hc)
  rw [inv.instances_eq_nil hempty] at hlt
  exact Nat.not_lt_zero _ hlt

theorem small_recorded {loopID : UInt64} {invs : List LoopInvocation}
    (hlen : (executionCalls loopID invs).length < 2 ^ 64) :
    ∀ inv ∈ invs.map LoopInvocation.recorded, inv.Small := by
  intro inv hinv
  rcases List.mem_map.1 hinv with ⟨i, hi, rfl⟩
  exact i.small (Nat.lt_of_le_of_lt (length_apiCalls_le loopID hi) hlen)

/-- An execution whose writes fit, and what the two passes over its call trace and the loop over its
invocations come to, in whatever reads the files come. -/
theorem record_callTrace (loopID : UInt64) (invs : List LoopInvocation)
    (hlen : (executionCalls loopID invs).length < 2 ^ 64)
    (hfits : LoopTracer.init.Fits (LoopTracer.inTime (executionCalls loopID invs))) :
    (invs = [] ∧ LoopTracer.record (LoopTracer.inTime (executionCalls loopID invs)) = some none) ∨
    ∃ files groupOf es,
      LoopTracer.record (LoopTracer.inTime (executionCalls loopID invs)) = some (some files) ∧
      Lines files.loopTrace ∧ Lines files.callTrace ∧
      ∀ loopTrace callTrace, Delivered files.loopTrace loopTrace →
        Delivered files.callTrace callTrace →
        (∃ callList, TracesDescribe (invs.map LoopInvocation.recorded) groupOf es callList) ∧
        ∀ fuel, (executionCalls loopID invs).length < fuel →
          CallTraceStreamer.entryStream.readEntries fuel (CallTraceStreamer.ofFile callTrace)
            = .ok es ∧
          ((∃ outs, readCallTrace fuel loopTrace callTrace = .ok outs ∧ outs.length = invs.length ∧
              (∀ (n : Nat) (out : InvocationCalls), outs[n]? = some out →
                Attributed (invs.map LoopInvocation.recorded) groupOf es n out) ∧
              ¬ NotFound (invs.map LoopInvocation.recorded) es) ∨
            (NotFound (invs.map LoopInvocation.recorded) es ∧
              ∃ f, readCallTrace fuel loopTrace callTrace = .error f)) := by
  rcases LoopTracer.record_execution loopID invs hlen hfits with
    hnone | ⟨files, hrecord, hloop, hcall⟩
  · exact Or.inl hnone
  · rcases exists_tracesRead hloop hcall (small_recorded hlen) with ⟨groupOf, es, hread⟩
    refine Or.inr ⟨files, groupOf, es, hrecord, hloop.lines, hcall.lines, ?_⟩
    intro loopTrace callTrace hloopTrace hcallTrace
    rcases hread loopTrace callTrace hloopTrace hcallTrace with ⟨callList, subInstrList, hread⟩
    refine ⟨⟨_, hread.describe⟩, fun fuel hfuel => ?_⟩
    have hmany := Nat.lt_of_le_of_lt (length_recorded_le loopID invs) hfuel
    have hcases := hread.readCallTrace_cases hmany fun inv hinv =>
      Nat.le_trans (length_symbols_recorded_le loopID hinv) (Nat.le_of_lt hfuel)
    rwa [List.length_map] at hcases

/-! ## The round trip -/

/-- What is asked of an execution: each invocation is in one group of the call trace, and reading
both traces gives for every iteration, call ID and instruction how often the instruction was seen in
the calls with this ID that were made in the iteration, in whatever reads the files come. -/
def CallTraceRoundTrip (loopID : UInt64) (invs : List LoopInvocation) : Prop :=
  match LoopTracer.record (LoopTracer.inTime (executionCalls loopID invs)) with
  | none => False
  | some none => invs = []
  | some (some files) => ∀ loopTrace callTrace, Delivered files.loopTrace loopTrace →
      Delivered files.callTrace callTrace →
      ∀ fuel, (executionCalls loopID invs).length < fuel → ∃ es outs,
        CallTraceStreamer.entryStream.readEntries fuel (CallTraceStreamer.ofFile callTrace)
          = .ok es ∧
        (∀ n < invs.length, ∃! i : Nat, ∃ e : CallTraceLoopInvocationGroup,
          es[i]? = some e ∧ n ∈ numbers e.repetitions) ∧
        readCallTrace fuel loopTrace callTrace = .ok outs ∧ outs.length = invs.length ∧
        ∀ (n : Nat) (inv : LoopInvocation) (out : InvocationCalls), invs[n]? = some inv →
          outs[n]? = some out →
          ∀ k callID s, out.numInstances k callID s = inv.numSeenInCalls k callID s

/-- The caches of an execution are built, as far as calls are made only where they are announced. -/
theorem not_notFound_of_announced {invs : List LoopInvocation}
    {es : List CallTraceLoopInvocationGroup} (hannounced : ∀ inv ∈ invs, inv.Announced) :
    ¬ NotFound (invs.map LoopInvocation.recorded) es := by
  rintro ⟨e, he, m, built, order, hfirst, horder, hnotFound⟩
  rcases List.mem_map.1 (List.mem_of_getElem? hfirst.get) with ⟨inv, hinv, rfl⟩
  exact hnotFound ((LoopInvocation.found_iff_announced horder).2 (hannounced inv hinv))

end CamAlias
