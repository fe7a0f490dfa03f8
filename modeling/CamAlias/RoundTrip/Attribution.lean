import CamAlias.RoundTrip.CallTrace

/-!
# Attribution — the call that an instance of a sub-instruction is attributed to

The memory accesses of a sub-instruction are cut by the entries of the call trace cache, one entry
after the other, so the entries have to come in the order in which the calls were made.  The cache
has them by the iterations in the loop trace of one invocation of the group, and within an iteration
by call ID.

* `attributed_iff`: one invocation;
* `attributedInOrder_iff`: the executions whose entries come in the order of the calls.
-/

namespace CamAlias

open Lib

/-! ## The entries and the calls -/

/-- From `callInstanceIteratorBegin` to `callInstanceIteratorEnd`: the call instance of each entry,
its number of instances, and the iteration that it is attributed to. -/
def InvocationCalls.attributed (out : InvocationCalls) (instrID : UInt64) :
    List ((UInt64 × Nat) × Nat × Except Fault Nat) :=
  (out.callInstances instrID).map fun cii =>
    ((cii.callID, cii.callInstance), cii.getNumInstances,
      out.invGroup.getIterationNumber cii.callID cii.callInstance)

namespace LoopInvocation

/-- The calls in which an instruction is seen, in the order in which they are made. -/
def callsSeeing (inv : LoopInvocation) (s : UInt64) :
    List ((UInt64 × Nat) × Nat × List UInt64) :=
  inv.executedCalls.filter fun c => c.2.2.contains s

theorem mem_callsSeeing {inv : LoopInvocation} {s : UInt64}
    {c : (UInt64 × Nat) × Nat × List UInt64} :
    c ∈ inv.callsSeeing s ↔ c ∈ inv.executedCalls ∧ s ∈ c.2.2 := by
  rw [callsSeeing, List.mem_filter, List.contains_iff_mem]

theorem callsSeeing_eq_nil {inv : LoopInvocation} (hempty : inv.iterationSymbols.flatten = [])
    (s : UInt64) : inv.callsSeeing s = [] := by
  rw [callsSeeing, inv.executedCalls_eq_nil hempty]
  rfl

/-- What the entries are to be: the call instance, how often the instruction is seen in it, and the
iteration in which it is made. -/
def executed (inv : LoopInvocation) (s : UInt64) : List ((UInt64 × Nat) × Nat × Except Fault Nat) :=
  (inv.callsSeeing s).map fun c => (c.1, c.2.2.count s, .ok c.2.1)

end LoopInvocation

section Attributed

variable {inv : LoopInvocation} {out : InvocationCalls} {order : List (UInt64 × Nat)} {s : UInt64}
  {iter : UInt64 → Nat → Nat}

/-- The entries are those of the calls that see the instruction. -/
theorem attributed_eq
    (hentries : out.callInstances s = cacheEntries
      (CallTraceLoopInvocationGroup.seenInCall inv.instances s) 0 order)
    (hlt : (order.map (CallTraceLoopInvocationGroup.seenInCall inv.instances s)).sum < 2 ^ 64) :
    out.attributed s
      = (order.filter fun p => 0 < CallTraceLoopInvocationGroup.seenInCall inv.instances s p).map
          fun p => (p, CallTraceLoopInvocationGroup.seenInCall inv.instances s p,
            out.invGroup.getIterationNumber p.1 p.2) := by
  have hmap := map_cacheEntries order 0 (by rwa [Nat.zero_add])
  calc out.attributed s
      = ((out.callInstances s).map fun e =>
          ((e.callID, e.callInstance), e.getNumInstances)).map fun x =>
            (x.1, x.2, out.invGroup.getIterationNumber x.1.1 x.1.2) := by
        rw [List.map_map]
        rfl
    _ = _ := by
        rw [hentries, hmap, List.map_map]
        rfl

/-- The entries of an invocation are its calls, in their order and with their iterations, if the
calls are made in the order of the cache and lie where the loop trace has them. -/
theorem attributed_iff
    (hentries : out.callInstances s = cacheEntries
      (CallTraceLoopInvocationGroup.seenInCall inv.instances s) 0 order)
    (hlt : (order.map (CallTraceLoopInvocationGroup.seenInCall inv.instances s)).sum < 2 ^ 64)
    (hperm : order.Perm (inv.executedCalls.map Prod.fst)) (hsorted : order.Pairwise (Before iter))
    (htable : ∀ c ∈ inv.executedCalls, out.invGroup.getIterationNumber c.1.1 c.1.2
      = .ok (iterationOf inv.iterationSymbols c.1.1 c.1.2)) :
    out.attributed s = inv.executed s ↔
      ((inv.callsSeeing s).map Prod.fst).Pairwise (Before iter) ∧
        ∀ c ∈ inv.callsSeeing s, iterationOf inv.iterationSymbols c.1.1 c.1.2 = c.2.1 := by
  let count := CallTraceLoopInvocationGroup.seenInCall inv.instances s
  have hcount : ∀ c ∈ inv.executedCalls, count c.1 = c.2.2.count s := fun c hc =>
    LoopInvocation.seenInCall_eq hc s
  rw [attributed_eq hentries hlt, LoopInvocation.executed]
  constructor
  · intro h
    have hfst := congrArg (List.map Prod.fst) h
    simp only [List.map_map, Function.comp_def, List.map_id'] at hfst
    refine ⟨?_, fun c hc => ?_⟩
    · rw [← hfst]
      exact hsorted.sublist List.filter_sublist
    · -- the entry of the call names its iteration
      have hmem : (c.1, c.2.2.count s, Except.ok c.2.1) ∈ (inv.callsSeeing s).map fun c =>
          ((c.1, c.2.2.count s, Except.ok c.2.1) : (UInt64 × Nat) × Nat × Except Fault Nat) :=
        List.mem_map_of_mem hc
      rw [← h] at hmem
      rcases List.mem_map.1 hmem with ⟨p, -, heq⟩
      simp only [Prod.mk.injEq] at heq
      rcases heq with ⟨rfl, -, hiter⟩
      rw [htable c (LoopInvocation.mem_callsSeeing.1 hc).1] at hiter
      exact Except.ok.inj hiter
  · rintro ⟨hpairwise, hiterations⟩
    have horder : (order.filter fun p => 0 < count p) = (inv.callsSeeing s).map Prod.fst := by
      refine eq_of_before (hsorted.sublist List.filter_sublist) hpairwise fun p => ?_
      rw [List.mem_filter, hperm.mem_iff, decide_eq_true_iff]
      constructor
      · rintro ⟨hp, hpos⟩
        rcases List.mem_map.1 hp with ⟨c, hc, rfl⟩
        rw [hcount c hc] at hpos
        exact List.mem_map_of_mem
          (LoopInvocation.mem_callsSeeing.2 ⟨hc, List.count_pos_iff.1 hpos⟩)
      · intro hp
        rcases List.mem_map.1 hp with ⟨c, hc, rfl⟩
        rcases LoopInvocation.mem_callsSeeing.1 hc with ⟨hc, hs⟩
        refine ⟨List.mem_map_of_mem hc, ?_⟩
        rw [hcount c hc]
        exact List.count_pos_iff.2 hs
    rw [horder, List.map_map]
    refine List.map_congr_left fun c hc => ?_
    have hmade := (LoopInvocation.mem_callsSeeing.1 hc).1
    have hiter := htable c hmade
    rw [hiterations c hc] at hiter
    simp only [Function.comp_apply, hiter]
    exact congrArg (fun n => (c.1, n, Except.ok c.2.1)) (hcount c hmade)

end Attributed

/-! ## Executions -/

/-- What is asked of an execution: in every invocation the entries of an instruction are the calls
that see it, in the order in which they are made, in whatever reads the files come. -/
def AttributedInOrder (loopID : UInt64) (invs : List LoopInvocation) : Prop :=
  match LoopTracer.record (LoopTracer.inTime (executionCalls loopID invs)) with
  | none => False
  | some none => invs = []
  | some (some files) => ∀ loopTrace callTrace, Delivered files.loopTrace loopTrace →
      Delivered files.callTrace callTrace →
      ∀ fuel, (executionCalls loopID invs).length < fuel → ∃ outs,
        readCallTrace fuel loopTrace callTrace = .ok outs ∧ outs.length = invs.length ∧
        ∀ (n : Nat) (inv : LoopInvocation) (out : InvocationCalls), invs[n]? = some inv →
          outs[n]? = some out → ∀ s, out.attributed s = inv.executed s

/-- The invocations of each group that the call trace of an execution has. -/
def callTraceGroups (loopID : UInt64) (invs : List LoopInvocation) : List (List Nat) :=
  match LoopTracer.record (LoopTracer.inTime (executionCalls loopID invs)) with
  | some (some files) =>
      match CallTraceStreamer.entryStream.readEntries ((executionCalls loopID invs).length + 1)
          (CallTraceStreamer.ofFile (wholeRead files.callTrace)) with
      | .ok es => es.map fun e => numbers e.repetitions
      | .error _ => []
  | _ => []

/-- The calls of `inv` are made in the order that the loop trace of `built` gives them. -/
structure OrderKept (built inv : LoopInvocation) : Prop where
  announced : built.Announced
  iterations : ∀ s, ∀ c ∈ inv.callsSeeing s,
    iterationOf inv.iterationSymbols c.1.1 c.1.2 = c.2.1
  order : ∀ s, ((inv.callsSeeing s).map Prod.fst).Pairwise
    (Before (iterationOf built.iterationSymbols))

/-- So are the calls of every invocation of a group, for the first one in which anything is seen. -/
def GroupsKeepOrder (loopID : UInt64) (invs : List LoopInvocation) : Prop :=
  ∀ ns ∈ callTraceGroups loopID invs, ∀ m built, invs[m]? = some built →
    FirstNonempty (invs.map LoopInvocation.recorded) ns m built.recorded →
    ∀ n ∈ ns, ∀ inv, invs[n]? = some inv → OrderKept built inv

/-- Every invocation of a group is related to the first one in which anything is seen. -/
def InGroups (loopID : UInt64) (invs : List LoopInvocation)
    (R : LoopInvocation → LoopInvocation → Prop) : Prop :=
  ∀ ns ∈ callTraceGroups loopID invs, ∀ m built, invs[m]? = some built →
    FirstNonempty (invs.map LoopInvocation.recorded) ns m built.recorded →
    ∀ n ∈ ns, ∀ inv, invs[n]? = some inv → R built inv

theorem groupsKeepOrder_iff {loopID : UInt64} {invs : List LoopInvocation} :
    GroupsKeepOrder loopID invs ↔ InGroups loopID invs OrderKept :=
  Iff.rfl

theorem InGroups.imp {loopID : UInt64} {invs : List LoopInvocation}
    {R R' : LoopInvocation → LoopInvocation → Prop} (h : InGroups loopID invs R)
    (himp : ∀ built inv, R built inv → R' built inv) : InGroups loopID invs R' :=
  fun ns hns m built hbuilt hfirst n hn inv hget =>
    himp built inv (h ns hns m built hbuilt hfirst n hn inv hget)

section Files

variable {loopID : UInt64} {invs : List LoopInvocation} {groupOf : Nat → InvocationGroupCfc}
  {es : List CallTraceLoopInvocationGroup} {callList : List UInt64} {n m : Nat}
  {inv built : LoopInvocation} {out : InvocationCalls} {e : CallTraceLoopInvocationGroup}

theorem getElem?_recorded (hget : invs[n]? = some inv) :
    (invs.map LoopInvocation.recorded)[n]? = some inv.recorded := by
  rw [List.getElem?_map, hget, Option.map_some]

/-- The order of an invocation is the one of the first invocation of its group in which anything is
seen. -/
theorem exists_groupOrder
    (htraces : TracesDescribe (invs.map LoopInvocation.recorded) groupOf es callList)
    (hattr : Attributed (invs.map LoopInvocation.recorded) groupOf es n out)
    (hget : invs[n]? = some inv) (hseen : inv.iterationSymbols.flatten ≠ []) (he : e ∈ es)
    (hn : n ∈ numbers e.repetitions)
    (hfirst : FirstNonempty (invs.map LoopInvocation.recorded) (numbers e.repetitions) m
      built.recorded) :
    ∃ order, CallOrder built.iterationSymbols inv.instances order ∧
      built.instances = inv.instances ∧ CallOrder.Found inv.instances order ∧
      ∀ s, out.callInstances s = cacheEntries
        (CallTraceLoopInvocationGroup.seenInCall inv.instances s) 0 order := by
  rcases hattr.cached _ (getElem?_recorded hget) hseen with
    ⟨order, ⟨e', he', hn', m', built', hfirst', horder⟩, hfound, hentries⟩
  rcases List.mem_iff_getElem?.1 he with ⟨i, hi⟩
  rcases List.mem_iff_getElem?.1 he' with ⟨i', hi'⟩
  rcases htraces.index_unique hi hi' hn hn' with rfl
  rcases Option.some.inj (hi.symm.trans hi') with rfl
  rcases hfirst.unique hfirst' with rfl
  rcases Option.some.inj (hfirst.get.symm.trans hfirst'.get) with rfl
  exact ⟨order, horder, htraces.calls_eq he hfirst.mem hfirst.get hn (getElem?_recorded hget),
    hfound, hentries⟩

/-- The entries of an invocation, where the cache of its group has been built. -/
theorem attributed_iff_of_announced
    (htraces : TracesDescribe (invs.map LoopInvocation.recorded) groupOf es callList)
    (hattr : Attributed (invs.map LoopInvocation.recorded) groupOf es n out)
    (hget : invs[n]? = some inv) (hseen : inv.iterationSymbols.flatten ≠ []) (he : e ∈ es)
    (hn : n ∈ numbers e.repetitions)
    (hfirst : FirstNonempty (invs.map LoopInvocation.recorded) (numbers e.repetitions) m
      built.recorded) (hannounced : built.Announced) (s : UInt64) :
    out.attributed s = inv.executed s ↔
      ((inv.callsSeeing s).map Prod.fst).Pairwise (Before (iterationOf built.iterationSymbols)) ∧
        ∀ c ∈ inv.callsSeeing s, iterationOf inv.iterationSymbols c.1.1 c.1.2 = c.2.1 := by
  rcases exists_groupOrder htraces hattr hget hseen he hn hfirst with
    ⟨order, horder, hcalls, hfound, hentries⟩
  have hperm := LoopInvocation.perm_executedCalls hannounced hcalls horder
  have hsmall := htraces.small _ (List.mem_of_getElem? (getElem?_recorded hget))
  refine attributed_iff (hentries s)
    (hsmall.seenInCalls order (nodup_of_before horder.sorted) hfound s) hperm horder.sorted ?_
  intro c hc
  rw [hattr.invGroup]
  exact htraces.getIterationNumber_eq (getElem?_recorded hget) (LoopInvocation.lt_numSeen hc)

/-- The first invocation of a group in which anything is seen is announced, for its cache has been
built. -/
theorem announced_of_attributed
    (htraces : TracesDescribe (invs.map LoopInvocation.recorded) groupOf es callList)
    (hattr : Attributed (invs.map LoopInvocation.recorded) groupOf es m out) (he : e ∈ es)
    (hgetBuilt : invs[m]? = some built)
    (hfirst : FirstNonempty (invs.map LoopInvocation.recorded) (numbers e.repetitions) m
      built.recorded) : built.Announced := by
  rcases exists_groupOrder htraces hattr hgetBuilt hfirst.seen he hfirst.mem hfirst with
    ⟨order, horder, -, hfound, -⟩
  exact (LoopInvocation.found_iff_announced horder).1 hfound

/-- An invocation in which nothing is seen has no calls. -/
theorem orderKept_of_empty (hannounced : built.Announced) (hseen : inv.iterationSymbols.flatten = []) :
    OrderKept built inv := by
  have hnone := inv.callsSeeing_eq_nil hseen
  refine ⟨hannounced, fun s c hc => ?_, fun s => ?_⟩
  · rw [hnone s] at hc
    cases hc
  · rw [hnone s]
    exact List.Pairwise.nil

/-- The groups of the call trace, as they are read. -/
theorem callTraceGroups_eq {files : LoopTracer.Files}
    (hrecord : LoopTracer.record (LoopTracer.inTime (executionCalls loopID invs)) = some (some files))
    (hread : CallTraceStreamer.entryStream.readEntries ((executionCalls loopID invs).length + 1)
      (CallTraceStreamer.ofFile (wholeRead files.callTrace)) = .ok es) :
    callTraceGroups loopID invs = es.map fun e => numbers e.repetitions := by
  simp only [callTraceGroups, hrecord, hread]

end Files

/-- Where all entries are right, the calls of every group are made in the order of the cache. -/
theorem groupsKeepOrder_of_attributed (loopID : UInt64) (invs : List LoopInvocation)
    (hlen : (executionCalls loopID invs).length < 2 ^ 64)
    (hfits : LoopTracer.init.Fits (LoopTracer.inTime (executionCalls loopID invs)))
    (h : AttributedInOrder loopID invs) : GroupsKeepOrder loopID invs := by
  rcases record_callTrace loopID invs hlen hfits with
    ⟨-, hrecord⟩ | ⟨files, groupOf, es, hrecord, hloopLines, hcallLines, hdelivered⟩
  · intro ns hns
    simp [callTraceGroups, hrecord] at hns
  · simp only [AttributedInOrder, hrecord] at h
    rcases h _ _ hloopLines.delivered hcallLines.delivered _ (Nat.lt_succ_self _) with
      ⟨outs, houts, hlength, hattributed⟩
    rcases hdelivered _ _ hloopLines.delivered hcallLines.delivered with
      ⟨⟨callList, htraces⟩, hcases⟩
    rcases hcases _ (Nat.lt_succ_self _) with
      ⟨hread, ⟨outs', houts', -, hattr, -⟩ | ⟨-, f, herror⟩⟩
    · rcases Except.ok.inj (houts.symm.trans houts') with rfl
      have hout : ∀ {n : Nat} {inv : LoopInvocation}, invs[n]? = some inv →
          ∃ out, outs[n]? = some out := by
        intro n inv hget
        have hlt := (List.getElem?_eq_some_iff.1 hget).1
        exact ⟨_, List.getElem?_eq_getElem (hlength ▸ hlt)⟩
      rw [GroupsKeepOrder, callTraceGroups_eq hrecord hread]
      intro ns hns m built hgetBuilt hfirst n hn inv hget
      rcases List.mem_map.1 hns with ⟨e, he, rfl⟩
      rcases hout hgetBuilt with ⟨outBuilt, houtBuilt⟩
      have hannounced := announced_of_attributed htraces (hattr m outBuilt houtBuilt) he hgetBuilt
        hfirst
      by_cases hseen : inv.iterationSymbols.flatten = []
      · exact orderKept_of_empty hannounced hseen
      · rcases hout hget with ⟨out, hout⟩
        have hiff := attributed_iff_of_announced htraces (hattr n out hout) hget hseen he hn
          hfirst hannounced
        have hkept := fun s => (hiff s).1 (hattributed n inv out hget hout s)
        exact ⟨hannounced, fun s => (hkept s).2, fun s => (hkept s).1⟩
    · rw [houts] at herror
      cases herror

end CamAlias
