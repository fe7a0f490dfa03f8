import CamAlias.Analyser.StreamParseCallTrace
import CamAlias.RoundTrip.Entries

/-!
# CallAnalysis — the call trace cache of every invocation

A group of the call trace has one cache for all of its invocations.  It is built when the first
invocation of the group is visited in which anything is seen, from the loop trace of that
invocation, and every other invocation of the group is given it as it is.

* `Visited.visitInvocation`: one round of the loop over the invocations;
* `TracesDescribe.visitAll`: the whole loop.
-/

namespace CamAlias

open Lib

/-! ## What is read -/

/-- Nothing that is counted in an invocation comes to `2 ^ 64`. -/
structure Invocation.Small (inv : Invocation) : Prop where
  seen : inv.iterations.flatten.length < 2 ^ 64
  instances : ∀ id, ∀ symbols ∈ inv.calls id, symbols.length < 2 ^ 64
  seenInCalls : ∀ order : List (UInt64 × Nat), order.Nodup → CallOrder.Found inv.calls order →
    ∀ s, (order.map (CallTraceLoopInvocationGroup.seenInCall inv.calls s)).sum < 2 ^ 64

/-- The tables of the loop trace, the entries of the call trace and the call IDs of its first pass
describe the invocations. -/
structure TracesDescribe (invs : List Invocation) (groupOf : Nat → InvocationGroupCfc)
    (es : List CallTraceLoopInvocationGroup) (callList : List UInt64) : Prop where
  loop : ∀ (n : Nat) (inv : Invocation), invs[n]? = some inv → ∃ g : InvocationGroupCfc,
    groupOf n = g.precomputeDataStructures ∧ Describes 0 inv.iterations g.iterations ∧
      g.instructionInstanceLut = ∅
  calls : Groups CallTraceLoopInvocationGroup.Stands 0 (invs.map Invocation.calls) (callPieces.tag es)
  fresh : ∀ e ∈ es, e.Fresh
  sorted : callList.Pairwise (· < ·)
  listed : ∀ e ∈ es, ∀ id, e.HasCall id → id ∈ callList
  small : ∀ inv ∈ invs, inv.Small

/-- Of the invocations `ns`, the first one in which anything is seen. -/
structure FirstNonempty (invs : List Invocation) (ns : List Nat) (m : Nat) (inv : Invocation) :
    Prop where
  mem : m ∈ ns
  get : invs[m]? = some inv
  seen : inv.iterations.flatten ≠ []
  first : ∀ k ∈ ns, k < m → ∀ inv', invs[k]? = some inv' → inv'.iterations.flatten = []

section FirstNonempty

variable {invs : List Invocation} {ns : List Nat} {n m m' : Nat} {inv inv' : Invocation}

theorem FirstNonempty.unique (h : FirstNonempty invs ns m inv)
    (h' : FirstNonempty invs ns m' inv') : m = m' := by
  rcases Nat.lt_trichotomy m m' with hlt | heq | hlt
  · exact absurd (h'.first m h.mem hlt inv h.get) h.seen
  · exact heq
  · exact absurd (h.first m' h'.mem hlt inv' h'.get) h'.seen

theorem exists_firstNonempty (hn : n ∈ ns) (hget : invs[n]? = some inv)
    (hseen : inv.iterations.flatten ≠ []) :
    ∃ m inv', m ≤ n ∧ FirstNonempty invs ns m inv' := by
  induction n using Nat.strongRecOn generalizing inv with
  | ind n ih =>
      by_cases hfirst : ∀ k ∈ ns, k < n → ∀ inv', invs[k]? = some inv' → inv'.iterations.flatten = []
      · exact ⟨n, inv, Nat.le_refl n, hn, hget, hseen, hfirst⟩
      · -- something is seen in an earlier one
        push Not at hfirst
        rcases hfirst with ⟨k, hk, hlt, inv', hget', hseen'⟩
        rcases ih k hlt hk hget' hseen' with ⟨m, inv'', hle, hm⟩
        exact ⟨m, inv'', Nat.le_trans hle (Nat.le_of_lt hlt), hm⟩

end FirstNonempty

/-- The instances of the calls of the invocation `n`, in the order that the first invocation of its
group in which anything is seen has them. -/
def GroupOrder (invs : List Invocation) (es : List CallTraceLoopInvocationGroup) (n : Nat)
    (inv : Invocation) (order : List (UInt64 × Nat)) : Prop :=
  ∃ e ∈ es, n ∈ numbers e.repetitions ∧ ∃ m built,
    FirstNonempty invs (numbers e.repetitions) m built ∧ CallOrder built.iterations inv.calls order

/-! ## The state -/

/-- What has become of an entry, behind the invocations below `n`. -/
inductive GroupVisited (invs : List Invocation) (n : Nat) (e : CallTraceLoopInvocationGroup) :
    CallTraceLoopInvocationGroup → Prop
  | waiting (h : ∀ m inv, FirstNonempty invs (numbers e.repetitions) m inv → n ≤ m) :
      GroupVisited invs n e e.buildLuts
  | built {clig : CallTraceLoopInvocationGroup} {m : Nat} {inv : Invocation}
      {order : List (UInt64 × Nat)} (hlt : m < n)
      (hfirst : FirstNonempty invs (numbers e.repetitions) m inv)
      (horder : CallOrder inv.iterations inv.calls order) (hfound : CallOrder.Found inv.calls order)
      (hrepetitions : clig.repetitions = e.repetitions) (hcached : clig.Cached inv.calls order) :
      GroupVisited invs n e clig

/-- What the analysis has of the invocation `n`. -/
structure Attributed (invs : List Invocation) (groupOf : Nat → InvocationGroupCfc)
    (es : List CallTraceLoopInvocationGroup) (n : Nat) (out : InvocationCalls) : Prop where
  invGroup : out.invGroup = groupOf n
  empty : ∀ inv, invs[n]? = some inv → inv.iterations.flatten = [] → ∀ s, out.callInstances s = []
  cached : ∀ inv, invs[n]? = some inv → inv.iterations.flatten ≠ [] → ∃ order,
    GroupOrder invs es n inv order ∧ CallOrder.Found inv.calls order ∧
      ∀ s, out.callInstances s
        = cacheEntries (CallTraceLoopInvocationGroup.seenInCall inv.calls s) 0 order

/-- The invocations below `n` have been visited. -/
structure Visited (invs : List Invocation) (groupOf : Nat → InvocationGroupCfc)
    (es : List CallTraceLoopInvocationGroup) (n : Nat) (st : CallAnalysis) : Prop where
  lut : st.callTraces.lut = RepetitionPatternLookup.buildLut
    ((es.map CallTraceLoopInvocationGroup.buildLuts).zipIdx.map fun i => (i.1.repetitions, i.2))
  group : ∀ (i : Nat) (e : CallTraceLoopInvocationGroup), es[i]? = some e →
    ∃ clig, st.callTraces.invocations[i]? = some clig ∧ GroupVisited invs n e clig
  length : st.invocations.length = n
  attributed : ∀ (m : Nat) (out : InvocationCalls), st.invocations[m]? = some out →
    Attributed invs groupOf es m out

/-- The cache is built from an invocation whose loop trace has more instances of a call ID than the
call trace. -/
def NotFound (invs : List Invocation) (es : List CallTraceLoopInvocationGroup) : Prop :=
  ∃ e ∈ es, ∃ m inv order, FirstNonempty invs (numbers e.repetitions) m inv ∧
    CallOrder inv.iterations inv.calls order ∧ ¬ CallOrder.Found inv.calls order

section Visit

variable {invs : List Invocation} {groupOf : Nat → InvocationGroupCfc}
  {es : List CallTraceLoopInvocationGroup} {callList : List UInt64} {n : Nat} {st : CallAnalysis}

namespace GroupVisited

variable {e clig : CallTraceLoopInvocationGroup}

theorem repetitions (h : GroupVisited invs n e clig) : clig.repetitions = e.repetitions := by
  cases h with
  | waiting => rfl
  | built _ _ _ _ hrepetitions => exact hrepetitions

/-- The invocation `n` does not build the cache of the group. -/
theorem succ (h : GroupVisited invs n e clig)
    (hn : ∀ inv, ¬ FirstNonempty invs (numbers e.repetitions) n inv) :
    GroupVisited invs (n + 1) e clig := by
  cases h with
  | waiting h =>
      refine waiting fun m inv hm => ?_
      rcases Nat.lt_or_eq_of_le (h m inv hm) with hlt | rfl
      · exact hlt
      · exact absurd hm (hn inv)
  | built hlt hfirst horder hfound hrepetitions hcached =>
      exact built (Nat.lt_succ_of_lt hlt) hfirst horder hfound hrepetitions hcached

end GroupVisited

namespace TracesDescribe

/-- The table of the groups finds the group of each invocation. -/
theorem exists_lookup (h : TracesDescribe invs groupOf es callList) (hn : n < invs.length) :
    ∃ i e, es[i]? = some e ∧ n ∈ numbers e.repetitions ∧
      RepetitionPatternLookup.lookupData (RepetitionPatternLookup.buildLut
        ((es.map CallTraceLoopInvocationGroup.buildLuts).zipIdx.map fun i =>
          (i.1.repetitions, i.2))) n = .ok i := by
  let d := (es.map CallTraceLoopInvocationGroup.buildLuts).zipIdx.map fun i => (i.1.repetitions, i.2)
  have hmem : ∀ i ∈ d, ∃ e, es[i.2]? = some e ∧ i.1 = e.repetitions := by
    intro i hi
    rcases List.mem_map.1 hi with ⟨⟨clig, j⟩, hj, rfl⟩
    have hget := List.mem_zipIdx_iff_getElem?.1 hj
    simp only [List.getElem?_map] at hget
    rcases Option.map_eq_some_iff.1 hget with ⟨e, he, rfl⟩
    exact ⟨e, he, rfl⟩
  -- the patterns of the groups are proper, and have every invocation once
  have hproper : ∀ i ∈ d, ∀ r ∈ i.1, r.1 ≤ r.2 := by
    intro i hi r hr
    rcases hmem i hi with ⟨e, he, heq⟩
    have htag : (numbers e.repetitions, e) ∈ callPieces.tag es :=
      List.mem_map_of_mem (List.mem_of_getElem? he)
    rcases List.exists_mem_of_ne_nil _ (h.calls.nonempty _ htag) with ⟨k, hk⟩
    rcases h.calls.value _ htag k hk with ⟨calls, -, hstands⟩
    exact hstands.ascending.le (heq ▸ hr)
  have hnumbers : d.flatMap (fun i => numbers i.1) = (callPieces.tag es).flatMap Prod.fst := by
    have hfst : d.map Prod.fst = es.map CallTraceLoopInvocationGroup.repetitions := by
      rw [List.map_map]
      calc (es.map CallTraceLoopInvocationGroup.buildLuts).zipIdx.map
              (Prod.fst ∘ fun i => (i.1.repetitions, i.2))
          = ((es.map CallTraceLoopInvocationGroup.buildLuts).zipIdx.map Prod.fst).map
              CallTraceLoopInvocationGroup.repetitions := by rw [List.map_map]; rfl
        _ = es.map CallTraceLoopInvocationGroup.repetitions := by
            rw [List.zipIdx_map_fst, List.map_map]
            rfl
    calc d.flatMap (fun i => numbers i.1)
        = (d.map Prod.fst).flatMap numbers := (List.flatMap_map ..).symm
      _ = (callPieces.tag es).flatMap Prod.fst := by
          rw [hfst, PieceModel.tag, List.flatMap_map, List.flatMap_map]
          rfl
  have hperm : (d.flatMap fun i => numbers i.1).Perm (List.range' 0 (invs.length - 0)) := by
    rw [hnumbers, Nat.sub_zero]
    simpa using h.calls.perm
  rcases RepetitionPatternLookup.tiles_buildLut (Nat.zero_le _) hproper hperm with
    ⟨htiles, hentries⟩
  rcases htiles.lookupData_eq (Nat.zero_le n) hn with ⟨j, hlookup, hentry⟩
  rcases (hentries n j).1 hentry with ⟨i, hi, hk, rfl⟩
  rcases hmem i hi with ⟨e, he, heq⟩
  exact ⟨i.2, e, he, heq ▸ hk, hlookup⟩

/-- The entry of an invocation stands for its calls. -/
theorem stands (h : TracesDescribe invs groupOf es callList) {e : CallTraceLoopInvocationGroup}
    (he : e ∈ es) {inv : Invocation} (hn : n ∈ numbers e.repetitions) (hget : invs[n]? = some inv) :
    e.Stands inv.calls := by
  rcases h.calls.value (numbers e.repetitions, e) (List.mem_map_of_mem he) n hn with
    ⟨calls, hcalls, hstands⟩
  rw [Nat.sub_zero, List.getElem?_map, hget, Option.map_some] at hcalls
  rcases Option.some.inj hcalls with rfl
  exact hstands

/-- All invocations of a group make the same calls. -/
theorem calls_eq (h : TracesDescribe invs groupOf es callList) {e : CallTraceLoopInvocationGroup}
    (he : e ∈ es) {m : Nat} {inv inv' : Invocation} (hn : n ∈ numbers e.repetitions)
    (hget : invs[n]? = some inv) (hm : m ∈ numbers e.repetitions) (hget' : invs[m]? = some inv') :
    inv.calls = inv'.calls :=
  (h.stands he hn hget).unique (h.stands he hm hget')

/-- The group of an invocation is the only one that holds it. -/
theorem index_unique (h : TracesDescribe invs groupOf es callList) {i i' : Nat}
    {e e' : CallTraceLoopInvocationGroup} (he : es[i]? = some e) (he' : es[i']? = some e')
    (hn : n ∈ numbers e.repetitions) (hn' : n ∈ numbers e'.repetitions) : i = i' := by
  have htag : ∀ {i : Nat} {e : CallTraceLoopInvocationGroup}, es[i]? = some e →
      (callPieces.tag es)[i]? = some (numbers e.repetitions, e) := by
    intro i e he
    rw [PieceModel.tag, List.getElem?_map, he]
    rfl
  exact h.calls.index_unique (htag he) (htag he') hn hn'

end TracesDescribe

/-! ## The loop over the invocations -/

namespace CallTraceLoopInvocationGroup

theorem repetitions_buildCallTraceCache {clig clig' : CallTraceLoopInvocationGroup} {fuel : Nat}
    {invGroup : InvocationGroupCfc} {sub sub' : InstancesMap} {callInstrList : List UInt64}
    (h : clig.buildCallTraceCache fuel invGroup sub callInstrList = .ok (clig', sub')) :
    clig'.repetitions = clig.repetitions := by
  simp only [buildCallTraceCache, storeCallTraceCache] at h
  split at h
  · cases h
  · split at h
    · cases h
    · split at h
      · cases h
      · cases h
        rfl

end CallTraceLoopInvocationGroup

namespace Visited

variable {inv : Invocation}

/-- A group of the call trace has an invocation, so the call trace is not empty. -/
theorem not_empty (h : Visited invs groupOf es n st) {i k : Nat} {e : CallTraceLoopInvocationGroup}
    (he : es[i]? = some e) (hk : k ∈ numbers e.repetitions) : st.callTraces.empty = false := by
  rcases h.group i e he with ⟨clig, hclig, hvisited⟩
  have hne : clig.repetitions ≠ [] := by
    intro hnil
    rw [hvisited.repetitions] at hnil
    rw [hnil] at hk
    simp at hk
  have hempty : clig.isEmpty = false := by
    simp [CallTraceLoopInvocationGroup.isEmpty, hne]
  by_contra hall
  rw [Bool.not_eq_false, StreamParseCallTrace.empty, List.all_eq_true] at hall
  rw [hall clig (List.mem_of_getElem? hclig)] at hempty
  cases hempty

/-- The invocation `n` has been visited. -/
theorem succ (h : Visited invs groupOf es n st) {st' : CallAnalysis} {out : InvocationCalls}
    (hlut : st'.callTraces.lut = st.callTraces.lut)
    (hinvocations : st'.invocations = st.invocations ++ [out])
    (hgroup : ∀ (i : Nat) (e : CallTraceLoopInvocationGroup), es[i]? = some e →
      ∃ clig, st'.callTraces.invocations[i]? = some clig ∧ GroupVisited invs (n + 1) e clig)
    (hout : Attributed invs groupOf es n out) : Visited invs groupOf es (n + 1) st' := by
  refine ⟨hlut.trans h.lut, hgroup, ?_, ?_⟩
  · rw [hinvocations, List.length_append, h.length, List.length_singleton]
  · intro m out' hm
    rw [hinvocations, List.getElem?_append] at hm
    by_cases hlt : m < st.invocations.length
    · rw [if_pos hlt] at hm
      exact h.attributed m out' hm
    · rw [if_neg hlt, List.getElem?_singleton] at hm
      split at hm
      · rename_i hzero
        have hmn : m = n := by
          have := h.length
          omega
        rcases Option.some.inj hm with rfl
        exact hmn ▸ hout
      · cases hm

/-- One round of the loop. -/
theorem visitInvocation (htraces : TracesDescribe invs groupOf es callList)
    (h : Visited invs groupOf es n st) (hget : invs[n]? = some inv) {fuel : Nat}
    (hfuel : inv.iterations.flatten.length ≤ fuel) :
    (∃ st', CallAnalysis.visitInvocation fuel callList st n (groupOf n) = .ok st' ∧
      Visited invs groupOf es (n + 1) st') ∨
    (NotFound invs es ∧
      ∃ f, CallAnalysis.visitInvocation fuel callList st n (groupOf n) = .error f) := by
  rcases htraces.loop n inv hget with ⟨g, hg, hdescribes, hfresh⟩
  have hempty := isEmpty_iff_of_describes hdescribes
  rw [← hg] at hempty
  have hsame : ∀ {inv' : Invocation}, invs[n]? = some inv' → inv' = inv := fun hget' =>
    Option.some.inj (hget'.symm.trans hget)
  by_cases hseen : inv.iterations.flatten = []
  · -- nothing is looked up of an invocation in which nothing is seen
    have hvisit : CallAnalysis.visitInvocation fuel callList st n (groupOf n)
        = .ok { st with invocations := st.invocations ++ [⟨groupOf n, fun _ => []⟩] } := by
      rw [CallAnalysis.visitInvocation, if_pos (hempty.2 hseen)]
    refine Or.inl ⟨_, hvisit, h.succ rfl rfl ?_ ⟨rfl, fun _ _ _ _ => rfl, ?_⟩⟩
    · intro i e he
      rcases h.group i e he with ⟨clig, hclig, hvisited⟩
      exact ⟨clig, hclig, hvisited.succ fun inv' hfirst =>
        hfirst.seen (hsame hfirst.get ▸ hseen)⟩
    · intro inv' hget' hseen'
      exact absurd (hsame hget' ▸ hseen) hseen'
  · have hlt := (List.getElem?_eq_some_iff.1 hget).1
    rcases htraces.exists_lookup hlt with ⟨i, e, he, hn, hlookup⟩
    have hmem := List.mem_of_getElem? he
    rcases h.group i e he with ⟨clig, hclig, hvisited⟩
    have hvisit : CallAnalysis.visitInvocation fuel callList st n (groupOf n)
        = (CallAnalysis.buildCache fuel callList (groupOf n) clig st.subInstrRunningCount).map
            fun built =>
              { st with
                callTraces := st.callTraces.setGroup i built.1
                subInstrRunningCount := built.2
                invocations := st.invocations ++ [⟨groupOf n, built.1.callInstances⟩] } := by
      have hfound : st.callTraces.getInvocCallTraceFromInvocNumber n = .ok i := by
        rw [StreamParseCallTrace.getInvocCallTraceFromInvocNumber, h.lut, hlookup]
      rw [CallAnalysis.visitInvocation, if_neg (fun hyes => hseen (hempty.1 hyes)),
        if_neg (by simp [h.not_empty he hn]), hfound]
      simp only [hclig]
    -- the other groups do not hold the invocation
    have hothers : ∀ (i' : Nat) (e' : CallTraceLoopInvocationGroup) (clig' : _), i' ≠ i →
        es[i']? = some e' → ∃ clig₁, (st.callTraces.setGroup i clig').invocations[i']? = some clig₁ ∧
          GroupVisited invs (n + 1) e' clig₁ := by
      intro i' e' clig' hne he'
      rcases h.group i' e' he' with ⟨clig₁, hclig₁, hvisited₁⟩
      refine ⟨clig₁, ?_, hvisited₁.succ fun inv' hfirst => ?_⟩
      · rw [StreamParseCallTrace.setGroup, List.getElem?_set_ne (Ne.symm hne), hclig₁]
      · exact hne (htraces.index_unique he' he hfirst.mem hn)
    have hself : ∀ clig', (st.callTraces.setGroup i clig').invocations[i]? = some clig' := by
      intro clig'
      rw [StreamParseCallTrace.setGroup, List.getElem?_set_self (List.getElem?_eq_some_iff.1 hclig).1]
    cases hvisited with
    | built hm hfirst horder hfound hrepetitions hcached =>
        rename_i m built order
        have hcalls := htraces.calls_eq hmem hn hget hfirst.mem hfirst.get
        have hbuild : CallAnalysis.buildCache fuel callList (groupOf n) clig st.subInstrRunningCount
            = .ok (clig, st.subInstrRunningCount) := by
          rw [CallAnalysis.buildCache, if_pos hcached.built]
        rw [hbuild] at hvisit
        refine Or.inl ⟨_, hvisit, h.succ rfl rfl ?_ ⟨rfl, ?_, ?_⟩⟩
        · intro i' e' he'
          by_cases hi : i' = i
          · subst hi
            rcases Option.some.inj (he'.symm.trans he) with rfl
            exact ⟨clig, hself clig, GroupVisited.built (Nat.lt_succ_of_lt hm) hfirst horder hfound
              hrepetitions hcached⟩
          · exact hothers i' e' clig hi he'
        · intro inv' hget' hseen'
          exact absurd (hsame hget' ▸ hseen') hseen
        · intro inv' hget' _
          rcases hsame hget' with rfl
          rw [hcalls]
          exact ⟨order, ⟨e, hmem, hn, m, built, hfirst, hcalls ▸ horder⟩, hfound,
            hcached.callInstances⟩
    | waiting hwaiting =>
        have hfirst : FirstNonempty invs (numbers e.repetitions) n inv := by
          rcases exists_firstNonempty hn hget hseen with ⟨m, inv', hle, hm⟩
          rcases Nat.le_antisymm hle (hwaiting m inv' hm) with rfl
          exact hsame hm.get ▸ hm
        have hstands := htraces.stands hmem hn hget
        have hsmall := htraces.small inv (List.mem_of_getElem? hget)
        have htable := instanceTable_of_describes hdescribes hfresh hsmall.seen
        rw [← hg] at htable
        have hlisted : ∀ id, inv.calls id ≠ [] → id ∈ callList := fun id hid =>
          htraces.listed e hmem id (CallTraceLoopInvocationGroup.hasCall_of_instancesOf
            ((hstands.instances id).ne_nil_iff.2 hid))
        have hbuild : CallAnalysis.buildCache fuel callList (groupOf n) e.buildLuts
              st.subInstrRunningCount
            = e.buildLuts.buildCallTraceCache fuel (groupOf n) st.subInstrRunningCount callList := by
          have hnotBuilt : e.buildLuts.callTraceCacheBuilt = false := (htraces.fresh e hmem).notBuilt
          rw [CallAnalysis.buildCache, if_neg (by simp [hnotBuilt])]
        rcases CallTraceLoopInvocationGroup.buildCallTraceCache_cases htable hstands.instances
          hsmall.instances
          (fun order horder hfound => hsmall.seenInCalls order (nodup_of_before horder.sorted) hfound)
          (htraces.fresh e hmem).empty htraces.sorted hlisted hfuel st.subInstrRunningCount with
          ⟨order, horder, ⟨hfound, clig', sub', hok, hcached⟩ | ⟨hnotFound, f, herror⟩⟩
        · rw [hbuild, hok] at hvisit
          refine Or.inl ⟨_, hvisit, h.succ rfl rfl ?_ ⟨rfl, ?_, ?_⟩⟩
          · intro i' e' he'
            by_cases hi : i' = i
            · subst hi
              rcases Option.some.inj (he'.symm.trans he) with rfl
              have hrepetitions :=
                CallTraceLoopInvocationGroup.repetitions_buildCallTraceCache hok
              exact ⟨clig', hself clig', GroupVisited.built (Nat.lt_succ_self n) hfirst horder hfound
                hrepetitions hcached⟩
            · exact hothers i' e' clig' hi he'
          · intro inv' hget' hseen'
            exact absurd (hsame hget' ▸ hseen') hseen
          · intro inv' hget' _
            rcases hsame hget' with rfl
            exact ⟨order, ⟨e, hmem, hn, n, inv', hfirst, horder⟩, hfound, hcached.callInstances⟩
        · rw [hbuild, herror] at hvisit
          exact Or.inr ⟨⟨e, hmem, n, inv, order, hfirst, horder, hnotFound⟩, f, hvisit⟩

/-- Behind the last invocation every cache has been built that is built at all. -/
theorem not_notFound (h : Visited invs groupOf es invs.length st) : ¬ NotFound invs es := by
  rintro ⟨e, he, m, inv, order, hfirst, horder, hnotFound⟩
  have hlt := (List.getElem?_eq_some_iff.1 hfirst.get).1
  rcases List.mem_iff_getElem?.1 he with ⟨i, hi⟩
  rcases h.group i e hi with ⟨clig, -, hvisited⟩
  cases hvisited with
  | waiting hwaiting => exact absurd hlt (Nat.not_lt.2 (hwaiting m inv hfirst))
  | built _ hfirst' horder' hfound _ _ =>
      rcases hfirst.unique hfirst' with rfl
      rcases Option.some.inj (hfirst.get.symm.trans hfirst'.get) with rfl
      exact hnotFound (horder'.eq horder ▸ hfound)

end Visited

/-- The state in front of the loop. -/
theorem Visited.start (subInstrList : Finset UInt64) {callTraces : StreamParseCallTrace}
    (hes : callTraces.invocations = es) :
    Visited invs groupOf es 0 (CallAnalysis.start callTraces subInstrList) := by
  subst hes
  refine ⟨rfl, ?_, rfl, by simp [CallAnalysis.start]⟩
  intro i e he
  refine ⟨e.buildLuts, ?_, GroupVisited.waiting fun _ _ _ => Nat.zero_le _⟩
  simp [CallAnalysis.start, StreamParseCallTrace.buildLuts, he]

/-- The loop from some invocation on. -/
theorem TracesDescribe.visitFrom (h : TracesDescribe invs groupOf es callList) {fuel : Nat}
    (hfuel : ∀ inv ∈ invs, inv.iterations.flatten.length ≤ fuel) :
    ∀ (m n : Nat) (st : CallAnalysis), n + m = invs.length → Visited invs groupOf es n st →
      (∃ st', StreamParseLoopRec.visitAll (CallAnalysis.visitInvocation fuel callList) st
          ((List.range' n m).map fun k => (k, groupOf k)) = .ok st' ∧
        Visited invs groupOf es invs.length st') ∨
      (NotFound invs es ∧ ∃ f,
        StreamParseLoopRec.visitAll (CallAnalysis.visitInvocation fuel callList) st
          ((List.range' n m).map fun k => (k, groupOf k)) = .error f) := by
  intro m
  induction m with
  | zero =>
      intro n st hn hvisited
      rw [Nat.add_zero] at hn
      exact Or.inl ⟨st, rfl, hn ▸ hvisited⟩
  | succ m ih =>
      intro n st hn hvisited
      have hlt : n < invs.length := by omega
      have hget : invs[n]? = some invs[n] := List.getElem?_eq_getElem hlt
      rw [List.range'_succ, List.map_cons]
      simp only [StreamParseLoopRec.visitAll]
      rcases hvisited.visitInvocation h hget (hfuel _ (List.getElem_mem hlt)) with
        ⟨st', hvisit, hvisited'⟩ | ⟨hnotFound, f, herror⟩
      · rw [hvisit]
        exact ih (n + 1) st' (by omega) hvisited'
      · rw [herror]
        exact Or.inr ⟨hnotFound, f, rfl⟩

end Visit

/-! ## The files -/

/-- What the passes over the two files read: the invocations `done`. -/
structure TracesRead (loopTrace callTrace : List BzRead) (done : List Invocation)
    (groupOf : Nat → InvocationGroupCfc) (es : List CallTraceLoopInvocationGroup)
    (callList subInstrList : Finset UInt64) : Prop where
  describe : TracesDescribe done groupOf es (callList.sort (· ≤ ·))
  lists : CallTraceStreamer.parseForInstructionLists callTrace = .ok (callList, subInstrList)
  mem_subInstrList : ∀ s, s ∈ subInstrList ↔ ∃ inv ∈ done, ∃ id, s ∈ (inv.calls id).flatten
  entries : ∀ fuel, done.length < fuel →
    CallTraceStreamer.entryStream.readEntries fuel (CallTraceStreamer.ofFile callTrace) = .ok es
  loop : ∀ {β : Type} (body : β → Nat → InvocationGroupCfc → Except Fault β) (b : β) (fuel : Nat),
    done.length ≤ fuel →
    StreamParseLoopRec.forInvocations body fuel (StreamParseLoopRec.ofFile loopTrace) b
      = StreamParseLoopRec.visitAll body b
          ((List.range' 0 done.length).map fun n => (n, groupOf n))
  instrList : 0 < done.length → done.length < 2 ^ 64 → ∃ instrList,
    LoopTraceStreamer.parseForInstructionList loopTrace = .ok (instrList, done.length) ∧
    ∀ s, s ∈ instrList ↔ ∃ inv ∈ done, s ∈ inv.iterations.flatten

/-- In whatever reads the files come, the same is read. -/
theorem exists_tracesRead {loopFile callFile : List Char} {done : List Invocation}
    (hloop : LoopFileFollows loopFile done none) (hcall : CallFileFollows callFile done none)
    (hsmall : ∀ inv ∈ done, inv.Small) :
    ∃ groupOf es, ∀ loopTrace callTrace, Delivered loopFile loopTrace →
      Delivered callFile callTrace → ∃ callList subInstrList,
        TracesRead loopTrace callTrace done groupOf es callList subInstrList := by
  rcases hloop.exists_freshEntries with ⟨ls, hgroupsLoop, hseen, hfreshLoop, hreadLoop⟩
  rcases hcall.exists_freshEntries with ⟨es, hgroupsCall, hfreshCall, hreadCall⟩
  refine ⟨StreamParseLoopRec.groupOf ls, es, fun loopTrace callTrace hloopTrace hcallTrace => ?_⟩
  rcases hreadLoop loopTrace hloopTrace with ⟨hservesLoop, hinstrs⟩
  rcases hreadCall callTrace hcallTrace with
    ⟨hservesCall, callList, subInstrList, hparse, hlisted, hnames⟩
  refine ⟨callList, subInstrList, ?_, hparse, ?_, ?_, ?_, ?_⟩
  · -- the analysis walks the list of call IDs in the order of the set
    have hsorted : (callList.sort (· ≤ ·)).Pairwise (· < ·) := by
      refine ((callList.pairwise_sort (· ≤ ·)).and (callList.sort_nodup (· ≤ ·))).imp ?_
      intro id id' h
      exact UInt64.lt_of_le_of_ne h.1 h.2
    refine ⟨?_, hgroupsCall, hfreshCall, hsorted, ?_, hsmall⟩
    · intro n inv hget
      have hn : (done.map Invocation.iterations)[n]? = some inv.iterations := by
        rw [List.getElem?_map, hget, Option.map_some]
      rcases StreamParseLoopRec.exists_entryOf hgroupsLoop hn with ⟨lte, hlte, hgroup, hdescribes⟩
      exact ⟨lte.invocation, hgroup, hdescribes, hfreshLoop lte hlte⟩
    · intro e he id hid
      exact (Finset.mem_sort _).2 (hlisted e he id hid)
  · intro s
    have hiff := hgroupsCall.exists_iff (P := fun e => e.Names s)
      (Q := fun calls => ∃ id, s ∈ (calls id).flatten) fun e calls hstands =>
        exists_congr fun id => (hstands.instances id).mem_symbolsOf
    rw [hnames s]
    simpa [PieceModel.tag, callPieces] using hiff
  · intro fuel hfuel
    have hes : es.length ≤ done.length := by
      have hle := hgroupsCall.length_le
      simpa [PieceModel.tag] using hle
    exact hservesCall.readEntries_eq (Nat.lt_of_le_of_lt hes hfuel)
  · intro β body b fuel hfuel
    have hvisits := StreamParseLoopRec.forInvocations_eq body hservesLoop hgroupsLoop hseen
      (by simpa using hfuel) b
    rwa [List.length_map, List.range_eq_range'] at hvisits
  · intro hpos hlt
    rcases hinstrs hpos hlt with ⟨instrList, hparse, hnames⟩
    refine ⟨instrList, hparse, fun s => ?_⟩
    have hiff := hgroupsLoop.exists_iff (P := fun e => e.Names s)
      (Q := fun its => s ∈ its.flatten) fun e its hstands => hstands.iterations.mem_symbolsOf
    rw [hnames s]
    simpa [PieceModel.tag, loopPieces] using hiff

/-- Both files are read: every invocation has the cache of its group, or some instance of a call is
not found. -/
theorem TracesRead.readCallTrace_cases {loopTrace callTrace : List BzRead} {done : List Invocation}
    {groupOf : Nat → InvocationGroupCfc} {es : List CallTraceLoopInvocationGroup}
    {callList subInstrList : Finset UInt64}
    (hread : TracesRead loopTrace callTrace done groupOf es callList subInstrList) {fuel : Nat}
    (hlong : done.length < fuel) (hfuel : ∀ inv ∈ done, inv.iterations.flatten.length ≤ fuel) :
    CallTraceStreamer.entryStream.readEntries fuel (CallTraceStreamer.ofFile callTrace) = .ok es ∧
      ((∃ outs, readCallTrace fuel loopTrace callTrace = .ok outs ∧ outs.length = done.length ∧
          (∀ (n : Nat) (out : InvocationCalls), outs[n]? = some out →
            Attributed done groupOf es n out) ∧ ¬ NotFound done es) ∨
        (NotFound done es ∧ ∃ f, readCallTrace fuel loopTrace callTrace = .error f)) := by
  refine ⟨hread.entries fuel hlong, ?_⟩
  have hcallTraces : StreamParseCallTrace.parseCallTrace fuel callTrace
      = .ok (es.foldl StreamParseCallTrace.addNewInvocationGroup StreamParseCallTrace.new) := by
    rw [StreamParseCallTrace.parseCallTrace, hread.entries fuel hlong]
    rfl
  have hstart : Visited done groupOf es 0 (CallAnalysis.start
      (es.foldl StreamParseCallTrace.addNewInvocationGroup StreamParseCallTrace.new)
      subInstrList) :=
    Visited.start subInstrList (StreamParseCallTrace.invocations_foldl_add es _)
  have hvisits := hread.loop (CallAnalysis.visitInvocation fuel (callList.sort (· ≤ ·)))
    (CallAnalysis.start (es.foldl StreamParseCallTrace.addNewInvocationGroup
      StreamParseCallTrace.new) subInstrList) fuel (Nat.le_of_lt hlong)
  have hreadCallTrace : ∀ result, StreamParseLoopRec.visitAll
        (CallAnalysis.visitInvocation fuel (callList.sort (· ≤ ·)))
        (CallAnalysis.start
          (es.foldl StreamParseCallTrace.addNewInvocationGroup StreamParseCallTrace.new)
          subInstrList)
        ((List.range' 0 done.length).map fun k => (k, groupOf k)) = result →
      readCallTrace fuel loopTrace callTrace = result.map CallAnalysis.invocations := by
    rintro result rfl
    simp only [readCallTrace, hread.lists, hcallTraces, hvisits]
  rcases hread.describe.visitFrom hfuel done.length 0 _ (Nat.zero_add _) hstart with
    ⟨st, hok, hvisited⟩ | ⟨hnotFound, f, herror⟩
  · exact Or.inl ⟨st.invocations, hreadCallTrace _ hok, hvisited.length, hvisited.attributed,
      hvisited.not_notFound⟩
  · exact Or.inr ⟨hnotFound, f, hreadCallTrace _ herror⟩

end CamAlias
