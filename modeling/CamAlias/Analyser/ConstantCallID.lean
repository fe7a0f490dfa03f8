import CamAlias.Analyser.StreamParseCallTrace

/-!
# ConstantCallID — which sub-instructions have one call ID

Beside its cache a group of the call trace keeps, for every instruction that has entries in the cache,
whether all of them name the same call ID.  The flags are set for the keys of `subInstrRunningCount`,
and the instructions of the cache are among them because their counts have just been added.

* `constantCallIDs_build`: the flags of one cache;
* `CallAnalysis.FlagsRight.visitInvocation`: the flags of all groups, kept by the loop.
-/

namespace CamAlias

open Lib

/-- Every list of the cache has an entry, and a count. -/
def CacheCounted (st : CallTraceCache × InstancesMap) : Prop :=
  ∀ s entries, st.1[s]? = some entries → entries ≠ [] ∧ s ∈ st.2

theorem CacheCounted.addToCallTraceCache {st : CallTraceCache × InstancesMap} (h : CacheCounted st)
    (callId : UInt64) (callInstance : Nat) (callInvoc : CallTraceInstanceGroup) :
    CacheCounted (addToCallTraceCache callId callInstance callInvoc st) := by
  intro s entries hentries
  have hadd := getElem?_addToCallTraceCache callId callInstance callInvoc st s
  cases hcount : callInvoc.numInstancesLut[s]? with
  | none =>
      rw [hcount, Option.elim_none, Prod.mk.injEq] at hadd
      rcases h s entries (hadd.1.symm.trans hentries) with ⟨hne, hs⟩
      refine ⟨hne, ?_⟩
      rwa [Std.TreeMap.mem_iff_isSome_getElem?, hadd.2, ← Std.TreeMap.mem_iff_isSome_getElem?]
  | some n =>
      rw [hcount, Option.elim_some, Prod.mk.injEq] at hadd
      refine ⟨?_, ?_⟩
      · rcases Option.some.inj (hadd.1.symm.trans hentries) with rfl
        simp
      · rw [Std.TreeMap.mem_iff_isSome_getElem?, hadd.2]
        rfl

/-- The flags behind the loop over `instrs`. -/
theorem getElem?_buildConstantCallIDCache {callTraceCache : CallTraceCache} {s : UInt64}
    {front : CallTraceInstructionCacheEntry} {entries : List CallTraceInstructionCacheEntry}
    (hs : callTraceCache[s]? = some (front :: entries)) (instrs : List UInt64) :
    ∀ {constants constants' : Std.TreeMap UInt64 Bool},
      buildConstantCallIDCache callTraceCache instrs constants = .ok constants' →
      s ∈ instrs ∨ constants[s]? = some ((front :: entries).all fun c => c.callID == front.callID) →
      constants'[s]? = some ((front :: entries).all fun c => c.callID == front.callID) := by
  induction instrs with
  | nil =>
      intro constants constants' h hset
      rcases Except.ok.inj h with rfl
      exact hset.resolve_left List.not_mem_nil
  | cons instr instrs ih =>
      intro constants constants' h hset
      simp only [buildConstantCallIDCache] at h
      split at h
      · -- the instruction is not in the cache
        rename_i hnone
        refine ih h (hset.imp_left fun hmem => ?_)
        rcases List.mem_cons.1 hmem with rfl | hmem
        · rw [hnone] at hs
          cases hs
        · exact hmem
      · cases h
      · rename_i front' entries' hsome
        refine ih h ?_
        by_cases heq : s = instr
        · subst heq
          rcases List.cons.inj (Option.some.inj (hs.symm.trans hsome)) with ⟨rfl, rfl⟩
          exact Or.inr Std.TreeMap.getElem?_insert_self
        · refine hset.imp (fun hmem => (List.mem_cons.1 hmem).resolve_left heq) fun hconstant => ?_
          rw [Std.TreeMap.getElem?_insert, if_neg, hconstant]
          simpa using fun h => heq h.symm

namespace CallTraceLoopInvocationGroup

/-- Every instruction that has entries has a flag, and the flag says whether they name one ID. -/
def ConstantCallIDs (clig : CallTraceLoopInvocationGroup) : Prop :=
  ∀ s, clig.callInstances s ≠ [] → clig.isConstantCallID s
    = .ok ((clig.callInstances s).all fun c =>
        (clig.callInstances s).all fun c' => c.callID == c'.callID)

theorem all_eq_front (front : CallTraceInstructionCacheEntry)
    (entries : List CallTraceInstructionCacheEntry) :
    ((front :: entries).all fun c => c.callID == front.callID)
      = (front :: entries).all fun c => (front :: entries).all fun c' => c.callID == c'.callID := by
  rw [Bool.eq_iff_iff]
  simp only [List.all_eq_true, beq_iff_eq]
  exact ⟨fun h c hc c' hc' => (h c hc).trans (h c' hc').symm,
    fun h c hc => h c hc front List.mem_cons_self⟩

theorem cacheCounted_stepThrough (clig : CallTraceLoopInvocationGroup)
    (invGroup : InvocationGroupCfc) (fuel : Nat) :
    ∀ {currInsts : List CurrInst} {st st' : CallTraceCache × InstancesMap},
      CacheCounted st → clig.stepThrough invGroup fuel currInsts st = .ok st' → CacheCounted st' := by
  induction fuel with
  | zero =>
      intro currInsts st st' h hstep
      unfold stepThrough at hstep
      split at hstep
      · rcases Except.ok.inj hstep with rfl
        exact h
      · cases hstep
  | succ fuel ih =>
      intro currInsts st st' h hstep
      unfold stepThrough at hstep
      split at hstep
      · rcases Except.ok.inj hstep with rfl
        exact h
      · dsimp only at hstep
        split at hstep
        · cases hstep
        · split at hstep
          · cases hstep
          · exact ih (h.addToCallTraceCache _ _ _) hstep

/-- The counts of the cache are added to the running counts. -/
theorem mem_addCounts (counts : InstancesMap) {s : UInt64} (hs : s ∈ counts) (sub : InstancesMap) :
    s ∈ counts.foldl (fun sub instr n => sub.insert instr ((sub[instr]?.getD 0 + n) % 2 ^ 64))
      sub := by
  have hget := Std.TreeMap.isSome_getElem?_iff_mem.2 hs
  rcases Option.isSome_iff_exists.1 hget with ⟨n, hn⟩
  have hfold := foldl_proj
    (fun (sub : InstancesMap) instr n => sub.insert instr ((sub[instr]?.getD 0 + n) % 2 ^ 64))
    (fun sub => sub[s]?) (fun count n => some ((count.getD 0 + n) % 2 ^ 64)) s
    (fun sub n => Std.TreeMap.getElem?_insert_self)
    (fun sub k n hne => by
      rw [Std.TreeMap.getElem?_insert, if_neg]
      simpa using hne) counts sub
  rw [hn, Option.elim_some] at hfold
  rw [Std.TreeMap.mem_iff_isSome_getElem?, hfold]
  rfl

/-- The flags of a cache that has just been built. -/
theorem constantCallIDs_build {clig clig' : CallTraceLoopInvocationGroup} {fuel : Nat}
    {invGroup : InvocationGroupCfc} {sub sub' : InstancesMap} {callInstrList : List UInt64}
    (hempty : clig.callTraceCache = ∅)
    (h : clig.buildCallTraceCache fuel invGroup sub callInstrList = .ok (clig', sub')) :
    clig'.ConstantCallIDs ∧ clig'.callTraceCacheBuilt = true := by
  simp only [buildCallTraceCache] at h
  split at h
  · cases h
  · split at h
    · cases h
    · rename_i st hstep
      have hcounted : CacheCounted st := by
        refine clig.cacheCounted_stepThrough invGroup fuel ?_ hstep
        intro s entries hentries
        rw [hempty] at hentries
        simp at hentries
      simp only [storeCallTraceCache] at h
      split at h
      · cases h
      · rename_i constants hconstants
        rcases Prod.mk.inj (Except.ok.inj h) with ⟨rfl, rfl⟩
        refine ⟨fun s hs => ?_, rfl⟩
        simp only [callInstances] at hs
        have hsome : st.1[s]? ≠ none := fun hnone => hs (by rw [hnone]; rfl)
        rcases Option.ne_none_iff_exists'.1 hsome with ⟨entries, hentries⟩
        rcases hcounted s entries hentries with ⟨hne, hcount⟩
        rcases List.exists_cons_of_ne_nil hne with ⟨front, rest, rfl⟩
        have hflag := getElem?_buildConstantCallIDCache hentries _ hconstants
          (Or.inl (Std.TreeMap.mem_keys.2 (mem_addCounts st.2 hcount sub)))
        simp only [isConstantCallID, callInstances, hflag, hentries, all_eq_front, Option.getD_some]

end CallTraceLoopInvocationGroup

/-! ## The groups of the analysis -/

/-- A cache that has been built has its flags; before that it is empty. -/
def CallTraceLoopInvocationGroup.FlagsRight (clig : CallTraceLoopInvocationGroup) : Prop :=
  (clig.callTraceCacheBuilt = false → clig.callTraceCache = ∅) ∧
    (clig.callTraceCacheBuilt = true → clig.ConstantCallIDs)

theorem exists_of_map_eq_ok {ε α β : Type _} {f : α → β} {x : Except ε α} {b : β}
    (h : x.map f = .ok b) : ∃ a, x = .ok a ∧ f a = b := by
  cases x with
  | error e => cases h
  | ok a => exact ⟨a, rfl, Except.ok.inj h⟩

namespace CallAnalysis

/-- All groups have their flags. -/
structure FlagsRight (st : CallAnalysis) : Prop where
  groups : ∀ clig ∈ st.callTraces.invocations, clig.FlagsRight
  emptyCallTrace : st.emptyCallTrace.FlagsRight

theorem flagsRight_buildCache {fuel : Nat} {callList : List UInt64} {invGroup : InvocationGroupCfc}
    {clig clig' : CallTraceLoopInvocationGroup} {sub sub' : InstancesMap} (hclig : clig.FlagsRight)
    (h : buildCache fuel callList invGroup clig sub = .ok (clig', sub')) : clig'.FlagsRight := by
  rw [buildCache] at h
  split at h
  · rcases Prod.mk.inj (Except.ok.inj h) with ⟨rfl, rfl⟩
    exact hclig
  · rename_i hbuilt
    rcases CallTraceLoopInvocationGroup.constantCallIDs_build
      (hclig.1 (by simpa using hbuilt)) h with ⟨hflags, hbuilt'⟩
    exact ⟨fun hnot => absurd hbuilt' (by simp [hnot]), fun _ => hflags⟩

/-- One round of the loop over the invocations. -/
theorem FlagsRight.visitInvocation {st st' : CallAnalysis} (h : st.FlagsRight) {fuel n : Nat}
    {callList : List UInt64} {invGroup : InvocationGroupCfc}
    (hvisit : CallAnalysis.visitInvocation fuel callList st n invGroup = .ok st') :
    st'.FlagsRight := by
  rw [CallAnalysis.visitInvocation] at hvisit
  split at hvisit
  · rcases Except.ok.inj hvisit with rfl
    exact ⟨h.groups, h.emptyCallTrace⟩
  · split at hvisit
    · rcases exists_of_map_eq_ok hvisit with ⟨built, hbuild, rfl⟩
      exact ⟨h.groups, flagsRight_buildCache h.emptyCallTrace hbuild⟩
    · split at hvisit
      · cases hvisit
      · split at hvisit
        · cases hvisit
        · rename_i clig hclig
          rcases exists_of_map_eq_ok hvisit with ⟨built, hbuild, rfl⟩
          refine ⟨fun clig' hmem => ?_, h.emptyCallTrace⟩
          rcases List.mem_or_eq_of_mem_set hmem with hmem | rfl
          · exact h.groups clig' hmem
          · exact flagsRight_buildCache (h.groups clig (List.mem_of_getElem? hclig)) hbuild

theorem flagsRight_start {callTraces : StreamParseCallTrace} (subInstrList : Finset UInt64)
    (hfresh : ∀ clig ∈ callTraces.invocations,
      clig.callTraceCache = ∅ ∧ clig.callTraceCacheBuilt = false) :
    (CallAnalysis.start callTraces subInstrList).FlagsRight := by
  have hright : ∀ clig : CallTraceLoopInvocationGroup, clig.callTraceCache = ∅ →
      clig.callTraceCacheBuilt = false → clig.FlagsRight := by
    intro clig hempty hbuilt
    exact ⟨fun _ => hempty, fun hyes => absurd hyes (by simp [hbuilt])⟩
  refine ⟨fun clig hmem => ?_, hright _ rfl rfl⟩
  rcases List.mem_map.1 hmem with ⟨clig, hclig, rfl⟩
  exact hright _ (hfresh clig hclig).1 (hfresh clig hclig).2

end CallAnalysis
end CamAlias
