import CamAlias.Analyser.MergeGroups

/-!
# CallTrace — the call trace as the analyser holds it

`CallTraceCall` and `CallTraceLoopInvocationGroup` of `CallTrace.cpp`: filling them from the lexer
and merging the pieces of an invocation.  The instances of a call are grouped like the iterations
of an invocation, and merged like them.
-/

namespace CamAlias

open Lib

/-- `CallTraceInstanceGroup::buildNumberOfInstancesLut`, which keeps the control flow. -/
def CallTraceInstanceGroup.buildNumberOfInstancesLut (g : CallTraceInstanceGroup) :
    CallTraceInstanceGroup :=
  { g with numInstancesLut := CompressionPattern.sumInstances g.controlFlow }

/-- `CallTraceCall`. -/
structure CallTraceCall where
  callInstances : List CallTraceInstanceGroup
  lut : RepetitionPatternLookup CallTraceInstanceGroup

namespace CallTraceCall

/-- What `map::operator[]` inserts. -/
def new : CallTraceCall where
  callInstances := []
  lut := []

/-- A change of `callInstances.back()`. -/
def modifyBack (call : CallTraceCall) (f : CallTraceInstanceGroup → CallTraceInstanceGroup) :
    Except Fault CallTraceCall :=
  match call.callInstances.getLast? with
  | none => .error .outOfRange
  | some back => .ok { call with callInstances := call.callInstances.dropLast ++ [f back] }

/-- `CallTraceCall::addCallInstance`. -/
def addCallInstance (call : CallTraceCall) : CallTraceCall :=
  { call with callInstances := call.callInstances ++ [CfcGroup.new] }

/-- `CallTraceCall::addCallPattern`. -/
def addCallPattern (call : CallTraceCall) (start «end» : Nat) : Except Fault CallTraceCall :=
  call.modifyBack fun back => back.addPattern start «end»

/-- `CallTraceCall::addCallCfc`. -/
def addCallCfc (call : CallTraceCall) (cp : CompressionPattern) : Except Fault CallTraceCall :=
  call.modifyBack fun back => back.addIntoControlFlow cp

/-- `CallTraceCall::empty`. -/
def empty (call : CallTraceCall) : Bool :=
  call.callInstances.isEmpty

/-- `CallTraceCall::addCallTraceCall`: the call and the other one afterwards.  Nothing is compared
if one of them has no instance. -/
def addCallTraceCall (call c : CallTraceCall) : Except Fault (CallTraceCall × CallTraceCall) :=
  if call.callInstances.isEmpty || c.callInstances.isEmpty then
    .ok ({ call with callInstances := call.callInstances ++ c.callInstances }, c)
  else
    match mergeGroups call.callInstances c.callInstances with
    | .ok (callInstances, left) =>
        .ok ({ call with callInstances }, { c with callInstances := left })
    | .error e => .error e

/-- `CallTraceCall::buildLut`. -/
def buildLut (call : CallTraceCall) : CallTraceCall :=
  let callInstances := call.callInstances.map CallTraceInstanceGroup.buildNumberOfInstancesLut
  { callInstances
    lut := RepetitionPatternLookup.buildLut (callInstances.map fun i => (i.repetitions, i)) }

end CallTraceCall

/-- `map<uintptr_t, CallTraceCall>`. -/
abbrev CallMap := Std.ExtTreeMap UInt64 CallTraceCall

/-- `CallTraceInstructionCacheEntry`. -/
structure CallTraceInstructionCacheEntry where
  start : Nat
  «end» : Nat
  callID : UInt64
  callInstance : Nat
  deriving DecidableEq

/-- `CallTraceLoopInvocationGroup`. -/
structure CallTraceLoopInvocationGroup where
  repetitions : RepetitionPattern
  calls : CallMap
  callTraceCache : Std.TreeMap UInt64 (List CallTraceInstructionCacheEntry)
  constantCallIDCache : Std.TreeMap UInt64 Bool
  callTraceCacheBuilt : Bool

namespace CallTraceLoopInvocationGroup

/-- `CallTraceLoopInvocationGroup::CallTraceLoopInvocationGroup`. -/
def new : CallTraceLoopInvocationGroup where
  repetitions := []
  calls := ∅
  callTraceCache := ∅
  constantCallIDCache := ∅
  callTraceCacheBuilt := false

/-- `calls[callID]`. -/
def call (clig : CallTraceLoopInvocationGroup) (callID : UInt64) : CallTraceCall :=
  clig.calls[callID]?.getD CallTraceCall.new

/-- A change of `calls[callID]`. -/
def setCall (clig : CallTraceLoopInvocationGroup) (callID : UInt64) (c : CallTraceCall) :
    CallTraceLoopInvocationGroup :=
  { clig with calls := clig.calls.insert callID c }

/-! ## Filling -/

/-- `CallTraceLoopInvocationGroup::addInvocationPattern`. -/
def addInvocationPattern (clig : CallTraceLoopInvocationGroup) (start «end» : Nat) :
    CallTraceLoopInvocationGroup :=
  { clig with repetitions := clig.repetitions.addPair start «end» }

/-- `CallTraceLoopInvocationGroup::addCallInstance`. -/
def addCallInstance (clig : CallTraceLoopInvocationGroup) (callID : UInt64) :
    CallTraceLoopInvocationGroup :=
  clig.setCall callID (clig.call callID).addCallInstance

/-- `CallTraceLoopInvocationGroup::addCallPattern`. -/
def addCallPattern (clig : CallTraceLoopInvocationGroup) (callID : UInt64) (start «end» : Nat) :
    Except Fault CallTraceLoopInvocationGroup :=
  ((clig.call callID).addCallPattern start «end»).map (clig.setCall callID)

/-- `CallTraceLoopInvocationGroup::addCallCfc`. -/
def addCallCfc (clig : CallTraceLoopInvocationGroup) (callID : UInt64) (cp : CompressionPattern) :
    Except Fault CallTraceLoopInvocationGroup :=
  ((clig.call callID).addCallCfc cp).map (clig.setCall callID)

/-! ## Merging -/

/-- `CallTraceLoopInvocationGroup::getFirstInvocationNumber`. -/
def getFirstInvocationNumber (clig : CallTraceLoopInvocationGroup) : Except Fault Nat :=
  clig.repetitions.getFirstInstance

/-- `CallTraceLoopInvocationGroup::getLastInvocationNumber`. -/
def getLastInvocationNumber (clig : CallTraceLoopInvocationGroup) : Except Fault Nat :=
  clig.repetitions.getLastInstance

/-- `CallTraceLoopInvocationGroup::isASingleInvocation`. -/
def isASingleInvocation (clig : CallTraceLoopInvocationGroup) : Bool :=
  clig.repetitions.isSingleton

/-- `CallTraceLoopInvocationGroup::isEmpty`. -/
def isEmpty (clig : CallTraceLoopInvocationGroup) : Bool :=
  clig.calls.isEmpty && clig.repetitions.isEmpty

/-- `CallTraceLoopInvocationGroup::lastAndFirstInvocationOverlap`. -/
def lastAndFirstInvocationOverlap (clig other : CallTraceLoopInvocationGroup) :
    Except Fault Bool :=
  sameNumber clig.getLastInvocationNumber other.getFirstInvocationNumber

/-- The loop of `mergeCallInfo` over the calls of the other group, which it changes as well. -/
def mergeCalls : List (UInt64 × CallTraceCall) → CallMap → CallMap →
    Except Fault (CallMap × CallMap)
  | [], calls, left => .ok (calls, left)
  | (callID, c) :: rest, calls, left =>
      match (calls[callID]?.getD CallTraceCall.new).addCallTraceCall c with
      | .error e => .error e
      | .ok (call, c') => mergeCalls rest (calls.insert callID call) (left.insert callID c')

/-- `CallTraceLoopInvocationGroup::mergeCallInfo`: the group, and the other calls afterwards. -/
def mergeCallInfo (clig : CallTraceLoopInvocationGroup) (c : CallMap) :
    Except Fault (CallTraceLoopInvocationGroup × CallMap) :=
  (mergeCalls c.toList clig.calls c).map fun r => ({ clig with calls := r.1 }, r.2)

/-- `extractLastInvocationIntoNewGroup`: what stays, and the new group. -/
def extractLastInvocationIntoNewGroup (clig : CallTraceLoopInvocationGroup) :
    Except Fault (CallTraceLoopInvocationGroup × CallTraceLoopInvocationGroup) :=
  match clig.getLastInvocationNumber, clig.repetitions.removeLastInstance with
  | .ok n, .ok repetitions =>
      .ok ({ clig with repetitions }, { new with repetitions := [(n, n)], calls := clig.calls })
  | .error e, _ => .error e
  | _, .error e => .error e

/-- The groups that `mergeIntoAndReturnRemaining` returns after the merged one. -/
def remainingInvocations (other : CallTraceLoopInvocationGroup) :
    Except Fault (List CallTraceLoopInvocationGroup) :=
  if other.isASingleInvocation then .ok []
  else
    match other.repetitions.removeFirstInstance with
    | .ok repetitions => .ok [{ other with repetitions }]
    | .error e => .error e

/-- `CallTraceLoopInvocationGroup::mergeIntoAndReturnRemaining`. -/
def mergeIntoAndReturnRemaining (clig other : CallTraceLoopInvocationGroup) :
    Except Fault (CallTraceLoopInvocationGroup × List CallTraceLoopInvocationGroup) :=
  if other.isEmpty then .ok (clig, [])
  else
    match clig.lastAndFirstInvocationOverlap other with
    | .error e => .error e
    | .ok false => .ok (clig, [other])
    | .ok true =>
        if clig.isASingleInvocation then
          match clig.mergeCallInfo other.calls with
          | .error e => .error e
          | .ok (clig, left) =>
              (remainingInvocations { other with calls := left }).map fun remaining =>
                (clig, remaining)
        else
          match clig.extractLastInvocationIntoNewGroup with
          | .error e => .error e
          | .ok (stays, workingOn) =>
              match workingOn.mergeCallInfo other.calls with
              | .error e => .error e
              | .ok (merged, left) =>
                  (remainingInvocations { other with calls := left }).map fun remaining =>
                    (stays, merged :: remaining)

end CallTraceLoopInvocationGroup

/-! ## What merged calls stand for -/

/-- What adding the instances of a call does to both calls. -/
theorem CallTraceCall.addCallTraceCall_eq {call c : CallTraceCall}
    (h : Separate call.callInstances) (h' : Separate c.callInstances)
    (hadj : Adjoins call.callInstances c.callInstances) :
    ∃ call' left, call.addCallTraceCall c = .ok (call', left) ∧
      MergedGroups call.callInstances c.callInstances call'.callInstances ∧
      LeftGroups call.callInstances c.callInstances left.callInstances := by
  by_cases hempty : (call.callInstances.isEmpty || c.callInstances.isEmpty) = true
  · refine ⟨_, c, by rw [addCallTraceCall, if_pos hempty], mergedGroups_append h h' ?_,
      leftGroups_same ?_⟩
    · intro k hk hk'
      rcases Bool.or_eq_true_iff.1 hempty with hnil | hnil
      · rw [List.isEmpty_iff.1 hnil] at hk
        simp [groupNumbers] at hk
      · rw [List.isEmpty_iff.1 hnil] at hk'
        simp [groupNumbers] at hk'
    · rintro ⟨m, hm, hm', -⟩
      rcases Bool.or_eq_true_iff.1 hempty with hnil | hnil
      · rw [List.isEmpty_iff.1 hnil] at hm
        simp [lastNumber, groupNumbers] at hm
      · rw [List.isEmpty_iff.1 hnil] at hm'
        simp [firstNumber, groupNumbers] at hm'
  · have hne : c.callInstances ≠ [] := by
      intro hnil
      simp [hnil] at hempty
    rcases mergeGroups_eq h h' hadj (fun _ => hne) with ⟨merged, left, hok, hmerged, hleft⟩
    exact ⟨{ call with callInstances := merged }, { c with callInstances := left }, by
      rw [addCallTraceCall, if_neg hempty, hok], hmerged, hleft⟩

namespace CallTraceLoopInvocationGroup

/-- The instances of a call, by its ID. -/
def instancesOf (calls : CallMap) (callID : UInt64) : List CallTraceInstanceGroup :=
  (calls[callID]?.getD CallTraceCall.new).callInstances

theorem instancesOf_insert_self (calls : CallMap) (callID : UInt64) (call : CallTraceCall) :
    instancesOf (calls.insert callID call) callID = call.callInstances := by
  simp [instancesOf]

theorem instancesOf_insert_of_ne (calls : CallMap) {callID id : UInt64} (hne : callID ≠ id)
    (call : CallTraceCall) :
    instancesOf (calls.insert callID call) id = instancesOf calls id := by
  simp [instancesOf, Std.ExtTreeMap.getElem?_insert, hne]

/-- Merging calls with different IDs one after the other: each is merged with the call of its ID. -/
theorem mergeCalls_eq : ∀ (rest : List (UInt64 × CallTraceCall)) (calls left : CallMap),
    rest.Pairwise (fun a b => a.1 ≠ b.1) →
    (∀ item ∈ rest, Separate (instancesOf calls item.1) ∧ Separate item.2.callInstances ∧
      Adjoins (instancesOf calls item.1) item.2.callInstances) →
    ∃ calls' left', mergeCalls rest calls left = .ok (calls', left') ∧
      (∀ item ∈ rest,
        MergedGroups (instancesOf calls item.1) item.2.callInstances
            (instancesOf calls' item.1) ∧
          LeftGroups (instancesOf calls item.1) item.2.callInstances
            (instancesOf left' item.1)) ∧
      ∀ id, (∀ item ∈ rest, item.1 ≠ id) →
        instancesOf calls' id = instancesOf calls id ∧
          instancesOf left' id = instancesOf left id := by
  intro rest
  induction rest with
  | nil =>
      intro calls left _ _
      exact ⟨calls, left, rfl, by simp, fun _ _ => ⟨rfl, rfl⟩⟩
  | cons item rest ih =>
      intro calls left hdistinct h
      rcases item with ⟨callID, c⟩
      rcases List.pairwise_cons.1 hdistinct with ⟨hhead, htail⟩
      rcases h (callID, c) List.mem_cons_self with ⟨hsep, hsep', hadj⟩
      rcases CallTraceCall.addCallTraceCall_eq hsep hsep' hadj with
        ⟨call, c', hcall, hmerged, hleft⟩
      have hother := fun (id : UInt64) (hne : callID ≠ id) =>
        instancesOf_insert_of_ne calls hne call
      rcases ih (calls.insert callID call) (left.insert callID c') htail
        (fun item hitem => by
          rw [hother _ (hhead item hitem)]
          exact h item (List.mem_cons_of_mem _ hitem)) with
        ⟨calls', left', hcalls', hrest, hframe⟩
      refine ⟨calls', left', by simp only [mergeCalls, hcall, hcalls'], ?_, ?_⟩
      · intro item hitem
        rcases List.mem_cons.1 hitem with rfl | hitem
        · rcases hframe callID fun item hitem => Ne.symm (hhead item hitem) with ⟨hself, hself'⟩
          rw [hself, hself', instancesOf_insert_self, instancesOf_insert_self]
          exact ⟨hmerged, hleft⟩
        · have hitem' := hrest item hitem
          rwa [hother _ (hhead item hitem)] at hitem'
      · intro id hid
        rcases hframe id fun item hitem => hid item (List.mem_cons_of_mem _ hitem) with
          ⟨hself, hself'⟩
        have hne := hid _ List.mem_cons_self
        rw [hself, hself', hother id hne, instancesOf_insert_of_ne left hne]
        exact ⟨rfl, rfl⟩

/-- Merging the calls of another group, call by call. -/
theorem mergeCallInfo_eq (clig : CallTraceLoopInvocationGroup) {other : CallMap}
    (h : ∀ id, Separate (instancesOf clig.calls id)) (h' : ∀ id, Separate (instancesOf other id))
    (hadj : ∀ id, Adjoins (instancesOf clig.calls id) (instancesOf other id)) :
    ∃ calls left, clig.mergeCallInfo other = .ok ({ clig with calls }, left) ∧
      ∀ id, MergedGroups (instancesOf clig.calls id) (instancesOf other id) (instancesOf calls id) ∧
        LeftGroups (instancesOf clig.calls id) (instancesOf other id) (instancesOf left id) := by
  have hdistinct : other.toList.Pairwise fun a b => a.1 ≠ b.1 := by
    refine List.Pairwise.imp ?_ other.distinct_keys_toList
    intro a b hab
    simpa using hab
  have hinstances : ∀ item ∈ other.toList, item.2.callInstances = instancesOf other item.1 := by
    intro item hitem
    have hget : other[item.1]? = some item.2 :=
      Std.ExtTreeMap.mem_toList_iff_getElem?_eq_some.1 hitem
    simp [instancesOf, hget]
  rcases mergeCalls_eq other.toList clig.calls other hdistinct (fun item hitem => by
      rw [hinstances item hitem]
      exact ⟨h item.1, h' item.1, hadj item.1⟩) with ⟨calls, left, hok, hitems, hframe⟩
  refine ⟨calls, left, by rw [mergeCallInfo, hok]; rfl, ?_⟩
  intro id
  by_cases hid : ∃ item ∈ other.toList, item.1 = id
  · rcases hid with ⟨item, hitem, rfl⟩
    rw [← hinstances item hitem]
    exact hitems item hitem
  · -- a call that the other group does not have stays as it is
    rcases hframe id fun item hitem heq => hid ⟨item, hitem, heq⟩ with ⟨hself, hself'⟩
    have hnone : other[id]? = none := by
      cases hget : other[id]? with
      | none => rfl
      | some call =>
          exact absurd ⟨(id, call), Std.ExtTreeMap.mem_toList_iff_getElem?_eq_some.2 hget, rfl⟩ hid
    have hempty : instancesOf other id = [] := by simp [instancesOf, hnone, CallTraceCall.new]
    rw [hself, hself', hempty]
    refine ⟨mergedGroups_nil (h id), leftGroups_same ?_⟩
    rintro ⟨m, -, hm, -⟩
    simp [firstNumber, groupNumbers] at hm

end CallTraceLoopInvocationGroup
end CamAlias
