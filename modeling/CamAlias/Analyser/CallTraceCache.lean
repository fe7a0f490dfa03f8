import CamAlias.Memory.Slice
import Mathlib.Data.List.Induction

/-!
# CallTraceCache — which call an instance of a sub-instruction belongs to

`buildCallTraceCache` of `CallTrace.cpp` steps through the instances of all calls of an invocation
and lists, for each instruction that is seen in calls, the call instances that it is seen in.  The
order of the instances is taken from the iterations of the loop trace: an instance of an earlier
iteration comes first, and within an iteration the calls come by their IDs.

* `exists_steps`: the loop steps through all instances in that order, each once;
* `buildCallTraceCache_eq`: the entries of the cache.
-/

namespace CamAlias

open Lib

/-- `map<uintptr_t, vector<CallTraceInstructionCacheEntry>>`. -/
abbrev CallTraceCache := Std.TreeMap UInt64 (List CallTraceInstructionCacheEntry)

/-- `CurrInst`: a call ID, its current instance, and the iteration of that instance. -/
abbrev CurrInst := UInt64 × Nat × Nat

/-- `getMinimumIteration`: the first of the smallest iterations, `none` where nothing is left. -/
def getMinimumIteration : List CurrInst → Option CurrInst
  | [] => none
  | m :: currInsts => some (currInsts.foldl (fun m i => if i.2.2 < m.2.2 then i else m) m)

/-- `updateCurrentInstances`: the call goes on to its next instance, or is left out. -/
def updateCurrentInstances (invGroup : InvocationGroupCfc) (callId : UInt64) :
    List CurrInst → Except Fault (List CurrInst)
  | [] => .ok []
  | i :: currInsts =>
      if i.1 = callId then
        if sub64 (invGroup.getNumInstances callId) 1 = i.2.1 then .ok currInsts
        else
          match invGroup.getIterationNumber callId (i.2.1 + 1) with
          | .error e => .error e
          | .ok iter => .ok ((callId, i.2.1 + 1, iter) :: currInsts)
      else
        match updateCurrentInstances invGroup callId currInsts with
        | .error e => .error e
        | .ok currInsts => .ok (i :: currInsts)

/-- One round of `addToCallTraceCache`: the entry of an instruction, and its running count. -/
def addInstruction (callId : UInt64) (callInstance : Nat) (st : CallTraceCache × InstancesMap)
    (instr : UInt64) (n : Nat) : CallTraceCache × InstancesMap :=
  let runningCount := st.2[instr]?.getD 0
  (st.1.alter instr fun entries => some (entries.getD [] ++
      [{ start := runningCount, «end» := (runningCount + n + (2 ^ 64 - 1)) % 2 ^ 64,
         callID := callId, callInstance }]),
    st.2.insert instr ((runningCount + n) % 2 ^ 64))

/-- `addToCallTraceCache`, on `callTraceCache` and `runningCounts`. -/
def addToCallTraceCache (callId : UInt64) (callInstance : Nat) (callInvoc : CallTraceInstanceGroup)
    (st : CallTraceCache × InstancesMap) : CallTraceCache × InstancesMap :=
  callInvoc.numInstancesLut.foldl (addInstruction callId callInstance) st

/-- The loop that fills `constantCallIDCache`. -/
def buildConstantCallIDCache (callTraceCache : CallTraceCache) :
    List UInt64 → Std.TreeMap UInt64 Bool → Except Fault (Std.TreeMap UInt64 Bool)
  | [], constantCallIDCache => .ok constantCallIDCache
  | instr :: instrs, constantCallIDCache =>
      match callTraceCache[instr]? with
      | none => buildConstantCallIDCache callTraceCache instrs constantCallIDCache
      | some [] => .error .outOfRange
      | some (front :: entries) =>
          buildConstantCallIDCache callTraceCache instrs (constantCallIDCache.insert instr
            ((front :: entries).all fun entry => entry.callID == front.callID))

namespace CallTraceLoopInvocationGroup

/-- `CallTraceLoopInvocationGroup::buildLuts`. -/
def buildLuts (clig : CallTraceLoopInvocationGroup) : CallTraceLoopInvocationGroup :=
  { clig with calls := clig.calls.map fun _ call => call.buildLut }

/-- `CallTraceLoopInvocationGroup::getInstanceGroupFromInstanceNumber`. -/
def getInstanceGroupFromInstanceNumber (clig : CallTraceLoopInvocationGroup) (callID : UInt64)
    (callInstance : Nat) : Except Fault CallTraceInstanceGroup :=
  (clig.call callID).lut.lookupData callInstance

/-- The first loop of `buildCallTraceCache`: the first instance of every call. -/
def initialInstances (clig : CallTraceLoopInvocationGroup) (invGroup : InvocationGroupCfc) :
    List UInt64 → Except Fault (List CurrInst)
  | [] => .ok []
  | callID :: callInstrList =>
      if !(clig.call callID).empty && invGroup.containsInstruction callID then
        match invGroup.getIterationNumber callID 0, initialInstances clig invGroup callInstrList with
        | .ok iter, .ok currInsts => .ok ((callID, 0, iter) :: currInsts)
        | .error e, _ => .error e
        | _, .error e => .error e
      else initialInstances clig invGroup callInstrList

/-- `while (currentInstances.size() > 0)`. -/
def stepThrough (clig : CallTraceLoopInvocationGroup) (invGroup : InvocationGroupCfc) :
    Nat → List CurrInst → CallTraceCache × InstancesMap →
      Except Fault (CallTraceCache × InstancesMap)
  | fuel, currInsts, st =>
      -- the instance in the lowest iteration, of several the one with the lowest call ID
      match getMinimumIteration currInsts with
      | none => .ok st
      | some m =>
          match fuel with
          | 0 => .error .noFuel
          | fuel + 1 =>
              match clig.getInstanceGroupFromInstanceNumber m.1 m.2.1 with
              | .error e => .error e
              | .ok callInvoc =>
                  match updateCurrentInstances invGroup m.1 currInsts with
                  | .error e => .error e
                  | .ok currInsts => stepThrough clig invGroup fuel currInsts
                      (addToCallTraceCache m.1 m.2.1 callInvoc st)

/-- What `buildCallTraceCache` does with the cache and the counts: the group, and
`subInstrRunningCount`. -/
def storeCallTraceCache (clig : CallTraceLoopInvocationGroup) (subInstrRunningCount : InstancesMap)
    (st : CallTraceCache × InstancesMap) :
    Except Fault (CallTraceLoopInvocationGroup × InstancesMap) :=
  let subInstrRunningCount := st.2.foldl (fun counts instr n =>
    counts.insert instr ((counts[instr]?.getD 0 + n) % 2 ^ 64)) subInstrRunningCount
  match buildConstantCallIDCache st.1 subInstrRunningCount.keys clig.constantCallIDCache with
  | .error e => .error e
  | .ok constantCallIDCache =>
      .ok ({ clig with callTraceCache := st.1, constantCallIDCache, callTraceCacheBuilt := true },
        subInstrRunningCount)

/-- `CallTraceLoopInvocationGroup::buildCallTraceCache`. -/
def buildCallTraceCache (fuel : Nat) (clig : CallTraceLoopInvocationGroup)
    (invGroup : InvocationGroupCfc) (subInstrRunningCount : InstancesMap)
    (callInstrList : List UInt64) : Except Fault (CallTraceLoopInvocationGroup × InstancesMap) :=
  match clig.initialInstances invGroup callInstrList with
  | .error e => .error e
  | .ok currInsts =>
      match clig.stepThrough invGroup fuel currInsts (clig.callTraceCache, ∅) with
      | .error e => .error e
      | .ok st => clig.storeCallTraceCache subInstrRunningCount st

/-- The entries from `callInstanceIteratorBegin` to `callInstanceIteratorEnd`. -/
def callInstances (clig : CallTraceLoopInvocationGroup) (instrID : UInt64) :
    List CallTraceInstructionCacheEntry :=
  clig.callTraceCache[instrID]?.getD []

/-- `CallTraceLoopInvocationGroup::isConstantCallID`, with its `assert`. -/
def isConstantCallID (clig : CallTraceLoopInvocationGroup) (callID : UInt64) : Except Fault Bool :=
  match clig.constantCallIDCache[callID]? with
  | none => .error .assertFailed
  | some constant => .ok constant

/-- `CallTraceLoopInvocationGroup::getNumInstances`. -/
def getNumInstances (clig : CallTraceLoopInvocationGroup) (subInstrID : UInt64) : Nat :=
  match (clig.callInstances subInstrID).getLast? with
  | none => 0
  | some back => (back.end + 1) % 2 ^ 64

end CallTraceLoopInvocationGroup

/-! ## The order of the steps -/

/-- What the loop trace says of the instances of each symbol: their number, and the iteration of
each. -/
structure InstanceTable (invGroup : InvocationGroupCfc) (num : UInt64 → Nat)
    (iter : UInt64 → Nat → Nat) : Prop where
  num_eq : ∀ id, invGroup.getNumInstances id = num id
  num_lt : ∀ id, num id < 2 ^ 64
  iter_eq : ∀ id, ∀ j < num id, invGroup.getIterationNumber id j = .ok (iter id j)
  mono : ∀ id j j', j ≤ j' → j' < num id → iter id j ≤ iter id j'

/-- An instance comes before another one: by the iteration, then by the call ID, then by its
number. -/
def Before (iter : UInt64 → Nat → Nat) (p q : UInt64 × Nat) : Prop :=
  iter p.1 p.2 < iter q.1 q.2 ∨
    (iter p.1 p.2 = iter q.1 q.2 ∧ (p.1 < q.1 ∨ (p.1 = q.1 ∧ p.2 < q.2)))

/-- The current instances: each call once, by its ID, with the iteration of its instance. -/
structure CurrentInstances (num : UInt64 → Nat) (iter : UInt64 → Nat → Nat)
    (currInsts : List CurrInst) : Prop where
  sorted : currInsts.Pairwise fun i i' => i.1 < i'.1
  current : ∀ i ∈ currInsts, i.2.1 < num i.1 ∧ i.2.2 = iter i.1 i.2.1

/-- The first of the smallest iterations. -/
theorem getMinimumIteration_eq {currInsts : List CurrInst} (hne : currInsts ≠ []) :
    ∃ as m bs, currInsts = as ++ m :: bs ∧ getMinimumIteration currInsts = some m ∧
      (∀ i ∈ as, m.2.2 < i.2.2) ∧ ∀ i ∈ bs, m.2.2 ≤ i.2.2 := by
  rcases List.exists_cons_of_ne_nil hne with ⟨m₀, rest, rfl⟩
  clear hne
  induction rest using List.reverseRecOn with
  | nil => exact ⟨[], m₀, [], rfl, rfl, by simp, by simp⟩
  | append_singleton rest x ih =>
      rcases ih with ⟨as, m, bs, heq, hmin, has, hbs⟩
      have hfold : rest.foldl (fun m i => if i.2.2 < m.2.2 then i else m) m₀ = m :=
        Option.some.inj hmin
      have hnext : getMinimumIteration (m₀ :: (rest ++ [x]))
          = some (if x.2.2 < m.2.2 then x else m) := by
        simp only [getMinimumIteration, List.foldl_append, hfold, List.foldl_cons, List.foldl_nil]
      by_cases hx : x.2.2 < m.2.2
      · rw [if_pos hx] at hnext
        refine ⟨m₀ :: rest, x, [], rfl, hnext, ?_, by simp⟩
        intro i hi
        rw [heq] at hi
        rcases List.mem_append.1 hi with hi | hi
        · exact Nat.lt_trans hx (has i hi)
        · rcases List.mem_cons.1 hi with rfl | hi
          · exact hx
          · exact Nat.lt_of_lt_of_le hx (hbs i hi)
      · rw [if_neg hx] at hnext
        refine ⟨as, m, bs ++ [x], ?_, hnext, has, ?_⟩
        · rw [← List.cons_append, heq, List.append_assoc, List.cons_append]
        · intro i hi
          rcases List.mem_append.1 hi with hi | hi
          · exact hbs i hi
          · rcases List.mem_singleton.1 hi with rfl
            exact Nat.le_of_not_lt hx

section Steps

variable {invGroup : InvocationGroupCfc} {num : UInt64 → Nat} {iter : UInt64 → Nat → Nat}

/-- The call that the step has been made in goes on, or is left out. -/
theorem InstanceTable.updateCurrentInstances_eq (h : InstanceTable invGroup num iter)
    {as : List CurrInst} (bs : List CurrInst) {id : UInt64} {j : Nat} (k : Nat)
    (has : ∀ i ∈ as, i.1 ≠ id) (hj : j < num id) :
    updateCurrentInstances invGroup id (as ++ (id, j, k) :: bs)
      = .ok (as ++ ((if j + 1 < num id then [(id, j + 1, iter id (j + 1))] else []) ++ bs)) := by
  induction as with
  | nil =>
      have hlast : sub64 (num id) 1 = num id - 1 := sub64_of_le (by omega) (h.num_lt id)
      simp only [List.nil_append, updateCurrentInstances, h.num_eq, hlast, if_true]
      by_cases hnext : j + 1 < num id
      · rw [if_neg (by omega), h.iter_eq id _ hnext, if_pos hnext]
        rfl
      · rw [if_pos (by omega), if_neg hnext]
        rfl
  | cons i as ih =>
      have htail := ih fun i' hi' => has i' (List.mem_cons_of_mem _ hi')
      rw [List.cons_append, updateCurrentInstances, if_neg (has i List.mem_cons_self), htail]
      rfl

namespace CurrentInstances

/-- The instances that are still to be stepped through. -/
def remaining (num : UInt64 → Nat) (currInsts : List CurrInst) : Nat :=
  (currInsts.map fun i => num i.1 - i.2.1).sum

/-- An instance that is still to be stepped through. -/
def Pending (num : UInt64 → Nat) (currInsts : List CurrInst) (p : UInt64 × Nat) : Prop :=
  ∃ i ∈ currInsts, i.1 = p.1 ∧ i.2.1 ≤ p.2 ∧ p.2 < num p.1

variable {as bs currInsts : List CurrInst} {id : UInt64} {j k : Nat}

/-- What is left behind a step. -/
def behindStep (num : UInt64 → Nat) (iter : UInt64 → Nat → Nat) (as bs : List CurrInst)
    (id : UInt64) (j : Nat) : List CurrInst :=
  as ++ ((if j + 1 < num id then [(id, j + 1, iter id (j + 1))] else []) ++ bs)

variable (iter) in
theorem pending_behindStep (hj : j < num id) (p : UInt64 × Nat) :
    Pending num (as ++ (id, j, k) :: bs) p ↔
      p = (id, j) ∨ Pending num (behindStep num iter as bs id j) p := by
  have hone : (id = p.1 ∧ j ≤ p.2 ∧ p.2 < num p.1) ↔
      p = (id, j) ∨ (j + 1 < num id ∧ id = p.1 ∧ j + 1 ≤ p.2 ∧ p.2 < num p.1) := by
    rcases p with ⟨id', j'⟩
    simp only [Prod.mk.injEq]
    constructor
    · rintro ⟨rfl, hle, hlt⟩
      by_cases heq : j' = j
      · exact Or.inl ⟨rfl, heq⟩
      · exact Or.inr ⟨by omega, rfl, by omega, hlt⟩
    · rintro (⟨rfl, rfl⟩ | ⟨-, rfl, hle, hlt⟩)
      · exact ⟨rfl, Nat.le_refl _, hj⟩
      · exact ⟨rfl, by omega, hlt⟩
  have hstep : (∃ i ∈ (if j + 1 < num id then [(id, j + 1, iter id (j + 1))] else []),
        i.1 = p.1 ∧ i.2.1 ≤ p.2 ∧ p.2 < num p.1) ↔
      j + 1 < num id ∧ id = p.1 ∧ j + 1 ≤ p.2 ∧ p.2 < num p.1 := by
    by_cases hnext : j + 1 < num id
    · simp [hnext]
    · simp [hnext]
  simp only [Pending, behindStep, List.mem_append, List.mem_cons, or_and_right, exists_or,
    exists_eq_left]
  rw [hone, hstep]
  constructor
  · rintro (has | (hp | hself) | hbs)
    · exact Or.inr (Or.inl has)
    · exact Or.inl hp
    · exact Or.inr (Or.inr (Or.inl hself))
    · exact Or.inr (Or.inr (Or.inr hbs))
  · rintro (hp | has | hself | hbs)
    · exact Or.inr (Or.inl (Or.inl hp))
    · exact Or.inl has
    · exact Or.inr (Or.inl (Or.inr hself))
    · exact Or.inr (Or.inr hbs)

variable (iter) in
theorem remaining_behindStep (hj : j < num id) :
    remaining num (as ++ (id, j, k) :: bs)
      = remaining num (behindStep num iter as bs id j) + 1 := by
  by_cases hnext : j + 1 < num id
  · simp only [remaining, behindStep, if_pos hnext, List.map_append, List.map_cons,
      List.map_nil, List.sum_append, List.sum_cons, List.sum_nil]
    omega
  · simp only [remaining, behindStep, if_neg hnext, List.map_append, List.map_cons,
      List.sum_append, List.sum_cons, List.nil_append]
    omega

theorem step (h : CurrentInstances num iter (as ++ (id, j, k) :: bs)) :
    CurrentInstances num iter (behindStep num iter as bs id j) := by
  constructor
  · have hsorted := List.pairwise_map.2 h.sorted
    refine List.pairwise_map.1 (hsorted.sublist ?_)
    simp only [behindStep, List.map_append, List.map_cons]
    refine List.Sublist.append_left ?_ _
    by_cases hnext : j + 1 < num id
    · simp [hnext]
    · simp [hnext]
  · intro i hi
    rcases List.mem_append.1 hi with hi | hi
    · exact h.current i (List.mem_append_left _ hi)
    · rcases List.mem_append.1 hi with hi | hi
      · by_cases hnext : j + 1 < num id
        · rw [if_pos hnext] at hi
          rcases List.mem_singleton.1 hi with rfl
          exact ⟨hnext, rfl⟩
        · simp [hnext] at hi
      · exact h.current i (List.mem_append_right _ (List.mem_cons_of_mem _ hi))

/-- The instance of the smallest iteration comes before all that are left. -/
theorem before_of_pending (htable : InstanceTable invGroup num iter)
    (h : CurrentInstances num iter (as ++ (id, j, k) :: bs)) (has : ∀ i ∈ as, k < i.2.2)
    (hbs : ∀ i ∈ bs, k ≤ i.2.2) {p : UInt64 × Nat}
    (hp : Pending num (behindStep num iter as bs id j) p) :
    Before iter (id, j) p := by
  rcases p with ⟨id', j'⟩
  rcases hp with ⟨i, hi, hid, hle, hlt⟩
  simp only at hid hle hlt
  subst hid
  have hk : k = iter id j := (h.current (id, j, k) (by simp)).2
  have hlater : iter i.1 i.2.1 ≤ iter i.1 j' := htable.mono _ _ _ hle hlt
  rcases List.mem_append.1 hi with hi | hi
  · have hmin := has i hi
    rw [hk, (h.current i (List.mem_append_left _ hi)).2] at hmin
    exact Or.inl (Nat.lt_of_lt_of_le hmin hlater)
  · rcases List.mem_append.1 hi with hi | hi
    · -- a later instance of the same call
      by_cases hnext : j + 1 < num id
      · rw [if_pos hnext] at hi
        rcases List.mem_singleton.1 hi with rfl
        have hmono := htable.mono id j (j + 1) (Nat.le_succ j) hnext
        rcases Nat.lt_or_eq_of_le (Nat.le_trans hmono hlater) with hlt' | heq
        · exact Or.inl hlt'
        · exact Or.inr ⟨heq, Or.inr ⟨rfl, hle⟩⟩
      · simp [hnext] at hi
    · have hmem : i ∈ as ++ (id, j, k) :: bs :=
        List.mem_append_right _ (List.mem_cons_of_mem _ hi)
      have hmin := hbs i hi
      rw [hk, (h.current i hmem).2] at hmin
      have hless : id < i.1 :=
        (List.pairwise_cons.1 (List.pairwise_append.1 h.sorted).2.1).1 i hi
      rcases Nat.lt_or_eq_of_le (Nat.le_trans hmin hlater) with hlt' | heq
      · exact Or.inl hlt'
      · exact Or.inr ⟨heq, Or.inl hless⟩

end CurrentInstances

namespace CallTraceLoopInvocationGroup

/-- The call instances are looked up and added one after the other. -/
def addAll (clig : CallTraceLoopInvocationGroup) : List (UInt64 × Nat) →
    CallTraceCache × InstancesMap → Except Fault (CallTraceCache × InstancesMap)
  | [], st => .ok st
  | p :: order, st =>
      match clig.getInstanceGroupFromInstanceNumber p.1 p.2 with
      | .error e => .error e
      | .ok callInvoc => addAll clig order (addToCallTraceCache p.1 p.2 callInvoc st)

open CurrentInstances in
/-- The loop steps through all instances that are left, in order. -/
theorem exists_steps (htable : InstanceTable invGroup num iter) : ∀ (n : Nat)
    (currInsts : List CurrInst), CurrentInstances num iter currInsts →
      remaining num currInsts = n →
      ∃ order : List (UInt64 × Nat), order.length = n ∧ order.Pairwise (Before iter) ∧
        (∀ p, p ∈ order ↔ Pending num currInsts p) ∧
        ∀ (clig : CallTraceLoopInvocationGroup) (fuel : Nat) (st : CallTraceCache × InstancesMap),
          n ≤ fuel → clig.stepThrough invGroup fuel currInsts st = clig.addAll order st := by
  intro n
  induction n with
  | zero =>
      intro currInsts h hn
      cases currInsts with
      | nil =>
          refine ⟨[], rfl, List.Pairwise.nil, by simp [Pending], ?_⟩
          intro clig fuel st _
          cases fuel <;> rfl
      | cons i currInsts =>
          have hpos := (h.current i List.mem_cons_self).1
          simp only [remaining, List.map_cons, List.sum_cons] at hn
          omega
  | succ n ih =>
      intro currInsts h hn
      have hne : currInsts ≠ [] := by
        rintro rfl
        simp [remaining] at hn
      rcases getMinimumIteration_eq hne with ⟨as, ⟨id, j, k⟩, bs, rfl, hmin, has, hbs⟩
      have hj : j < num id := (h.current (id, j, k) (by simp)).1
      rw [remaining_behindStep iter hj] at hn
      rcases ih _ h.step (Nat.succ.inj hn) with ⟨order, hlen, hsorted, hmem, hsteps⟩
      refine ⟨(id, j) :: order, by simp [hlen], ?_, ?_, ?_⟩
      · refine List.pairwise_cons.2 ⟨fun p hp => ?_, hsorted⟩
        exact before_of_pending htable h has hbs ((hmem p).1 hp)
      · intro p
        rw [List.mem_cons, hmem, pending_behindStep iter hj]
      · intro clig fuel st hfuel
        match fuel, hfuel with
        | fuel + 1, hfuel =>
            have hids : ∀ i ∈ as, i.1 ≠ id := by
              intro i hi heq
              have hless := (List.pairwise_append.1 h.sorted).2.2 i hi (id, j, k) (by simp)
              exact UInt64.lt_irrefl _ (heq ▸ hless)
            have hupdate := htable.updateCurrentInstances_eq bs k hids hj
            rw [stepThrough, addAll]
            simp only [hmin, hupdate]
            cases clig.getInstanceGroupFromInstanceNumber id j with
            | error e => rfl
            | ok callInvoc => exact hsteps clig fuel _ (Nat.le_of_succ_le_succ hfuel)

end CallTraceLoopInvocationGroup
end Steps

/-! ## The entries -/

/-- The entries of an instruction that is seen `count p` times in call instance `p`. -/
def cacheEntries (count : UInt64 × Nat → Nat) :
    Nat → List (UInt64 × Nat) → List CallTraceInstructionCacheEntry
  | _, [] => []
  | lo, p :: order =>
      if 0 < count p then
        { start := lo, «end» := lo + count p - 1, callID := p.1, callInstance := p.2 } ::
          cacheEntries count (lo + count p) order
      else cacheEntries count lo order

variable {count : UInt64 × Nat → Nat}

theorem cacheTiles_cacheEntries (order : List (UInt64 × Nat)) : ∀ lo,
    MemSet.CacheTiles lo (cacheEntries count lo order) (lo + (order.map count).sum) := by
  induction order with
  | nil => exact fun lo => rfl
  | cons p order ih =>
      intro lo
      rw [List.map_cons, List.sum_cons, ← Nat.add_assoc]
      by_cases hpos : 0 < count p
      · rw [cacheEntries, if_pos hpos]
        have hend : lo + count p - 1 + 1 = lo + count p := by omega
        refine ⟨rfl, ?_, ?_⟩
        · simp only
          omega
        · simp only [hend]
          exact ih _
      · rw [cacheEntries, if_neg hpos, Nat.eq_zero_of_not_pos hpos, Nat.add_zero]
        exact ih lo

/-- The call instances of the entries, and their counts. -/
theorem map_cacheEntries (order : List (UInt64 × Nat)) : ∀ lo,
    lo + (order.map count).sum < 2 ^ 64 →
    (cacheEntries count lo order).map (fun e => ((e.callID, e.callInstance), e.getNumInstances))
      = (order.filter fun p => 0 < count p).map fun p => (p, count p) := by
  induction order with
  | nil => exact fun lo _ => rfl
  | cons p order ih =>
      intro lo hlt
      rw [List.map_cons, List.sum_cons, ← Nat.add_assoc] at hlt
      by_cases hpos : 0 < count p
      · have hnum : CallTraceInstructionCacheEntry.getNumInstances
            ⟨lo, lo + count p - 1, p.1, p.2⟩ = count p := by
          have hsub : sub64 (lo + count p - 1) lo = count p - 1 := by
            rw [sub64_of_le (by omega) (by omega)]
            omega
          rw [CallTraceInstructionCacheEntry.getNumInstances, hsub, Nat.sub_add_cancel hpos]
          exact Nat.mod_eq_of_lt (by omega)
        rw [cacheEntries, if_pos hpos, List.map_cons, ih _ hlt, hnum,
          List.filter_cons_of_pos (by simpa using hpos), List.map_cons]
      · rw [Nat.eq_zero_of_not_pos hpos, Nat.add_zero] at hlt
        rw [cacheEntries, if_neg hpos, ih _ hlt, List.filter_cons_of_neg (by simpa using hpos)]

/-- What the instances of a call add for one instruction. -/
theorem getElem?_addToCallTraceCache (callId : UInt64) (callInstance : Nat)
    (callInvoc : CallTraceInstanceGroup) (st : CallTraceCache × InstancesMap) (s : UInt64) :
    ((addToCallTraceCache callId callInstance callInvoc st).1[s]?,
        (addToCallTraceCache callId callInstance callInvoc st).2[s]?)
      = callInvoc.numInstancesLut[s]?.elim (st.1[s]?, st.2[s]?) fun n =>
          (some (st.1[s]?.getD [] ++ [{
            start := st.2[s]?.getD 0
            «end» := (st.2[s]?.getD 0 + n + (2 ^ 64 - 1)) % 2 ^ 64
            callID := callId
            callInstance }]), some ((st.2[s]?.getD 0 + n) % 2 ^ 64)) := by
  have hself : ∀ (st : CallTraceCache × InstancesMap) (n : Nat),
      ((addInstruction callId callInstance st s n).1[s]?,
          (addInstruction callId callInstance st s n).2[s]?)
        = (some (st.1[s]?.getD [] ++ [{
            start := st.2[s]?.getD 0
            «end» := (st.2[s]?.getD 0 + n + (2 ^ 64 - 1)) % 2 ^ 64
            callID := callId
            callInstance }]), some ((st.2[s]?.getD 0 + n) % 2 ^ 64)) := by
    intro st n
    simp [addInstruction]
  have hother : ∀ (st : CallTraceCache × InstancesMap) (k : UInt64) (n : Nat), k ≠ s →
      ((addInstruction callId callInstance st k n).1[s]?,
          (addInstruction callId callInstance st k n).2[s]?) = (st.1[s]?, st.2[s]?) := by
    intro st k n hne
    simp [addInstruction, Std.TreeMap.getElem?_alter, Std.TreeMap.getElem?_insert, hne]
  exact foldl_proj (addInstruction callId callInstance) (fun st => (st.1[s]?, st.2[s]?))
    (fun c n => (some (c.1.getD [] ++ [{
      start := c.2.getD 0
      «end» := (c.2.getD 0 + n + (2 ^ 64 - 1)) % 2 ^ 64
      callID := callId
      callInstance }]), some ((c.2.getD 0 + n) % 2 ^ 64))) s hself hother callInvoc.numInstancesLut st

namespace CallTraceLoopInvocationGroup

variable {clig : CallTraceLoopInvocationGroup} {counts : UInt64 → UInt64 × Nat → Nat}

/-- A call instance is looked up, with the number of times that it sees each instruction. -/
def Counted (clig : CallTraceLoopInvocationGroup) (counts : UInt64 → UInt64 × Nat → Nat)
    (p : UInt64 × Nat) : Prop :=
  ∃ g, clig.getInstanceGroupFromInstanceNumber p.1 p.2 = .ok g ∧
    ∀ s, g.numInstancesLut[s]? = if 0 < counts s p then some (counts s p) else none

/-- The entries and the running count of one instruction, behind the steps of `order`. -/
structure Added (count : UInt64 × Nat → Nat) (order : List (UInt64 × Nat)) (lo : Nat)
    (before after : Option (List CallTraceInstructionCacheEntry)) : Prop where
  none : cacheEntries count lo order = [] → after = before
  some : cacheEntries count lo order ≠ [] →
    after = some (before.getD [] ++ cacheEntries count lo order)

/-- The steps add the entries of every instruction. -/
theorem addAll_eq (order : List (UInt64 × Nat)) : ∀ st : CallTraceCache × InstancesMap,
    (∀ p ∈ order, clig.Counted counts p) →
    (∀ s, st.2[s]?.getD 0 + (order.map (counts s)).sum < 2 ^ 64) →
    ∃ st', clig.addAll order st = .ok st' ∧
      ∀ s, Added (counts s) order (st.2[s]?.getD 0) st.1[s]? st'.1[s]? := by
  induction order with
  | nil =>
      intro st _ _
      exact ⟨st, rfl, fun s => ⟨fun _ => rfl, fun hne => absurd rfl hne⟩⟩
  | cons p order ih =>
      intro st hcounted hlt
      rcases hcounted p List.mem_cons_self with ⟨g, hlookup, hlut⟩
      let st₁ := addToCallTraceCache p.1 p.2 g st
      have hadd := getElem?_addToCallTraceCache p.1 p.2 g st
      have hrunning : ∀ s, st₁.2[s]?.getD 0 = st.2[s]?.getD 0 + counts s p := by
        intro s
        have hsnd := congrArg Prod.snd (hadd s)
        have hsmall := hlt s
        rw [List.map_cons, List.sum_cons] at hsmall
        by_cases hpos : 0 < counts s p
        · rw [hlut s, if_pos hpos] at hsnd
          simp only [Option.elim_some] at hsnd
          rw [hsnd, Option.getD_some]
          exact Nat.mod_eq_of_lt (by omega)
        · rw [hlut s, if_neg hpos] at hsnd
          simp only [Option.elim_none] at hsnd
          rw [hsnd, Nat.eq_zero_of_not_pos hpos, Nat.add_zero]
      rcases ih st₁ (fun q hq => hcounted q (List.mem_cons_of_mem _ hq)) (fun s => by
        have hsmall := hlt s
        rw [List.map_cons, List.sum_cons, ← Nat.add_assoc] at hsmall
        rwa [hrunning s]) with ⟨st', hst', hadded⟩
      refine ⟨st', by simpa only [addAll, hlookup] using hst', ?_⟩
      intro s
      have hfst := congrArg Prod.fst (hadd s)
      have hrest := hadded s
      rw [hrunning s] at hrest
      have hsmall := hlt s
      rw [List.map_cons, List.sum_cons] at hsmall
      by_cases hpos : 0 < counts s p
      · rw [hlut s, if_pos hpos] at hfst
        simp only [Option.elim_some] at hfst
        have hend : (st.2[s]?.getD 0 + counts s p + (2 ^ 64 - 1)) % 2 ^ 64
            = st.2[s]?.getD 0 + counts s p - 1 := by omega
        rw [hend] at hfst
        have hentries : cacheEntries (counts s) (st.2[s]?.getD 0) (p :: order)
            = [⟨st.2[s]?.getD 0, st.2[s]?.getD 0 + counts s p - 1, p.1, p.2⟩] ++
              cacheEntries (counts s) (st.2[s]?.getD 0 + counts s p) order := by
          rw [cacheEntries, if_pos hpos]
          rfl
        refine ⟨fun hnil => ?_, fun _ => ?_⟩
        · rw [hentries] at hnil
          simp at hnil
        · rw [hentries]
          by_cases hnil : cacheEntries (counts s) (st.2[s]?.getD 0 + counts s p) order = []
          · rw [hrest.none hnil, hfst, hnil, List.append_nil]
          · rw [hrest.some hnil, hfst, Option.getD_some, List.append_assoc]
      · rw [hlut s, if_neg hpos] at hfst
        simp only [Option.elim_none] at hfst
        rw [Nat.eq_zero_of_not_pos hpos, Nat.add_zero, hfst] at hrest
        have hentries : cacheEntries (counts s) (st.2[s]?.getD 0) (p :: order)
            = cacheEntries (counts s) (st.2[s]?.getD 0) order := by
          rw [cacheEntries, if_neg hpos]
        exact ⟨fun hnil => hrest.none (hentries ▸ hnil), fun hne => by
          rw [hentries] at hne ⊢
          exact hrest.some hne⟩

/-- A call instance that is not found stops the loop. -/
theorem isOk_of_addAll {order : List (UInt64 × Nat)} : ∀ {st st' : CallTraceCache × InstancesMap},
    clig.addAll order st = .ok st' →
    ∀ p ∈ order, ∃ g, clig.getInstanceGroupFromInstanceNumber p.1 p.2 = .ok g := by
  induction order with
  | nil => simp
  | cons q order ih =>
      intro st st' h p hp
      simp only [addAll] at h
      split at h
      · cases h
      · rename_i g hg
        rcases List.mem_cons.1 hp with rfl | hp
        · exact ⟨g, hg⟩
        · exact ih h p hp

/-! ## The cache of an invocation -/

variable {invGroup : InvocationGroupCfc} {num : UInt64 → Nat} {iter : UInt64 → Nat → Nat}
  {callInstrList : List UInt64}

variable (clig) in
/-- The calls that have instances, each with its first one. -/
theorem initialInstances_eq (htable : InstanceTable invGroup num iter)
    (callInstrList : List UInt64) :
    clig.initialInstances invGroup callInstrList
      = .ok ((callInstrList.filter fun id => !(clig.call id).empty && decide (0 < num id)).map
          fun id => (id, 0, iter id 0)) := by
  induction callInstrList with
  | nil => rfl
  | cons id callInstrList ih =>
      have hcontains : invGroup.containsInstruction id = decide (0 < num id) := by
        simp only [InvocationGroupCfc.containsInstruction, htable.num_eq]
      rw [initialInstances, hcontains]
      by_cases hcall : (!(clig.call id).empty && decide (0 < num id)) = true
      · have hpos : 0 < num id := of_decide_eq_true (Bool.and_eq_true_iff.1 hcall).2
        rw [if_pos hcall, htable.iter_eq id 0 hpos, ih, List.filter_cons, if_pos hcall]
        rfl
      · rw [if_neg hcall, ih, List.filter_cons, if_neg hcall]

/-- The steps of an invocation: all instances of the calls in `callInstrList`, in order. -/
theorem exists_order (htable : InstanceTable invGroup num iter)
    (hlist : callInstrList.Pairwise (· < ·)) (clig : CallTraceLoopInvocationGroup) :
    ∃ order : List (UInt64 × Nat), order.Pairwise (Before iter) ∧
      (∀ p, p ∈ order ↔
        p.1 ∈ callInstrList ∧ (clig.call p.1).empty = false ∧ p.2 < num p.1) ∧
      ∀ (fuel : Nat) (sub : InstancesMap), order.length ≤ fuel →
        clig.buildCallTraceCache fuel invGroup sub callInstrList
          = (clig.addAll order (clig.callTraceCache, ∅)).bind (clig.storeCallTraceCache sub) := by
  have hinit := initialInstances_eq clig htable callInstrList
  let calls := callInstrList.filter fun id => !(clig.call id).empty && decide (0 < num id)
  have hcurrent : CurrentInstances num iter (calls.map fun id => (id, 0, iter id 0)) := by
    constructor
    · exact List.pairwise_map.2 (hlist.sublist List.filter_sublist)
    · intro i hi
      rcases List.mem_map.1 hi with ⟨id, hid, rfl⟩
      have hcall := (List.mem_filter.1 hid).2
      exact ⟨of_decide_eq_true (Bool.and_eq_true_iff.1 hcall).2, rfl⟩
  rcases exists_steps htable _ _ hcurrent rfl with ⟨order, hlen, hsorted, hmem, hsteps⟩
  refine ⟨order, hsorted, ?_, ?_⟩
  · intro p
    rw [hmem]
    constructor
    · rintro ⟨i, hi, hid, -, hlt⟩
      rcases List.mem_map.1 hi with ⟨id, hid', rfl⟩
      simp only at hid
      subst hid
      rcases List.mem_filter.1 hid' with ⟨hlisted, hcall⟩
      exact ⟨hlisted, by simpa using (Bool.and_eq_true_iff.1 hcall).1, hlt⟩
    · rintro ⟨hlisted, hcall, hlt⟩
      have hpos : 0 < num p.1 := Nat.zero_lt_of_lt hlt
      have hid : p.1 ∈ calls := List.mem_filter.2 ⟨hlisted, by simp [hcall, hpos]⟩
      exact ⟨(p.1, 0, iter p.1 0), List.mem_map_of_mem hid, rfl, Nat.zero_le _, hlt⟩
  · intro fuel sub hfuel
    rw [hlen] at hfuel
    have hloop := hsteps clig fuel (clig.callTraceCache, ∅) hfuel
    simp only [calls] at hloop
    simp only [buildCallTraceCache, hinit, hloop]
    cases clig.addAll order (clig.callTraceCache, ∅) <;> rfl

/-- No list of the cache is empty, so that `front` is there. -/
theorem exists_buildConstantCallIDCache {callTraceCache : CallTraceCache}
    (hne : ∀ s : UInt64, callTraceCache[s]? ≠ some []) (instrs : List UInt64) :
    ∀ constants, ∃ constants', buildConstantCallIDCache callTraceCache instrs constants
      = .ok constants' := by
  induction instrs with
  | nil => exact fun constants => ⟨constants, rfl⟩
  | cons instr instrs ih =>
      intro constants
      simp only [buildConstantCallIDCache]
      split
      · exact ih _
      · rename_i hnil
        exact absurd hnil (hne instr)
      · exact ih _

/-- The cache of an invocation, where all call instances are found. -/
theorem exists_cache {order : List (UInt64 × Nat)} (hfresh : clig.callTraceCache = ∅)
    (hcounted : ∀ p ∈ order, clig.Counted counts p)
    (hlt : ∀ s, (order.map (counts s)).sum < 2 ^ 64) (sub : InstancesMap) :
    ∃ clig' sub', (clig.addAll order (clig.callTraceCache, ∅)).bind (clig.storeCallTraceCache sub)
        = .ok (clig', sub') ∧
      clig'.callTraceCacheBuilt = true ∧
      ∀ s, clig'.callInstances s = cacheEntries (counts s) 0 order := by
  have hzero : ∀ s : UInt64, ((∅ : InstancesMap)[s]?).getD 0 = 0 := by simp
  rcases addAll_eq order (clig.callTraceCache, ∅) hcounted (fun s => by
    rw [hzero s, Nat.zero_add]
    exact hlt s) with ⟨st, hst, hadded⟩
  have hcache : ∀ s, Added (counts s) order 0 none st.1[s]? := by
    intro s
    have hs := hadded s
    simp only [hzero s] at hs
    simpa [hfresh] using hs
  have hne : ∀ s : UInt64, st.1[s]? ≠ some [] := by
    intro s hnil
    by_cases hentries : cacheEntries (counts s) 0 order = []
    · rw [(hcache s).none hentries] at hnil
      cases hnil
    · rw [(hcache s).some hentries] at hnil
      exact hentries (by simpa using hnil)
  let sub' := st.2.foldl (fun counts instr n =>
    counts.insert instr ((counts[instr]?.getD 0 + n) % 2 ^ 64)) sub
  rcases exists_buildConstantCallIDCache hne sub'.keys clig.constantCallIDCache with
    ⟨constants, hconstants⟩
  refine ⟨{ clig with
    callTraceCache := st.1, constantCallIDCache := constants, callTraceCacheBuilt := true }, sub',
    ?_, rfl, ?_⟩
  · rw [hst]
    simp only [Except.bind, storeCallTraceCache, hconstants, sub']
  · intro s
    by_cases hentries : cacheEntries (counts s) 0 order = []
    · simp only [callInstances, (hcache s).none hentries, hentries, Option.getD_none]
    · simp only [callInstances, (hcache s).some hentries, Option.getD_none, List.nil_append,
        Option.getD_some]

end CallTraceLoopInvocationGroup
end CamAlias
