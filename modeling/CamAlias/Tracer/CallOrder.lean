import CamAlias.Lib.Occurrence
import CamAlias.Lib.PrefixSum
import CamAlias.Tracer.Execution

/-!
# CallOrder — the calls of an invocation in the order in which they are made

An invocation calls IDs, each several times.  The calls of an ID are its instances, and they are
numbered from 0 on in the order in which they are made (`executedCalls`).

* `withKey_callsMade`: the instances of an ID are what is recorded of it;
* `inBlock_executedCalls`: an instance lies in the iteration that its number says.
-/

namespace CamAlias

open Lib

namespace IterationEvent

/-- The call that the event is, with what is seen in it. -/
def callMade : IterationEvent → List (UInt64 × List UInt64)
  | call callID body => [(callID, body.flatMap CallEvent.symbols)]
  | _ => []

theorem instances_eq (id : UInt64) (e : IterationEvent) : e.instances id = withKey id e.callMade := by
  cases e with
  | seen instID => rfl
  | dump => rfl
  | call callID body =>
      by_cases h : id = callID
      · simp [instances, callMade, withKey, h]
      · simp [instances, callMade, withKey, h, Ne.symm h]

end IterationEvent

namespace LoopInvocation

/-- The calls of an iteration, with the number of the iteration. -/
def callsIn (k : Nat) (it : List IterationEvent) : List (UInt64 × Nat × List UInt64) :=
  (it.flatMap IterationEvent.callMade).map fun c => (c.1, k, c.2)

/-- The calls in the order in which they are made: the call ID, the iteration, and what is seen. -/
def callsMade (inv : LoopInvocation) : List (UInt64 × Nat × List UInt64) :=
  (inv.iterations.zipIdx 0).flatMap fun i => callsIn i.2 i.1

/-- The calls with their instance numbers. -/
def executedCalls (inv : LoopInvocation) : List ((UInt64 × Nat) × Nat × List UInt64) :=
  number inv.callsMade

/-- The instances of an ID, iteration by iteration. -/
def callBlocks (inv : LoopInvocation) (id : UInt64) : List (List (List UInt64)) :=
  inv.iterations.map fun it => it.flatMap (IterationEvent.instances id)

/-- Every call has been announced, and its ID has not been seen otherwise. -/
def Announced (inv : LoopInvocation) : Prop :=
  ∀ id, inv.instances id ≠ [] → inv.iterationSymbols.flatten.count id = (inv.instances id).length

variable (inv : LoopInvocation) (id : UInt64)

theorem flatten_callBlocks : (inv.callBlocks id).flatten = inv.instances id := by
  rw [callBlocks, instances, List.flatMap_def]

/-- The instances of an ID among the calls. -/
theorem withKey_callsMade : withKey id inv.callsMade = tagged (inv.callBlocks id) := by
  have hcalls : ∀ (k : Nat) (it : List IterationEvent),
      withKey id (callsIn k it) = (it.flatMap (IterationEvent.instances id)).map (Prod.mk k) := by
    intro k it
    have hevents : withKey id (it.flatMap IterationEvent.callMade)
        = it.flatMap (IterationEvent.instances id) := by
      rw [withKey_flatMap]
      congr 1
      funext e
      exact (IterationEvent.instances_eq id e).symm
    rw [← hevents, callsIn, withKey, withKey, List.filter_map, List.map_map, List.map_map]
    rfl
  simp only [callsMade, withKey_flatMap, hcalls, tagged, callBlocks, List.zipIdx_map, List.flatMap_map]
  rfl

/-- An executed call is an instance of its ID, and lies in the iteration that it is made in. -/
theorem mem_executedCalls {p : UInt64 × Nat} {k : Nat} {symbols : List UInt64}
    (h : (p, k, symbols) ∈ inv.executedCalls) :
    (inv.instances p.1)[p.2]? = some symbols ∧ k < inv.iterations.length ∧
      InBlock (blockSize (inv.callBlocks p.1)) k p.2 := by
  rcases p with ⟨id, j⟩
  have hget := (mem_number _ _ _ _).1 h
  rw [withKey_callsMade] at hget
  have hblock := inBlock_of_tagged _ hget
  rw [callBlocks, List.length_map] at hblock
  refine ⟨?_, hblock⟩
  rw [← flatten_callBlocks, ← map_snd_tagged, List.getElem?_map, hget]
  rfl

/-- The instances of all IDs are executed. -/
theorem mem_map_fst_executedCalls (p : UInt64 × Nat) :
    p ∈ inv.executedCalls.map Prod.fst ↔ p.2 < (inv.instances p.1).length := by
  rw [executedCalls, mem_map_fst_number, withKey_callsMade, ← flatten_callBlocks,
    ← map_snd_tagged, List.length_map]

/-- Only the IDs that are called have instances. -/
theorem announced_of_forall
    (h : ∀ c ∈ inv.callsMade, inv.iterationSymbols.flatten.count c.1 = (inv.instances c.1).length) :
    inv.Announced := by
  intro id hid
  have hmade : withKey id inv.callsMade ≠ [] := by
    intro hnil
    rw [withKey_callsMade] at hnil
    rw [← flatten_callBlocks, ← map_snd_tagged, hnil] at hid
    exact hid rfl
  rw [withKey, Ne, List.map_eq_nil_iff] at hmade
  rcases List.exists_mem_of_ne_nil _ hmade with ⟨c, hc⟩
  rcases List.mem_filter.1 hc with ⟨hc, hkey⟩
  exact of_decide_eq_true hkey ▸ h c hc

theorem nodup_executedCalls : (inv.executedCalls.map Prod.fst).Nodup :=
  nodup_number _

/-! ## Bounds -/

/-- A weight that no event of an invocation has without calls of the interface. -/
theorem sum_events_le (loopID : UInt64) {f : IterationEvent → Nat}
    (hf : ∀ e, f e ≤ e.apiCalls.length) :
    (inv.iterations.flatten.map f).sum ≤ (inv.apiCalls loopID).length := by
  have hevents : ∀ it : List IterationEvent,
      (it.map f).sum ≤ (it.flatMap IterationEvent.apiCalls).length := by
    intro it
    induction it with
    | nil => exact Nat.le_refl _
    | cons e it ih =>
        rw [List.map_cons, List.sum_cons, List.flatMap_cons, List.length_append]
        exact Nat.add_le_add (hf e) ih
  have hiterations : ∀ its : List (List IterationEvent),
      (its.flatten.map f).sum ≤ (its.flatMap fun it =>
        ApiCall.loopIterationStart :: it.flatMap IterationEvent.apiCalls).length := by
    intro its
    induction its with
    | nil => exact Nat.le_refl _
    | cons it its ih =>
        have hit := hevents it
        rw [List.flatten_cons, List.map_append, List.sum_append, List.flatMap_cons,
          List.length_append, List.length_cons]
        omega
  have hall := hiterations inv.iterations
  simp only [apiCalls, List.length_cons, List.length_append]
  omega

theorem flatMap_flatten {α β : Type _} (xss : List (List α)) (f : α → List β) :
    xss.flatten.flatMap f = xss.flatMap fun xs => xs.flatMap f := by
  rw [← List.flatMap_id, List.flatMap_assoc]
  rfl

theorem length_flatten_iterationSymbols_le (loopID : UInt64) :
    inv.iterationSymbols.flatten.length ≤ (inv.apiCalls loopID).length := by
  have hsymbols : inv.iterationSymbols.flatten
      = inv.iterations.flatten.flatMap IterationEvent.symbols := by
    rw [iterationSymbols, ← List.flatMap_def, flatMap_flatten]
  rw [hsymbols, List.length_flatMap]
  refine inv.sum_events_le loopID ?_
  intro e
  cases e <;> simp [IterationEvent.symbols, IterationEvent.apiCalls]

theorem length_flatMap_symbols_le (body : List CallEvent) :
    (body.flatMap CallEvent.symbols).length ≤ body.length := by
  have hevent : ∀ e : CallEvent, e.symbols.length ≤ 1 := by
    intro e
    cases e with
    | seen instID => exact Nat.le_refl 1
    | dump => exact Nat.zero_le 1
  rw [List.length_flatMap]
  induction body with
  | nil => exact Nat.le_refl _
  | cons e body ih =>
      rw [List.map_cons, List.sum_cons, List.length_cons]
      have := hevent e
      omega

/-- What is seen in all calls. -/
theorem sum_length_executedCalls_le (loopID : UInt64) :
    (inv.executedCalls.map fun c => c.2.2.length).sum ≤ (inv.apiCalls loopID).length := by
  have hnumbers : inv.executedCalls.map (fun c => (c.1.1, c.2)) = inv.callsMade :=
    map_snd_numberFrom _ _
  have hmade : inv.callsMade.map (fun c => (c.1, c.2.2))
      = inv.iterations.flatten.flatMap IterationEvent.callMade := by
    have hcalls : ∀ i : List IterationEvent × Nat, (callsIn i.2 i.1).map (fun c => (c.1, c.2.2))
        = i.1.flatMap IterationEvent.callMade := by
      intro i
      simp [callsIn, Function.comp_def]
    rw [callsMade, List.map_flatMap]
    simp only [hcalls]
    rw [flatMap_flatten, ← List.flatMap_map Prod.fst, List.zipIdx_map_fst]
  have hlengths : inv.executedCalls.map (fun c => c.2.2.length)
      = (inv.iterations.flatten.flatMap IterationEvent.callMade).map fun c => c.2.length := by
    rw [← hmade, ← hnumbers, List.map_map, List.map_map]
    rfl
  rw [hlengths, List.map_flatMap, List.flatMap_def, List.sum_flatten, List.map_map]
  refine inv.sum_events_le loopID ?_
  intro e
  cases e with
  | seen instID => exact Nat.zero_le _
  | dump => exact Nat.zero_le _
  | call callID body =>
      have hbody := length_flatMap_symbols_le body
      simp only [Function.comp_def, IterationEvent.callMade, IterationEvent.apiCalls, List.map_cons,
        List.map_nil, List.sum_cons, List.sum_nil, List.length_cons, List.length_append,
        List.length_map]
      omega

/-- An iteration is a call of the interface at least. -/
theorem length_iterations_le (inv : LoopInvocation) (loopID : UInt64) :
    inv.iterations.length ≤ (inv.apiCalls loopID).length := by
  calc inv.iterations.length = (inv.iterations.map fun _ => 1).sum := by simp
    _ ≤ (inv.iterations.map fun it =>
          (ApiCall.loopIterationStart :: it.flatMap IterationEvent.apiCalls).length).sum := by
        refine List.sum_le_sum fun it _ => ?_
        simp
    _ ≤ (inv.apiCalls loopID).length := by
        simp only [apiCalls, List.length_cons, List.length_append, List.length_flatMap]
        omega

end LoopInvocation

/-! ## The calls of the interface in an execution -/

section Execution

variable (loopID : UInt64) {invs : List LoopInvocation}

theorem length_apiCalls_le {inv : LoopInvocation} (hinv : inv ∈ invs) :
    (inv.apiCalls loopID).length ≤ (executionCalls loopID invs).length := by
  rw [executionCalls, List.length_flatMap]
  exact List.le_sum_of_mem (List.mem_map_of_mem (f := fun inv => (inv.apiCalls loopID).length) hinv)

/-- So is an invocation. -/
theorem length_recorded_le (invs : List LoopInvocation) :
    (invs.map LoopInvocation.recorded).length ≤ (executionCalls loopID invs).length := by
  rw [executionCalls, List.length_flatMap, List.length_map]
  calc invs.length = (invs.map fun _ => 1).sum := by simp
    _ ≤ (invs.map fun inv => (inv.apiCalls loopID).length).sum := by
        refine List.sum_le_sum fun inv _ => ?_
        simp [LoopInvocation.apiCalls]

theorem length_iterations_recorded_le {inv : Invocation}
    (hinv : inv ∈ invs.map LoopInvocation.recorded) :
    inv.iterations.length ≤ (executionCalls loopID invs).length := by
  rcases List.mem_map.1 hinv with ⟨i, hi, rfl⟩
  calc i.recorded.iterations.length = i.iterations.length := List.length_map _
    _ ≤ (i.apiCalls loopID).length := i.length_iterations_le loopID
    _ ≤ (executionCalls loopID invs).length := length_apiCalls_le loopID hi

/-- And so is all that is seen. -/
theorem length_symbols_recorded_le {inv : Invocation}
    (hinv : inv ∈ invs.map LoopInvocation.recorded) :
    inv.iterations.flatten.length ≤ (executionCalls loopID invs).length := by
  rcases List.mem_map.1 hinv with ⟨i, hi, rfl⟩
  exact Nat.le_trans (i.length_flatten_iterationSymbols_le loopID) (length_apiCalls_le loopID hi)

end Execution
end CamAlias
