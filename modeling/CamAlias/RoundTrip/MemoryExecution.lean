import CamAlias.Memory.RoundTrip
import CamAlias.RoundTrip.Attribution
import CamAlias.RoundTrip.Dependences

/-!
# MemoryExecution — an instrumented loop with its memory accesses

A `MemoryInvocation` is one run of the loop in which an instruction that is seen may call `CAM_mem`.  It
is traced twice: its control flow by the loop tracer, and its accesses by the memory tracer, which is
not told in which invocation, iteration or call they are made.

* `OncePerInstance.keepsPace`: the iterations and calls of the references of a stream;
* `MemoryInvocation.inStepWith_iff`: when the control flow traces are in step with a stream.
-/

namespace CamAlias

open Lib

/-! ## Executions -/

/-- The arguments of `CAM_mem` behind the instruction: two reads and a write.  A length of 0 stands for
none. -/
structure Access where
  raddr1 : BitVec 64
  rlen1 : BitVec 64
  raddr2 : BitVec 64
  rlen2 : BitVec 64
  waddr : BitVec 64
  wlen : BitVec 64
  deriving DecidableEq, Repr

/-- What happens inside a call. -/
inductive MemoryCallEvent
  | seen (instID : UInt64) (access : Option Access)
  | dump
  | memTraceDump
  deriving DecidableEq, Repr

/-- What happens in an iteration.  The call itself can make an access, like any other instruction. -/
inductive MemoryEvent
  | seen (instID : UInt64) (access : Option Access)
  | dump
  | memTraceDump
  | call (callID : UInt64) (access : Option Access) (body : List MemoryCallEvent)
  deriving DecidableEq, Repr

/-- One invocation of the loop.  `dumps` is the number of dumps before its first iteration. -/
structure MemoryInvocation where
  dumps : Nat
  iterations : List (List MemoryEvent)
  deriving DecidableEq, Repr

/-- The call of `CAM_mem`, if there is one. -/
def memCalls (instID : UInt64) : Option Access → List MemoryCall
  | none => []
  | some a => [.mem instID a.raddr1 a.rlen1 a.raddr2 a.rlen2 a.waddr a.wlen]

/-- The references that some calls make to a stream. -/
def streamReferences (key : UInt64 × Stream) (calls : List MemoryCall) : List Reference :=
  calls.flatMap (MemoryCall.references key.1 key.2)

namespace MemoryCallEvent

/-- The event in the control flow. -/
def controlFlow : MemoryCallEvent → List CallEvent
  | seen instID _ => [.seen instID]
  | dump => [.dump]
  | memTraceDump => []

def memoryCalls : MemoryCallEvent → List MemoryCall
  | seen instID access => memCalls instID access
  | dump => []
  | memTraceDump => [.dump]

/-- If the instruction of a stream is seen, it makes one reference to the stream. -/
def Once (key : UInt64 × Stream) : MemoryCallEvent → Prop
  | seen instID access =>
      instID = key.1 → (streamReferences key (memCalls instID access)).length = 1
  | _ => True

instance (key : UInt64 × Stream) : DecidablePred (Once key)
  | seen _ _ => inferInstanceAs (Decidable (_ → _))
  | dump => inferInstanceAs (Decidable True)
  | memTraceDump => inferInstanceAs (Decidable True)

end MemoryCallEvent

namespace MemoryEvent

/-- The event in the control flow. -/
def controlFlow : MemoryEvent → List IterationEvent
  | seen instID _ => [.seen instID]
  | dump => [.dump]
  | memTraceDump => []
  | call callID _ body => [.call callID (body.flatMap MemoryCallEvent.controlFlow)]

def memoryCalls : MemoryEvent → List MemoryCall
  | seen instID access => memCalls instID access
  | dump => []
  | memTraceDump => [.dump]
  | call callID access body => memCalls callID access ++ body.flatMap MemoryCallEvent.memoryCalls

/-- What the event is effectively: a call, or an instruction of the loop. -/
def effectiveInstrID : MemoryEvent → UInt64
  | seen instID _ => instID
  | call callID _ _ => callID
  | _ => 0

/-- The references that the event makes to a stream in iteration `k`. -/
def made (key : UInt64 × Stream) (k : Nat) (e : MemoryEvent) : List TaggedReference :=
  (streamReferences key e.memoryCalls).map fun r => ((k, e.effectiveInstrID), r)

/-- If the instruction of a stream is seen, it makes one reference to the stream. -/
def Once (key : UInt64 × Stream) : MemoryEvent → Prop
  | seen instID access =>
      instID = key.1 → (streamReferences key (memCalls instID access)).length = 1
  | call callID access body =>
      (callID = key.1 → (streamReferences key (memCalls callID access)).length = 1) ∧
        ∀ e ∈ body, e.Once key
  | _ => True

instance (key : UInt64 × Stream) : DecidablePred (Once key)
  | seen _ _ => inferInstanceAs (Decidable (_ → _))
  | dump => inferInstanceAs (Decidable True)
  | memTraceDump => inferInstanceAs (Decidable True)
  | call _ _ _ => inferInstanceAs (Decidable (_ ∧ _))

end MemoryEvent

namespace MemoryInvocation

def controlFlow (inv : MemoryInvocation) : LoopInvocation where
  dumps := inv.dumps
  iterations := inv.iterations.map fun it => it.flatMap MemoryEvent.controlFlow

def memoryCalls (inv : MemoryInvocation) : List MemoryCall :=
  inv.iterations.flatMap fun it => it.flatMap MemoryEvent.memoryCalls

/-- The references to a stream, with their iterations and effective instructions. -/
def made (inv : MemoryInvocation) (key : UInt64 × Stream) : List TaggedReference :=
  (inv.iterations.zipIdx 0).flatMap fun i => i.1.flatMap (MemoryEvent.made key i.2)

/-- Every instance of the instruction of a stream makes one reference to it. -/
def OncePerInstance (inv : MemoryInvocation) (key : UInt64 × Stream) : Prop :=
  ∀ it ∈ inv.iterations, ∀ e ∈ it, e.Once key

instance (inv : MemoryInvocation) (key : UInt64 × Stream) : Decidable (inv.OncePerInstance key) :=
  inferInstanceAs (Decidable (∀ it ∈ inv.iterations, ∀ e ∈ it, e.Once key))

end MemoryInvocation

/-! ## The tags of the references -/

/-- The iteration and the effective instruction of each instance of an instruction. -/
def IterationEvent.tags (id : UInt64) (k : Nat) : IterationEvent → List (Nat × UInt64)
  | seen instID => if instID = id then [(k, id)] else []
  | dump => []
  | call callID body =>
      (if callID = id then [(k, id)] else [])
        ++ List.replicate ((body.flatMap CallEvent.symbols).count id) (k, callID)

def LoopInvocation.tags (inv : LoopInvocation) (id : UInt64) : List (Nat × UInt64) :=
  (inv.iterations.zipIdx 0).flatMap fun i => i.1.flatMap (IterationEvent.tags id i.2)

/-- The references to a stream are made where the instances of its instruction are, as many of them in
every iteration and call. -/
def MemoryInvocation.KeepsPace (inv : MemoryInvocation) (key : UInt64 × Stream) : Prop :=
  (inv.made key).map Prod.fst = inv.controlFlow.tags key.1

instance (inv : MemoryInvocation) (key : UInt64 × Stream) : Decidable (inv.KeepsPace key) :=
  inferInstanceAs (Decidable (_ = _))

section Tags

variable {key : UInt64 × Stream}

theorem streamReferences_memCalls_of_ne {instID : UInt64} (hne : instID ≠ key.1)
    (access : Option Access) : streamReferences key (memCalls instID access) = [] := by
  cases access with
  | none => rfl
  | some a => simp [streamReferences, memCalls, MemoryCall.references, hne]

/-- A call makes as many references as it has instances of the instruction. -/
theorem length_streamReferences_body {body : List MemoryCallEvent} (h : ∀ e ∈ body, e.Once key) :
    (streamReferences key (body.flatMap MemoryCallEvent.memoryCalls)).length
      = ((body.flatMap MemoryCallEvent.controlFlow).flatMap CallEvent.symbols).count key.1 := by
  induction body with
  | nil => rfl
  | cons e body ih =>
      rcases List.forall_mem_cons.1 h with ⟨hfirst, hrest⟩
      have hevent : (streamReferences key e.memoryCalls).length
          = (e.controlFlow.flatMap CallEvent.symbols).count key.1 := by
        cases e with
        | seen instID access =>
            by_cases hid : instID = key.1
            · have hone := hfirst hid
              subst hid
              simpa [MemoryCallEvent.memoryCalls, MemoryCallEvent.controlFlow, CallEvent.symbols]
                using hone
            · simp [MemoryCallEvent.memoryCalls, MemoryCallEvent.controlFlow, CallEvent.symbols,
                streamReferences_memCalls_of_ne hid, hid]
        | dump => rfl
        | memTraceDump => rfl
      have hsplit : streamReferences key ((e :: body).flatMap MemoryCallEvent.memoryCalls)
          = streamReferences key e.memoryCalls
            ++ streamReferences key (body.flatMap MemoryCallEvent.memoryCalls) := by
        rw [streamReferences, List.flatMap_cons, List.flatMap_append]
        rfl
      rw [hsplit, List.length_append, hevent, ih hrest, List.flatMap_cons, List.flatMap_append,
        List.count_append]

/-- One event. -/
theorem MemoryEvent.map_fst_made {e : MemoryEvent} (h : e.Once key) (k : Nat) :
    (e.made key k).map Prod.fst = e.controlFlow.flatMap (IterationEvent.tags key.1 k) := by
  have hmap : (e.made key k).map Prod.fst
      = List.replicate (streamReferences key e.memoryCalls).length (k, e.effectiveInstrID) := by
    rw [made, List.map_map]
    exact List.map_const'
  rw [hmap]
  cases e with
  | seen instID access =>
      by_cases hid : instID = key.1
      · have hone := h hid
        subst hid
        simp [memoryCalls, controlFlow, effectiveInstrID, IterationEvent.tags, hone]
      · simp [memoryCalls, controlFlow, IterationEvent.tags, streamReferences_memCalls_of_ne hid, hid]
  | dump => rfl
  | memTraceDump => rfl
  | call callID access body =>
      have hbody := length_streamReferences_body h.2
      have hsplit : streamReferences key (call callID access body).memoryCalls
          = streamReferences key (memCalls callID access)
            ++ streamReferences key (body.flatMap MemoryCallEvent.memoryCalls) := List.flatMap_append
      rw [hsplit, List.length_append, hbody]
      by_cases hid : callID = key.1
      · -- the call makes a reference of its own
        have hone := h.1 hid
        subst hid
        simp [controlFlow, effectiveInstrID, IterationEvent.tags, hone, List.replicate_add]
      · simp [controlFlow, effectiveInstrID, IterationEvent.tags,
          streamReferences_memCalls_of_ne hid, hid]

/-- The iterations and calls in which the references to a stream are made. -/
theorem MemoryInvocation.OncePerInstance.keepsPace {inv : MemoryInvocation}
    (h : inv.OncePerInstance key) : inv.KeepsPace key := by
  have hevents : ∀ (it : List MemoryEvent) (k : Nat), (∀ e ∈ it, e.Once key) →
      (it.flatMap (MemoryEvent.made key k)).map Prod.fst
        = (it.flatMap MemoryEvent.controlFlow).flatMap (IterationEvent.tags key.1 k) := by
    intro it k hit
    rw [List.map_flatMap, List.flatMap_assoc]
    exact List.flatMap_congr fun e he => MemoryEvent.map_fst_made (hit e he) k
  rw [KeepsPace, made, LoopInvocation.tags, controlFlow, List.zipIdx_map, List.flatMap_map,
    List.map_flatMap]
  refine List.flatMap_congr fun i hi => hevents i.1 i.2 (h i.1 ?_)
  exact List.mem_of_getElem? (List.mem_zipIdx_iff_getElem?.1 hi)

/-- The references are those that the memory tracer records. -/
theorem MemoryInvocation.map_snd_made (inv : MemoryInvocation) :
    (inv.made key).map Prod.snd = recorded inv.memoryCalls key.1 key.2 := by
  have hevents : ∀ (it : List MemoryEvent) (k : Nat),
      (it.flatMap (MemoryEvent.made key k)).map Prod.snd
        = streamReferences key (it.flatMap MemoryEvent.memoryCalls) := by
    intro it k
    rw [List.map_flatMap, streamReferences, List.flatMap_assoc]
    refine List.flatMap_congr fun e _ => ?_
    rw [MemoryEvent.made, List.map_map]
    exact List.map_id _
  have hall : ∀ (its : List (List MemoryEvent)) (k : Nat),
      (its.zipIdx k).flatMap (fun i => (i.1.flatMap (MemoryEvent.made key i.2)).map Prod.snd)
        = streamReferences key (its.flatMap fun it => it.flatMap MemoryEvent.memoryCalls) := by
    intro its
    induction its with
    | nil => exact fun _ => rfl
    | cons it its ih =>
        intro k
        rw [List.zipIdx_cons, List.flatMap_cons, ih, hevents, List.flatMap_cons, streamReferences,
          streamReferences, streamReferences, List.flatMap_append]
  rw [made, List.map_flatMap]
  exact hall inv.iterations 0

end Tags

/-! ## The blocks of the traces -/

namespace LoopInvocation

variable {inv : LoopInvocation} {id : UInt64}

theorem not_seen_in_call {callID : UInt64} {body : List CallEvent} {it : List IterationEvent}
    (h : id ∉ (inv.instances callID).flatten) (hit : it ∈ inv.iterations)
    (hcall : IterationEvent.call callID body ∈ it) : id ∉ body.flatMap CallEvent.symbols := by
  intro hmem
  refine h (List.mem_flatten.2 ⟨_, ?_, hmem⟩)
  refine List.mem_flatMap.2 ⟨it, hit, List.mem_flatMap.2 ⟨_, hcall, ?_⟩⟩
  rw [IterationEvent.instances, if_pos rfl]
  exact List.mem_singleton_self _

/-- An instruction of the loop itself. -/
theorem tags_eq_iterationBlocks (hcalls : ∀ callID, id ∉ (inv.instances callID).flatten) :
    inv.tags id = (iterationBlocks inv.iterationSymbols id).flatMap Block.tags := by
  have hevents : ∀ (it : List IterationEvent) (k : Nat), it ∈ inv.iterations →
      it.flatMap (IterationEvent.tags id k)
        = List.replicate ((it.flatMap IterationEvent.symbols).count id) (k, id) := by
    intro it k hit
    have hsub : ∀ es : List IterationEvent, (∀ e ∈ es, e ∈ it) →
        es.flatMap (IterationEvent.tags id k)
          = List.replicate ((es.flatMap IterationEvent.symbols).count id) (k, id) := by
      intro es
      induction es with
      | nil => exact fun _ => rfl
      | cons e es ih =>
          intro hes
          rcases List.forall_mem_cons.1 hes with ⟨he, hes⟩
          have hevent : e.tags id k = List.replicate (e.symbols.count id) (k, id) := by
            cases e with
            | seen instID =>
                by_cases hid : instID = id
                · simp [IterationEvent.tags, IterationEvent.symbols, hid]
                · simp [IterationEvent.tags, IterationEvent.symbols, hid]
            | dump => rfl
            | call callID body =>
                -- nothing of the instruction is in the body of a call
                have hbody := List.count_eq_zero.2 (not_seen_in_call (hcalls callID) hit he)
                by_cases hid : callID = id
                · simp [IterationEvent.tags, IterationEvent.symbols, hbody, hid]
                · simp [IterationEvent.tags, IterationEvent.symbols, hbody, hid]
          rw [List.flatMap_cons, List.flatMap_cons, List.count_append, hevent, ih hes,
            List.replicate_append_replicate]
    exact hsub it fun _ he => he
  rw [tags, iterationBlocks, List.flatMap_map, List.flatMap_def, List.flatMap_def]
  refine congrArg List.flatten (List.ext_getElem? fun k => ?_)
  rw [List.getElem?_map, List.getElem?_map, List.getElem?_zipIdx, iterationSymbols, List.length_map,
    Nat.zero_add]
  cases hk : inv.iterations[k]? with
  | none =>
      rw [List.getElem?_eq_none (by simpa using hk)]
      rfl
  | some it =>
      have hlt := (List.getElem?_eq_some_iff.1 hk).1
      rw [List.getElem?_range hlt, Option.map_some, Option.map_some, Option.map_some,
        hevents it k (List.mem_of_getElem? hk), Block.tags, seenIn, List.getElem?_map, hk]
      rfl

/-- An instruction that is seen in calls only. -/
theorem tags_eq_callsMade (hzero : numSeen inv.iterationSymbols id = 0) :
    inv.tags id = inv.callsMade.flatMap fun c => List.replicate (c.2.2.count id) (c.2.1, c.1) := by
  rw [numSeen_eq_count, List.count_eq_zero] at hzero
  rw [tags, callsMade, List.flatMap_assoc]
  refine List.flatMap_congr fun i hi => ?_
  have hit := List.mem_of_getElem? (List.mem_zipIdx_iff_getElem?.1 hi)
  rw [callsIn, List.flatMap_map, List.flatMap_assoc]
  refine List.flatMap_congr fun e he => ?_
  cases e with
  | seen instID =>
      have hne : instID ≠ id := by
        rintro rfl
        refine hzero (List.mem_flatten.2 ⟨_, List.mem_map_of_mem hit, ?_⟩)
        exact List.mem_flatMap.2 ⟨_, he, List.mem_singleton_self _⟩
      simp [IterationEvent.tags, IterationEvent.callMade, hne]
  | dump => rfl
  | call callID body =>
      have hne : callID ≠ id := by
        rintro rfl
        refine hzero (List.mem_flatten.2 ⟨_, List.mem_map_of_mem hit, ?_⟩)
        exact List.mem_flatMap.2 ⟨_, he, List.mem_singleton_self _⟩
      simp [IterationEvent.tags, IterationEvent.callMade, hne]

/-- The calls that see an instruction have all of its instances. -/
theorem flatMap_callsSeeing (inv : LoopInvocation) (id : UInt64) :
    (inv.callsSeeing id).flatMap (fun c => List.replicate (c.2.2.count id) (c.2.1, c.1.1))
      = inv.callsMade.flatMap fun c => List.replicate (c.2.2.count id) (c.2.1, c.1) := by
  have hmade : inv.executedCalls.map (fun c => (c.1.1, c.2)) = inv.callsMade :=
    map_snd_numberFrom _ _
  have hfilter : ∀ cs : List ((UInt64 × Nat) × Nat × List UInt64),
      (cs.filter fun c => c.2.2.contains id).flatMap
          (fun c => List.replicate (c.2.2.count id) (c.2.1, c.1.1))
        = cs.flatMap fun c => List.replicate (c.2.2.count id) (c.2.1, c.1.1) := by
    intro cs
    induction cs with
    | nil => rfl
    | cons c cs ih =>
        by_cases hc : c.2.2.contains id = true
        · rw [List.filter_cons, if_pos hc, List.flatMap_cons, List.flatMap_cons, ih]
        · have hnone : c.2.2.count id = 0 := by
            rw [List.count_eq_zero]
            exact fun hmem => hc (List.contains_iff_mem.2 hmem)
          rw [List.filter_cons, if_neg hc, List.flatMap_cons, ih, hnone]
          rfl
  rw [callsSeeing, hfilter, ← hmade, List.flatMap_map]

/-- The instances of an instruction that is seen in calls only, call by call. -/
theorem tags_eq_callsSeeing (hzero : numSeen inv.iterationSymbols id = 0) :
    inv.tags id
      = (inv.callsSeeing id).flatMap fun c => List.replicate (c.2.2.count id) (c.2.1, c.1.1) :=
  (tags_eq_callsMade hzero).trans (inv.flatMap_callsSeeing id).symm

/-- An invocation in which nothing is seen has no instances. -/
theorem tags_eq_nil (hempty : inv.iterationSymbols.flatten = []) : inv.tags id = [] := by
  have hzero : numSeen inv.iterationSymbols id = 0 := by
    rw [numSeen_eq_count, hempty, List.count_nil]
  rw [tags_eq_callsSeeing hzero, inv.callsSeeing_eq_nil hempty]
  rfl

end LoopInvocation

section CallBlocks

variable {inv : LoopInvocation} {order : List (UInt64 × Nat)} {id : UInt64}

/-- The calls in the order of the cache that see an instruction. -/
theorem perm_callsSeeing (id : UInt64) (hperm : order.Perm (inv.executedCalls.map Prod.fst)) :
    (order.filter fun p =>
      0 < CallTraceLoopInvocationGroup.seenInCall inv.recorded.calls id p).Perm
        ((inv.callsSeeing id).map Prod.fst) := by
  refine (hperm.filter _).trans (List.Perm.of_eq ?_)
  rw [List.filter_map, LoopInvocation.callsSeeing]
  refine congrArg (List.map Prod.fst) (List.filter_congr fun c hc => ?_)
  have hcount : CallTraceLoopInvocationGroup.seenInCall inv.recorded.calls id c.1 = c.2.2.count id :=
    LoopInvocation.seenInCall_eq hc id
  rw [Function.comp_apply, hcount, Bool.eq_iff_iff, decide_eq_true_iff, List.count_pos_iff,
    List.contains_iff_mem]

/-- The instances in a call, in the iteration that the loop trace has for it. -/
def callTags (inv : LoopInvocation) (id : UInt64) (p : UInt64 × Nat) : List (Nat × UInt64) :=
  List.replicate (CallTraceLoopInvocationGroup.seenInCall inv.recorded.calls id p)
    (iterationOf inv.iterationSymbols p.1 p.2, p.1)

theorem flatMap_tags_callBlocks (inv : LoopInvocation) (order : List (UInt64 × Nat)) (id : UInt64) :
    (callBlocks inv.recorded order id).flatMap Block.tags
      = (order.filter fun p =>
          0 < CallTraceLoopInvocationGroup.seenInCall inv.recorded.calls id p).flatMap
            (callTags inv id) := by
  rw [callBlocks, List.flatMap_map]
  rfl

/-- The calls in the order in which they are made, where the loop trace has them in their
iterations. -/
theorem flatMap_callTags (hiterations : ∀ c ∈ inv.callsSeeing id,
      iterationOf inv.iterationSymbols c.1.1 c.1.2 = c.2.1) :
    ((inv.callsSeeing id).map Prod.fst).flatMap (callTags inv id)
      = inv.callsMade.flatMap fun c => List.replicate (c.2.2.count id) (c.2.1, c.1) := by
  rw [← LoopInvocation.flatMap_callsSeeing, List.flatMap_map]
  refine List.flatMap_congr fun c hc => ?_
  have hcount : CallTraceLoopInvocationGroup.seenInCall inv.recorded.calls id c.1 = c.2.2.count id :=
    LoopInvocation.seenInCall_eq (LoopInvocation.mem_callsSeeing.1 hc).1 id
  rw [callTags, hcount, hiterations c hc]

/-- The calls in the order of the cache are the calls in the order in which they are made. -/
theorem tags_callBlocks {iter : UInt64 → Nat → Nat}
    (hperm : order.Perm (inv.executedCalls.map Prod.fst)) (hsorted : order.Pairwise (Before iter))
    (hkept : ((inv.callsSeeing id).map Prod.fst).Pairwise (Before iter))
    (hiterations : ∀ c ∈ inv.callsSeeing id,
      iterationOf inv.iterationSymbols c.1.1 c.1.2 = c.2.1) :
    (callBlocks inv.recorded order id).flatMap Block.tags
      = inv.callsMade.flatMap fun c => List.replicate (c.2.2.count id) (c.2.1, c.1) := by
  have horder := eq_of_before (hsorted.sublist List.filter_sublist) hkept fun p =>
    (perm_callsSeeing id hperm).mem_iff
  rw [flatMap_tags_callBlocks, horder, flatMap_callTags hiterations]

end CallBlocks

/-! ## One invocation -/

section Invocation

variable {subInstrList : Finset UInt64} {built inv : LoopInvocation} {order : List (UInt64 × Nat)}

/-- As many instances are counted as there are in the blocks, if an instruction that is seen in calls
is not seen in the loop. -/
theorem LoopInvocation.instancesCounted_eq {id : UInt64}
    (hseparate : id ∈ subInstrList → numSeen inv.iterationSymbols id = 0)
    (hsub : ∀ callID, id ∈ (inv.instances callID).flatten → id ∈ subInstrList) :
    instancesCounted subInstrList inv.recorded order id
      = Block.total (instanceBlocks inv.recorded order id) := by
  by_cases hseen : 0 < numSeen inv.iterationSymbols id
  · have hnot : id ∉ subInstrList := fun hmem => by
      rw [hseparate hmem] at hseen
      exact Nat.lt_irrefl 0 hseen
    have hblocks : instanceBlocks inv.recorded order id
        = iterationBlocks inv.iterationSymbols id := if_pos hseen
    rw [instancesCounted, if_neg hnot, hblocks, total_iterationBlocks]
    rfl
  · have hblocks : instanceBlocks inv.recorded order id
        = CamAlias.callBlocks inv.recorded order id := if_neg hseen
    rw [hblocks, total_callBlocks]
    by_cases hmem : id ∈ subInstrList
    · rw [instancesCounted, if_pos hmem]
    · -- no call sees the instruction
      have hnone : ∀ p, CallTraceLoopInvocationGroup.seenInCall inv.recorded.calls id p = 0 := by
        intro p
        refine List.count_eq_zero.2 fun hid => hmem (hsub p.1 ?_)
        cases hget : (inv.instances p.1)[p.2]? with
        | none =>
            have hget : (inv.recorded.calls p.1)[p.2]? = none := hget
            rw [hget] at hid
            cases hid
        | some symbols =>
            have hsymbols : (inv.recorded.calls p.1)[p.2]? = some symbols := hget
            rw [hsymbols] at hid
            exact List.mem_flatten.2 ⟨symbols, List.mem_of_getElem? hget, hid⟩
      rw [instancesCounted, if_neg hmem]
      have hzero : numSeen inv.recorded.iterations id = 0 := Nat.eq_zero_of_not_pos hseen
      refine hzero.trans (List.sum_eq_zero fun n hn => ?_).symm
      rcases List.mem_map.1 hn with ⟨p, -, rfl⟩
      exact hnone p

/-- What the control flow traces have of the instances of an instruction is where they are, if it is
either seen in the loop or in calls, and the calls are made in the order of the cache. -/
theorem LoopInvocation.instanceBlocks_eq {id : UInt64} (hkept : OrderKept built inv)
    (hcalls : built.instances = inv.instances)
    (horder : CallOrder built.iterationSymbols inv.instances order)
    (hseparate : id ∈ subInstrList → numSeen inv.iterationSymbols id = 0)
    (hsub : ∀ callID, id ∈ (inv.instances callID).flatten → id ∈ subInstrList) :
    (instanceBlocks inv.recorded order id).flatMap Block.tags = inv.tags id := by
  by_cases hseen : 0 < numSeen inv.iterationSymbols id
  · have hblocks : instanceBlocks inv.recorded order id
        = iterationBlocks inv.iterationSymbols id := if_pos hseen
    rw [hblocks, tags_eq_iterationBlocks]
    intro callID hmem
    rw [hseparate (hsub callID hmem)] at hseen
    exact Nat.lt_irrefl 0 hseen
  · have hblocks : instanceBlocks inv.recorded order id
        = CamAlias.callBlocks inv.recorded order id := if_neg hseen
    have hperm := perm_executedCalls hkept.announced hcalls horder
    rw [hblocks, tags_eq_callsMade (Nat.eq_zero_of_not_pos hseen)]
    exact tags_callBlocks hperm horder.sorted (hkept.order id) (hkept.iterations id)

/-- The traces are in step with the references of a stream if and only if these keep pace with the
instances. -/
theorem MemoryInvocation.inStepWith_iff {inv : MemoryInvocation} {key : UInt64 × Stream}
    (hkept : OrderKept built inv.controlFlow)
    (hcalls : built.instances = inv.controlFlow.instances)
    (horder : CallOrder built.iterationSymbols inv.controlFlow.instances order)
    (hseparate : key.1 ∈ subInstrList → numSeen inv.controlFlow.iterationSymbols key.1 = 0)
    (hsub : ∀ callID, key.1 ∈ (inv.controlFlow.instances callID).flatten → key.1 ∈ subInstrList) :
    InStepWith subInstrList inv.controlFlow.recorded order key.1 (inv.made key) ↔
      inv.KeepsPace key := by
  have hblocks := LoopInvocation.instanceBlocks_eq hkept hcalls horder hseparate hsub
  constructor
  · intro h
    rw [KeepsPace, ← h.tags, hblocks]
  · intro h
    refine ⟨?_, hblocks.trans h.symm⟩
    rw [LoopInvocation.instancesCounted_eq hseparate hsub, ← Block.length_tags, hblocks, ← h,
      List.length_map]

end Invocation
end CamAlias
