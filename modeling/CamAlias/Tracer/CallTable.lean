import CamAlias.Compressor.Equality
import CamAlias.Tracer.Running

/-!
# CallTable — sharing call behaviour between invocations

The call traces of a loop invocation in which no dump is taken: every call starts a fresh trace or
is processed as the next instance of the trace of its ID.

`isEqual_recordCalls`: two such tables are found equal exactly when the same calls have been made with
the same instructions, although the offsets of the groups are not compared.
-/

namespace CamAlias

open Lib ControlFlowCompressor

/-! ## Building a table -/

/-- The next instance of a call, without a dump. -/
def CallTrace.process (trace : CallTrace) (instructions : List UInt64) : Option CallTrace :=
  (trace.processInvocation CallTrace.invocationsMatch (newCFC.insertSymbols instructions)
    trace.numInvocations true).map fun r => { r.1 with numInvocations := trace.numInvocations + 1 }

/-- The instances of one call, one after the other. -/
def CallTrace.processAll (trace : CallTrace) : List (List UInt64) → Option CallTrace
  | [] => some trace
  | instructions :: rest =>
      match trace.process instructions with
      | none => none
      | some trace => CallTrace.processAll trace rest

namespace CallTraces

/-- A call with the instructions seen in it. -/
def recordCall (callTraces : CallTraces) (call : UInt64 × List UInt64) : Option CallTraces :=
  (CallTrace.process ((callTraces.lookup call.1).getD ExecTrace.new) call.2).map fun trace =>
    HashTable.set callTraces call.1 trace

/-- The calls of a loop invocation, one after the other. -/
def recordCalls (callTraces : CallTraces) : List (UInt64 × List UInt64) → Option CallTraces
  | [] => some callTraces
  | call :: calls =>
      match callTraces.recordCall call with
      | none => none
      | some callTraces => recordCalls callTraces calls

/-- The instances of the call `id`. -/
def instancesOf (id : UInt64) (calls : List (UInt64 × List UInt64)) : List (List UInt64) :=
  (calls.filter fun call => call.1 = id).map Prod.snd

end CallTraces

/-- `CAM_profileCallInvocationStart`, the instructions and `CAM_profileCallInvocationEnd` record one
call. -/
theorem PassGlobals.callTraces_callInvocation {globals : PassGlobals} {loop : RunningLoop}
    {calls : List RunningCall} (h : globals.runningStack = some (loop, calls)) (callID : UInt64)
    (instructions : List UInt64) :
    ((instructions.foldl seenInstruction (globals.callInvocationStart callID)).callInvocationEnd).map
        (fun globals => globals.callTraces)
      = globals.callTraces.recordCall (callID, instructions) := by
  let trace := (globals.callTraces.lookup callID).getD ExecTrace.new
  have hseen : ∀ (instructions : List UInt64) (globals : PassGlobals) (call : RunningCall),
      globals.runningStack = some (loop, call :: calls) →
      instructions.foldl seenInstruction globals = { globals with
        runningStack := some (loop,
          { call with currCFC := call.currCFC.insertSymbols instructions } :: calls) } := by
    intro instructions
    induction instructions with
    | nil =>
        intro globals call hstack
        simp [insertSymbols, ← hstack]
    | cons instID instructions ih =>
        intro globals call hstack
        have hone : globals.seenInstruction instID = { globals with
            runningStack := some (loop,
              { call with currCFC := call.currCFC.insertSymbol instID } :: calls) } := by
          simp only [seenInstruction, hstack]
        rw [List.foldl_cons, hone, ih _ _ rfl]
        rfl
  have hstart : globals.callInvocationStart callID = { globals with
      callTraces := HashTable.set globals.callTraces callID
        { trace with numInvocations := trace.numInvocations + 1 }
      runningStack := some (loop, ⟨callID, trace.numInvocations, false, newCFC⟩ :: calls) } := by
    simp only [callInvocationStart, h, trace]
  rw [hstart, hseen _ _ _ rfl]
  simp only [callInvocationEnd, finishCall, HashTable.lookup_set, if_true, Bool.not_false,
    CallTraces.recordCall, CallTrace.process, ExecTrace.processInvocation, trace]
  cases ((globals.callTraces.lookup callID).getD ExecTrace.new).groups.share
      CallTrace.invocationsMatch (newCFC.insertSymbols instructions)
      ((globals.callTraces.lookup callID).getD ExecTrace.new).numInvocations true with
  | none => rfl
  | some r => simp [HashTable.set_set]

/-! ## What a trace holds -/

/-- The control flow of an instance, as long as no count can leave 64 bits. -/
def IsControlFlow (c : ControlFlowCompressor) (symbols : List UInt64) : Prop :=
  (∀ s, symbols.count s < 2 ^ 64) → Compresses c.contents symbols

/-- The trace holds the instances, in the order of the groups. -/
structure CallTrace.Holds (trace : CallTrace) (instances : List (List UInt64)) : Prop where
  groups : Groups IsControlFlow 0 instances trace.groups.groups
  firstSeen : FirstSeen 0 (fun _ => False) trace.groups.groups
  count : trace.numInvocations = instances.length

namespace CallTrace

theorem Holds.new : CallTrace.Holds ExecTrace.new [] where
  groups := Groups.nil
  firstSeen := trivial
  count := rfl

theorem Holds.process {trace : CallTrace} {instances : List (List UInt64)}
    (h : trace.Holds instances) (instructions : List UInt64) :
    ∃ trace', trace.process instructions = some trace' ∧
      trace'.Holds (instances ++ [instructions]) := by
  have hpayload : IsControlFlow (newCFC.insertSymbols instructions) instructions := fun hbound =>
    compresses_insertSymbols compressionWindowSize hbound
  have hmatch : ∀ info ∈ trace.groups.infos, info.partiallyDumped = false →
      CallTrace.invocationsMatch (newCFC.insertSymbols instructions) info.payload = true →
      IsControlFlow info.payload instructions := by
    intro info _ _ hbeq hbound
    have hcontents := (ControlFlowCompressor.beq_iff _ _).1 hbeq
    rw [← hcontents]
    exact hpayload hbound
  rcases ShareTable.share_groups h.groups hpayload hmatch true with
    ⟨groups', found, hshare, hgroups, hseen⟩
  rw [Nat.zero_add, ← h.count] at hshare
  refine ⟨{ trace with groups := groups', numInvocations := trace.numInvocations + 1 }, ?_, hgroups,
    hseen _ h.firstSeen, ?_⟩
  · simp only [CallTrace.process, ExecTrace.processInvocation, hshare, Option.map_some]
  · simp [h.count]

theorem processAll_append (trace : CallTrace) (xs : List (List UInt64)) (x : List UInt64) :
    trace.processAll (xs ++ [x]) = (trace.processAll xs).bind fun trace => trace.process x := by
  induction xs generalizing trace with
  | nil =>
      simp only [List.nil_append, processAll, Option.bind_some]
      cases trace.process x <;> rfl
  | cons y ys ih =>
      simp only [List.cons_append, processAll]
      cases trace.process y with
      | none => rfl
      | some trace => exact ih trace

end CallTrace

/-! ## What a table holds -/

namespace CallTraces

/-- Every trace has been built from the instances of its ID, and there is one for every ID. -/
structure BuiltFrom (callTraces : CallTraces) (calls : List (UInt64 × List UInt64)) : Prop where
  distinct : (callTraces.map Prod.fst).Nodup
  trace : ∀ id, ∃ trace, CallTrace.processAll ExecTrace.new (instancesOf id calls) = some trace ∧
    trace.Holds (instancesOf id calls) ∧
    callTraces.lookup id = if instancesOf id calls = [] then none else some trace

theorem instancesOf_append (id : UInt64) (calls : List (UInt64 × List UInt64))
    (call : UInt64 × List UInt64) :
    instancesOf id (calls ++ [call])
      = if call.1 = id then instancesOf id calls ++ [call.2] else instancesOf id calls := by
  by_cases h : call.1 = id <;> simp [instancesOf, h]

theorem BuiltFrom.nil : BuiltFrom [] [] where
  distinct := List.nodup_nil
  trace := fun _ => ⟨ExecTrace.new, rfl, CallTrace.Holds.new, rfl⟩

theorem BuiltFrom.recordCall {callTraces : CallTraces} {calls : List (UInt64 × List UInt64)}
    (h : callTraces.BuiltFrom calls) (call : UInt64 × List UInt64) :
    ∃ callTraces', callTraces.recordCall call = some callTraces' ∧
      callTraces'.BuiltFrom (calls ++ [call]) := by
  rcases h.trace call.1 with ⟨trace, hall, hholds, hlookup⟩
  have htrace : (callTraces.lookup call.1).getD ExecTrace.new = trace := by
    rw [hlookup]
    by_cases hnil : instancesOf call.1 calls = []
    · rw [hnil] at hall
      rw [if_pos hnil]
      exact Option.some.inj hall
    · rw [if_neg hnil]
      rfl
  rcases hholds.process call.2 with ⟨trace', hprocess, hholds'⟩
  refine ⟨HashTable.set callTraces call.1 trace', ?_, HashTable.nodup_set h.distinct, ?_⟩
  · simp only [CallTraces.recordCall, htrace, hprocess, Option.map_some]
  · intro id
    rw [instancesOf_append, HashTable.lookup_set]
    by_cases hid : call.1 = id
    · subst hid
      refine ⟨trace', ?_, ?_, ?_⟩
      · rw [if_pos rfl, CallTrace.processAll_append, hall]
        exact hprocess
      · rwa [if_pos rfl]
      · simp
    · rw [if_neg hid, if_neg (Ne.symm hid)]
      exact h.trace id

theorem BuiltFrom.recordCalls {callTraces : CallTraces} {before : List (UInt64 × List UInt64)}
    (h : callTraces.BuiltFrom before) (calls : List (UInt64 × List UInt64)) :
    ∃ callTraces', callTraces.recordCalls calls = some callTraces' ∧
      callTraces'.BuiltFrom (before ++ calls) := by
  induction calls generalizing callTraces before with
  | nil => exact ⟨callTraces, rfl, by simpa using h⟩
  | cons call calls ih =>
      rcases h.recordCall call with ⟨next, hnext, hbuilt⟩
      rcases ih hbuilt with ⟨last, hlast, hbuilt'⟩
      refine ⟨last, ?_, by simpa using hbuilt'⟩
      simp only [CallTraces.recordCalls, hnext, hlast]

/-- The table stands for the instances of every call. -/
theorem BuiltFrom.stands {callTraces : CallTraces} {calls : List (UInt64 × List UInt64)}
    (h : callTraces.BuiltFrom calls) (hcount : ∀ call ∈ calls, ∀ s, call.2.count s < 2 ^ 64) :
    callTraces.Stands fun id => ⟨0, instancesOf id calls⟩ := by
  have hinfos : ∀ id, ∃ trace : CallTrace, trace.Holds (instancesOf id calls) ∧
      callTraces.infosOf id = trace.groups.infos := by
    intro id
    rcases h.trace id with ⟨trace, -, hholds, hlookup⟩
    refine ⟨trace, hholds, ?_⟩
    rw [infosOf, hlookup]
    by_cases hnil : instancesOf id calls = []
    · rw [if_pos hnil]
      have hgroups := hholds.groups
      rw [hnil] at hgroups
      cases hcases : trace.groups.infos with
      | nil => rfl
      | cons info infos =>
          have hmem : info.group ∈ trace.groups.groups := by simp [ShareTable.groups, hcases]
          rcases List.exists_mem_of_ne_nil _ (hgroups.nonempty _ hmem) with ⟨k, hk⟩
          have := hgroups.bounds hmem hk
          simp only [List.length_nil] at this
          omega
    · rw [if_neg hnil]
      rfl
  refine ⟨h.distinct, ?_, ?_⟩
  · intro id
    rcases hinfos id with ⟨trace, hholds, heq⟩
    rw [SymbolGroups, heq]
    refine Groups.image hholds.groups (fun _ _ => rfl) ?_
    intro info _ symbols hsymbols hflow
    rcases List.mem_map.1 hsymbols with ⟨call, hcall, rfl⟩
    exact hflow (hcount call (List.mem_filter.1 hcall).1)
  · intro id
    rcases hinfos id with ⟨trace, hholds, heq⟩
    rw [heq]
    exact hholds.firstSeen

/-! ## Comparing two tables -/

theorem BuiltFrom.mem_keys_iff {callTraces : CallTraces} {calls : List (UInt64 × List UInt64)}
    (h : callTraces.BuiltFrom calls) (id : UInt64) :
    id ∈ callTraces.map Prod.fst ↔ instancesOf id calls ≠ [] := by
  rcases h.trace id with ⟨trace, -, -, hlookup⟩
  constructor
  · intro hid hnil
    rcases List.mem_map.1 hid with ⟨item, hitem, rfl⟩
    rw [HashTable.lookup_of_mem h.distinct hitem, if_pos hnil] at hlookup
    simp at hlookup
  · intro hne
    rw [if_neg hne] at hlookup
    exact List.mem_map_of_mem (HashTable.mem_of_lookup hlookup)

theorem CallTrace.beq_self (trace : CallTrace) : trace.beq trace = true := by
  have hinfos : ∀ infos : List (SharedInfo ControlFlowCompressor),
      CallTrace.beqInfos infos infos = true := by
    intro infos
    induction infos with
    | nil => rfl
    | cons info infos ih =>
        simp [CallTrace.beqInfos, CallTrace.invocationsMatch, ih, XanBitSet.equal,
          (ControlFlowCompressor.beq_iff info.payload info.payload).2 rfl]
  exact hinfos _

/-- Tables built from the same instances are found equal. -/
theorem BuiltFrom.isEqual {callTraces callTraces' : CallTraces}
    {calls calls' : List (UInt64 × List UInt64)} (h : callTraces.BuiltFrom calls)
    (h' : callTraces'.BuiltFrom calls')
    (hsame : ∀ id, instancesOf id calls = instancesOf id calls') :
    isEqual callTraces callTraces' = true := by
  have hlookup : ∀ id, callTraces.lookup id = callTraces'.lookup id := by
    intro id
    rcases h.trace id with ⟨trace, hall, -, hlookup⟩
    rcases h'.trace id with ⟨trace', hall', -, hlookup'⟩
    rw [← hsame id, hall, Option.some.injEq] at hall'
    rw [hlookup, hlookup', hsame id, hall']
  have hkeys : (callTraces.map Prod.fst).Perm (callTraces'.map Prod.fst) := by
    rw [List.perm_ext_iff_of_nodup h.distinct h'.distinct]
    intro id
    rw [h.mem_keys_iff, h'.mem_keys_iff, hsame id]
  have hlen : callTraces.length = callTraces'.length := by simpa using hkeys.length_eq
  simp only [CallTraces.isEqual, hlen, beq_self_eq_true, Bool.true_and, List.all_eq_true]
  intro item hitem
  rw [← hlookup, HashTable.lookup_of_mem h.distinct hitem]
  exact CallTrace.beq_self item.2

end CallTraces

/-- Groups of one list cannot stand for two sequences. -/
theorem SymbolGroups.values_eq {infos : List (SharedInfo ControlFlowCompressor)} {first : Nat}
    {values values' : List (List UInt64)} (h : SymbolGroups infos ⟨first, values⟩)
    (h' : SymbolGroups infos ⟨first, values'⟩) : values = values' := by
  have hlen : values.length = values'.length := by
    have hperm := (Groups.perm h).symm.trans (Groups.perm h')
    simpa using hperm.length_eq
  refine List.ext_getElem? ?_
  intro k
  by_cases hk : k < values.length
  · rcases Groups.exists_group h (k := first + k) (Nat.le_add_right _ _) (by simpa using hk) with
      ⟨g, hg, hmem⟩
    rcases Groups.value h g hg _ hmem with ⟨symbols, hsymbols, hcompresses⟩
    rcases Groups.value h' g hg _ hmem with ⟨symbols', hsymbols', hcompresses'⟩
    rw [Nat.add_sub_cancel_left] at hsymbols hsymbols'
    rw [hsymbols, hsymbols', ← hcompresses.expand_eq, hcompresses'.expand_eq]
  · rw [List.getElem?_eq_none (by omega), List.getElem?_eq_none (by omega)]

namespace CallTraces

/-- Below `2 ^ 64` occurrences of an instruction in a call, two tables are found equal exactly when
they have the same call IDs with the same instances. -/
theorem isEqual_recordCalls (calls calls' : List (UInt64 × List UInt64))
    (hcount : ∀ call ∈ calls, ∀ s, call.2.count s < 2 ^ 64)
    (hcount' : ∀ call ∈ calls', ∀ s, call.2.count s < 2 ^ 64) :
    ∃ callTraces callTraces' : CallTraces, recordCalls [] calls = some callTraces ∧
      recordCalls [] calls' = some callTraces' ∧
      (isEqual callTraces callTraces' = true ↔
        (∀ id, id ∈ callTraces.map Prod.fst ↔ id ∈ callTraces'.map Prod.fst) ∧
        ∀ id, instancesOf id calls = instancesOf id calls') := by
  rcases BuiltFrom.nil.recordCalls calls with ⟨callTraces, hrecord, hbuilt⟩
  rcases BuiltFrom.nil.recordCalls calls' with ⟨callTraces', hrecord', hbuilt'⟩
  rw [List.nil_append] at hbuilt hbuilt'
  refine ⟨callTraces, callTraces', hrecord, hrecord', ?_, fun h => hbuilt.isEqual hbuilt' h.2⟩
  intro hequal
  have hstands := stands_of_isEqual (hbuilt.stands hcount) (hbuilt'.stands hcount')
    (fun _ => rfl) (fun _ => rfl) hequal
  have hsame : ∀ id, instancesOf id calls = instancesOf id calls' := fun id =>
    (hstands.groups id).values_eq ((hbuilt'.stands hcount').groups id)
  refine ⟨?_, hsame⟩
  intro id
  rw [hbuilt.mem_keys_iff, hbuilt'.mem_keys_iff, hsame id]

/-- Two instances of call 5 and one of call 6, recorded in another order. -/
theorem isEqual_recordCalls_swapped :
    ∃ callTraces callTraces' : CallTraces,
      recordCalls [] [(5, [1, 1]), (6, []), (5, [2])] = some callTraces ∧
      recordCalls [] [(6, []), (5, [1, 1]), (5, [2])] = some callTraces' ∧
      (isEqual callTraces callTraces' = true ↔
        (∀ id, id ∈ callTraces.map Prod.fst ↔ id ∈ callTraces'.map Prod.fst) ∧
        ∀ id, instancesOf id [(5, [1, 1]), (6, []), (5, [2])]
          = instancesOf id [(6, []), (5, [1, 1]), (5, [2])]) := by
  refine isEqual_recordCalls [(5, [1, 1]), (6, []), (5, [2])] [(6, []), (5, [1, 1]), (5, [2])] ?_ ?_
  · intro call hcall s
    have hlen : call.2.length ≤ 2 := by
      revert call
      decide
    exact Nat.lt_of_le_of_lt List.count_le_length (by omega)
  · intro call hcall s
    have hlen : call.2.length ≤ 2 := by
      revert call
      decide
    exact Nat.lt_of_le_of_lt List.count_le_length (by omega)

/-- A call with two instructions and one with `2 ^ 64 + 2` of the same instruction are found
equal. -/
theorem isEqual_recordCalls_two_pow_64_add_two :
    ¬ ∀ calls calls' : List (UInt64 × List UInt64), ∀ callTraces callTraces' : CallTraces,
      recordCalls [] calls = some callTraces → recordCalls [] calls' = some callTraces' →
      isEqual callTraces callTraces' = true →
      ∀ id, instancesOf id calls = instancesOf id calls' := by
  intro h
  have hflow : newCFC.insertSymbols (List.replicate (2 ^ 64 + 2) 1)
      = newCFC.insertSymbols (List.replicate (0 + 2) 1) := by
    have hmod : (2 ^ 64 + 2) % 2 ^ 64 = (0 + 2) % 2 ^ 64 := by omega
    rw [newCFC, insertSymbols_replicate (by decide), insertSymbols_replicate (by decide), hmod]
  rcases BuiltFrom.nil.recordCalls [(5, List.replicate (0 + 2) 1)] with ⟨table, hrecord, hbuilt⟩
  have hrecord' : recordCalls [] [(5, List.replicate (2 ^ 64 + 2) 1)] = some table := by
    rw [← hrecord]
    simp only [recordCalls, recordCall, CallTrace.process, hflow]
  have hsame := h _ _ table table hrecord hrecord' (hbuilt.isEqual hbuilt fun _ => rfl) 5
  simp only [instancesOf, List.filter_cons, decide_true, if_true, List.filter_nil, List.map_cons,
    List.map_nil, List.cons.injEq, and_true] at hsame
  have hlen := congrArg List.length hsame
  rw [List.length_replicate, List.length_replicate] at hlen
  omega

end CallTraces
end CamAlias
