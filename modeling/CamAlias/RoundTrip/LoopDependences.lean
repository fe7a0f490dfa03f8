import CamAlias.Dependence.OverlapIterator
import CamAlias.RoundTrip.MemoryExecution

/-!
# LoopDependences — the dependences that are found in the traces of an execution

The whole way of a loop through the tool: an execution is traced, and its traces are analysed.  The
analysis finds the dependences that the references of the execution have across iterations, as far as
the pair of instructions has not been erased in an earlier invocation (`findsDependences`).  If every
instruction that is only seen in calls is seen under one call ID, this is all of them
(`findsLoopCarried`).
-/

namespace CamAlias

open Lib

/-! ## What is to be found -/

/-- Two references of an invocation to these streams, in different iterations, share a byte.  The
dependence is between their effective instructions. -/
def LoopCarried (invs : List MemoryInvocation) (memtraceInstrIDs : List UInt64 × List UInt64)
    (WAW : Bool) (x : UInt64 × UInt64) : Prop :=
  ∃ inv ∈ invs, ∃ wi ∈ memtraceInstrIDs.2,
    ∃ ri ∈ if WAW then memtraceInstrIDs.2 else memtraceInstrIDs.1,
      ∃ w ∈ inv.made (wi, .write), ∃ r ∈ inv.made (ri, secondStream WAW),
        w.1.1 ≠ r.1.1 ∧ w.2.SharesByte r.2 ∧ x = (w.1.2, r.1.2)

/-- What the memory accesses of an execution are to be like: an instance of an instruction makes one
reference to each of its streams, an instruction is not seen both in the loop and in calls, and all
references are in user space. -/
structure Regular (invs : List MemoryInvocation) (memtraceInstrIDs : List UInt64 × List UInt64) :
    Prop where
  once : ∀ key, Opened memtraceInstrIDs key → ∀ inv ∈ invs, inv.OncePerInstance key
  separate : ∀ key, Opened memtraceInstrIDs key →
    (∃ inv ∈ invs, ∃ callID, key.1 ∈ (inv.controlFlow.instances callID).flatten) →
      ∀ inv ∈ invs, key.1 ∉ inv.controlFlow.iterationSymbols.flatten
  userSpace : ∀ key, Opened memtraceInstrIDs key → ∀ inv ∈ invs, ∀ r ∈ inv.made key,
    r.2.InUserSpace

/-- The references of an execution to a stream. -/
def streamOf (invs : List MemoryInvocation) (key : UInt64 × Stream) : List Reference :=
  recorded (invs.flatMap MemoryInvocation.memoryCalls) key.1 key.2

/-- The reads are those of what the memory tracer has written of a stream. -/
structure ReadsStream (invs : List MemoryInvocation) (key : UInt64 × Stream)
    (reads : List BzRead) : Prop where
  delivers : Delivers false reads
  first : FirstSeparated reads
  text : textOf reads
    = (MemoryTracer.run (invs.flatMap MemoryInvocation.memoryCalls)).shutdown key.1 key.2

/-- The control flow of an execution. -/
def controlFlows (invs : List MemoryInvocation) : List LoopInvocation :=
  invs.map MemoryInvocation.controlFlow

/-- How the traces of an execution are analysed. -/
structure AnalysisSetup where
  args : AnalysisArgs := {}
  ddgs : DdgFiles := {}
  memtraceInstrIDs : List UInt64 × List UInt64
  isAlias : MemSetEntry → MemSetEntry → Option Bool
  sorter : StartSort Nat MemSetEntry

/-- From the traces of the execution, in whatever reads they come, the analysis comes to a result with
this property. -/
def FindsThat (loopID : UInt64) (invs : List MemoryInvocation) (setup : AnalysisSetup)
    (P : StaticDDGLex × Findings → Prop) : Prop :=
  match LoopTracer.record (LoopTracer.inTime (executionCalls loopID (controlFlows invs))) with
  | none => False
  | some none => invs = []
  | some (some files) => ∀ (loopTrace callTrace : List BzRead)
      (memoryTraces : UInt64 × Stream → List BzRead) (fuel : Nat),
      Delivered files.loopTrace loopTrace → Delivered files.callTrace callTrace →
      (∀ key, Opened setup.memtraceInstrIDs key → ReadsStream invs key (memoryTraces key)) →
      (executionCalls loopID (controlFlows invs)).length < fuel →
      ∃ result, dependence_analysis setup.args setup.isAlias setup.sorter fuel loopTrace callTrace
          setup.ddgs setup.memtraceInstrIDs memoryTraces = .ok result ∧ P result

/-- The analysis finds the dependences `found`. -/
def FindsDependences (loopID : UInt64) (invs : List MemoryInvocation) (setup : AnalysisSetup)
    (found : Bool → UInt64 × UInt64 → Prop) : Prop :=
  FindsThat loopID invs setup fun result =>
    ∀ WAW x, (x ∈ if WAW then result.2.ww_dependence_pairs else result.2.rw_dependence_pairs) ↔
      found WAW x

/-- The instructions that are seen in the loop. -/
def loopInstrs (invs : List MemoryInvocation) : Finset UInt64 :=
  (invs.flatMap fun inv => inv.controlFlow.iterationSymbols.flatten).toFinset

/-- The instructions that are seen in calls. -/
def callInstrs (invs : List MemoryInvocation) : Finset UInt64 :=
  (invs.flatMap fun inv => inv.controlFlow.executedCalls.flatMap fun c => c.2.2).toFinset

/-! ## The streams of an execution -/

section Streams

variable {invs : List MemoryInvocation} {memtraceInstrIDs : List UInt64 × List UInt64}
  {key : UInt64 × Stream}

theorem getElem?_controlFlows {n : Nat} {inv : MemoryInvocation} (hget : invs[n]? = some inv) :
    (controlFlows invs)[n]? = some inv.controlFlow := by
  rw [controlFlows, List.getElem?_map, hget, Option.map_some]

/-- The references of all invocations to a stream are those that the memory tracer records. -/
theorem madeTo_map_made (invs : List MemoryInvocation) :
    madeTo (invs.map MemoryInvocation.made) = streamOf invs := by
  funext key
  rw [madeTo, streamOf, List.flatMap_map, List.map_flatMap, recorded, List.flatMap_assoc]
  refine List.flatMap_congr fun inv _ => ?_
  rw [MemoryInvocation.map_snd_made, recorded]

theorem Regular.inUserSpace (h : Regular invs memtraceInstrIDs) (hkey : Opened memtraceInstrIDs key) :
    ∀ r ∈ streamOf invs key, r.InUserSpace := by
  intro r hr
  rw [← madeTo_map_made, madeTo, List.flatMap_map] at hr
  rcases List.mem_map.1 hr with ⟨m, hm, rfl⟩
  rcases List.mem_flatMap.1 hm with ⟨inv, hinv, hm⟩
  exact h.userSpace key hkey inv hinv m hm

theorem readsStream_wholeRead (invs : List MemoryInvocation) (key : UInt64 × Stream)
    (hfew : (streamOf invs key).length < 2 ^ 64) :
    ReadsStream invs key (wholeRead
      ((MemoryTracer.run (invs.flatMap MemoryInvocation.memoryCalls)).shutdown key.1 key.2)) := by
  rcases MemoryTracer.shutdown_run (invs.flatMap MemoryInvocation.memoryCalls) key.1 key.2
    (Nat.le_of_lt hfew) with ⟨dumped, hfile, hexpand, -⟩
  have hlines := MemoryTraceStreamer.lines_dumped key.1 key.2 dumped (by rw [hexpand]; exact hfew)
  rw [← hfile] at hlines
  exact ⟨hlines.delivered.delivers, hlines.delivered.first, hlines.delivered.text⟩

/-- The streamer of a file. -/
theorem ReadsStream.streaming {reads : List BzRead} (h : ReadsStream invs key reads)
    (hfew : (streamOf invs key).length < 2 ^ 64)
    (huser : ∀ r ∈ streamOf invs key, r.InUserSpace) :
    MemoryTraceStreamer.Streaming (StrideIn (streamOf invs key)) (streamOf invs key) 0
      (MemoryTraceStreamer.new reads) := by
  rcases MemoryTracer.shutdown_run (invs.flatMap MemoryInvocation.memoryCalls) key.1 key.2
    (Nat.le_of_lt hfew) with ⟨dumped, hfile, hexpand, hstrides⟩
  have hexpand : dumped.flatMap TracerMemSet.expand = streamOf invs key := hexpand
  have hbase : ∀ s ∈ dumped, ∀ e ∈ s, e.base.toNat < 2 ^ 63 := by
    intro s hs e he
    have hmem := List.mem_flatMap.2 ⟨s, hs, base_mem_expand he⟩
    rw [hexpand] at hmem
    have hin := huser _ hmem
    have hpos := hin.length_pos
    have hend := hin.end_le
    simp only at hpos hend
    omega
  have hscan : scanSigned .start (textOf reads) = dumped.flatMap (streamNumbers key.1 key.2) := by
    rw [h.text, hfile]
    exact (Lib.Scans.flatMap fun s hs => scans_dumpStream key.1 key.2 (hbase s hs)).eq rfl
  have hlines : Lines (textOf reads) := by
    rw [h.text, hfile]
    exact MemoryTraceStreamer.lines_dumped key.1 key.2 dumped (by rwa [hexpand])
  have hstream := MemoryTraceStreamer.streaming_new key.1 key.2 dumped h.delivers h.first hlines hscan
    (by rwa [hexpand]) hstrides
  rwa [hexpand] at hstream

/-- The iteration does not matter for the number of instances. -/
theorem LoopInvocation.length_tags (inv : LoopInvocation) (id : UInt64) :
    (inv.tags id).length = (inv.iterations.flatten.map fun e => (e.tags id 0).length).sum := by
  have hevent : ∀ (e : IterationEvent) (k : Nat), (e.tags id k).length = (e.tags id 0).length := by
    intro e k
    cases e with
    | seen instID => simp only [IterationEvent.tags]; split <;> rfl
    | dump => rfl
    | call callID body =>
        simp only [IterationEvent.tags, List.length_append, List.length_replicate]
        split <;> rfl
  have hall : ∀ (its : List (List IterationEvent)) (k : Nat),
      ((its.zipIdx k).flatMap fun i => i.1.flatMap (IterationEvent.tags id i.2)).length
        = (its.flatten.map fun e => (e.tags id 0).length).sum := by
    intro its
    induction its with
    | nil => exact fun _ => rfl
    | cons it its ih =>
        intro k
        rw [List.zipIdx_cons, List.flatMap_cons, List.length_append, ih, List.flatten_cons,
          List.map_append, List.sum_append, List.length_flatMap]
        simp only [hevent]
  exact hall inv.iterations 0

/-- An instance of an instruction is a call of the interface. -/
theorem LoopInvocation.length_tags_le (inv : LoopInvocation) (loopID id : UInt64) :
    (inv.tags id).length ≤ (inv.apiCalls loopID).length := by
  rw [length_tags]
  refine inv.sum_events_le loopID fun e => ?_
  cases e with
  | seen instID =>
      simp only [IterationEvent.tags, IterationEvent.apiCalls]
      split
      · exact Nat.le_refl 1
      · exact Nat.zero_le _
  | dump => exact Nat.zero_le _
  | call callID body =>
      have hown : (if callID = id then [((0 : Nat), id)] else []).length ≤ 1 := by
        split
        · exact Nat.le_refl 1
        · exact Nat.zero_le 1
      have hsymbols := length_flatMap_symbols_le body
      have hcount : (body.flatMap CallEvent.symbols).count id
          ≤ (body.flatMap CallEvent.symbols).length := List.count_le_length
      simp only [IterationEvent.tags, IterationEvent.apiCalls, List.length_replicate,
        List.length_cons, List.length_append, List.length_map]
      omega

theorem sum_length_tags_le (loopID : UInt64) (invs : List MemoryInvocation) (id : UInt64) :
    (invs.map fun inv => (inv.controlFlow.tags id).length).sum
      ≤ (executionCalls loopID (controlFlows invs)).length := by
  rw [executionCalls, controlFlows, List.flatMap_map, List.length_flatMap]
  exact List.sum_le_sum fun inv _ => inv.controlFlow.length_tags_le loopID id

/-- The references to a stream are no more than the calls of the interface. -/
theorem length_streamOf_le (loopID : UInt64) (h : ∀ inv ∈ invs, inv.KeepsPace key) :
    (streamOf invs key).length ≤ (executionCalls loopID (controlFlows invs)).length := by
  rw [← madeTo_map_made, madeTo, List.length_map, List.flatMap_map, List.length_flatMap]
  refine Nat.le_trans (List.sum_le_sum fun inv hinv => ?_) (sum_length_tags_le loopID invs key.1)
  have hlength := congrArg List.length (h inv hinv)
  rw [List.length_map] at hlength
  exact Nat.le_of_eq hlength

/-- Nothing is referred to in an invocation in which nothing is seen. -/
theorem MemoryInvocation.KeepsPace.made_eq_nil {inv : MemoryInvocation}
    (h : inv.KeepsPace key) (hempty : inv.controlFlow.iterationSymbols.flatten = []) :
    inv.made key = [] := by
  have htags := h
  rw [MemoryInvocation.KeepsPace, LoopInvocation.tags_eq_nil hempty] at htags
  exact List.map_eq_nil_iff.1 htags

/-- An instruction that makes a reference is seen, in the loop or in a call. -/
theorem MemoryInvocation.KeepsPace.seen {inv : MemoryInvocation} (h : inv.KeepsPace key)
    (hne : inv.made key ≠ []) : key.1 ∈ inv.controlFlow.iterationSymbols.flatten ∨
      ∃ callID, key.1 ∈ (inv.controlFlow.instances callID).flatten := by
  by_cases hmem : key.1 ∈ inv.controlFlow.iterationSymbols.flatten
  · exact Or.inl hmem
  · have hzero : numSeen inv.controlFlow.iterationSymbols key.1 = 0 := by
      rw [numSeen_eq_count]
      exact List.count_eq_zero.2 hmem
    have htags := h
    rw [MemoryInvocation.KeepsPace, LoopInvocation.tags_eq_callsSeeing hzero] at htags
    have hcalls : inv.controlFlow.callsSeeing key.1 ≠ [] := by
      intro hnil
      rw [hnil] at htags
      exact hne (List.map_eq_nil_iff.1 htags)
    rcases List.exists_mem_of_ne_nil _ hcalls with ⟨c, hc⟩
    rcases LoopInvocation.mem_callsSeeing.1 hc with ⟨hc, hid⟩
    exact Or.inr ⟨c.1.1, List.mem_flatten.2
      ⟨_, List.mem_of_getElem? (inv.controlFlow.mem_executedCalls hc).1, hid⟩⟩

end Streams

/-! ## The traces of an execution -/

section Traces

variable {loopID : UInt64} {invs : List MemoryInvocation}
  {memtraceInstrIDs : List UInt64 × List UInt64} {groupOf : Nat → InvocationGroupCfc}
  {es : List CallTraceLoopInvocationGroup} {callList : List UInt64}
  {instrList subInstrList : Finset UInt64} {memoryTraces : UInt64 × Stream → List BzRead} {fuel : Nat}

/-- What the traces record of an execution. -/
def recordedFlows (invs : List MemoryInvocation) : List Invocation :=
  (controlFlows invs).map LoopInvocation.recorded

theorem mem_recordedFlows {inv : Invocation} :
    inv ∈ recordedFlows invs ↔ ∃ i ∈ invs, i.controlFlow.recorded = inv := by
  rw [recordedFlows, controlFlows, List.map_map, List.mem_map]
  rfl

theorem getElem?_recordedFlows {n : Nat} {inv : Invocation}
    (hget : (recordedFlows invs)[n]? = some inv) :
    ∃ i, invs[n]? = some i ∧ i.controlFlow.recorded = inv := by
  rw [recordedFlows, controlFlows, List.map_map, List.getElem?_map] at hget
  exact Option.map_eq_some_iff.1 hget

/-- The first invocation of a group in which anything is seen. -/
theorem InGroups.exists_built {R : LoopInvocation → LoopInvocation → Prop}
    (h : InGroups loopID (controlFlows invs) R)
    (hgroups : callTraceGroups loopID (controlFlows invs) = es.map fun e => numbers e.repetitions)
    {e : CallTraceLoopInvocationGroup} (he : e ∈ es) {n m : Nat} {i : MemoryInvocation}
    {built : Invocation} (hget : invs[n]? = some i) (hn : n ∈ numbers e.repetitions)
    (hfirst : FirstNonempty (recordedFlows invs) (numbers e.repetitions) m built) :
    ∃ b : LoopInvocation, built = b.recorded ∧ R b i.controlFlow := by
  rcases getElem?_recordedFlows hfirst.get with ⟨b, hb, rfl⟩
  refine ⟨b.controlFlow, rfl, ?_⟩
  refine h (numbers e.repetitions) ?_ m b.controlFlow (getElem?_controlFlows hb) hfirst n hn
    i.controlFlow (getElem?_controlFlows hget)
  rw [hgroups]
  exact List.mem_map_of_mem he

/-- The caches of all groups are built. -/
theorem InGroups.not_notFound
    (h : InGroups loopID (controlFlows invs) fun built _ => built.Announced)
    (hgroups : callTraceGroups loopID (controlFlows invs) = es.map fun e => numbers e.repetitions) :
    ¬ NotFound (recordedFlows invs) es := by
  rintro ⟨e, he, m, built, order, hfirst, horder, hnotFound⟩
  rcases getElem?_recordedFlows hfirst.get with ⟨i, hi, -⟩
  rcases h.exists_built hgroups he hi hfirst.mem hfirst with ⟨b, rfl, hannounced⟩
  exact hnotFound ((LoopInvocation.found_iff_announced horder).2 hannounced)

/-- The loop trace has the instances in the order of a cache. -/
theorem lt_numSeen_of_order {built inv : LoopInvocation} {order : List (UInt64 × Nat)}
    (hannounced : built.Announced) (hcalls : built.instances = inv.instances)
    (horder : CallOrder built.iterationSymbols inv.instances order) :
    ∀ p ∈ order, p.2 < numSeen inv.iterationSymbols p.1 := by
  intro p hp
  have hperm := LoopInvocation.perm_executedCalls hannounced hcalls horder
  rcases List.mem_map.1 (hperm.mem_iff.1 hp) with ⟨c, hc, rfl⟩
  exact LoopInvocation.lt_numSeen hc

/-- The references of an execution are in step with its traces. -/
theorem Regular.madeInStep (hregular : Regular invs memtraceInstrIDs)
    (hlen : (executionCalls loopID (controlFlows invs)).length < 2 ^ 64)
    (htraces : TracesDescribe (recordedFlows invs) groupOf es callList)
    (hsub : ∀ s, s ∈ subInstrList ↔
      ∃ inv ∈ recordedFlows invs, ∃ id, s ∈ (inv.calls id).flatten)
    (hkept : InGroups loopID (controlFlows invs) OrderKept)
    (hgroups : callTraceGroups loopID (controlFlows invs) = es.map fun e => numbers e.repetitions)
    {needs : UInt64 × Stream → Prop} (hneeds : ∀ key, needs key → Opened memtraceInstrIDs key)
    (hreads : ∀ key, Opened memtraceInstrIDs key → ReadsStream invs key (memoryTraces key))
    (hfuel : (executionCalls loopID (controlFlows invs)).length < fuel) :
    MadeInStep fuel (recordedFlows invs) es subInstrList needs memoryTraces
      (invs.map MemoryInvocation.made) := by
  have hsubOf : ∀ i ∈ invs, ∀ s callID, s ∈ (i.controlFlow.instances callID).flatten →
      s ∈ subInstrList := fun i hi s callID hs =>
    (hsub s).2 ⟨_, mem_recordedFlows.2 ⟨i, hi, rfl⟩, callID, hs⟩
  -- an instruction that is seen in a call is not seen in the loop
  have hseparate : ∀ i ∈ invs, ∀ key, needs key → key.1 ∈ subInstrList →
      numSeen i.controlFlow.iterationSymbols key.1 = 0 := by
    intro i hi key hkey hmem
    rcases (hsub key.1).1 hmem with ⟨inv, hinv, callID, hid⟩
    rcases mem_recordedFlows.1 hinv with ⟨i', hi', rfl⟩
    rw [numSeen_eq_count]
    exact List.count_eq_zero.2
      (hregular.separate key (hneeds key hkey) ⟨i', hi', callID, hid⟩ i hi)
  have hpace := fun key (hkey : needs key) i (hi : i ∈ invs) =>
    (hregular.once key (hneeds key hkey) i hi).keepsPace
  have hlengths := fun key (hkey : needs key) => length_streamOf_le loopID (hpace key hkey)
  have huser := fun key (hkey : needs key) => hregular.inUserSpace (hneeds key hkey)
  refine ⟨?_, ?_, ?_, ?_, ?_, ?_, ?_, ?_⟩
  · rw [recordedFlows, controlFlows, List.length_map, List.length_map, List.length_map]
  · intro key hkey
    rw [madeTo_map_made]
    exact (hreads key (hneeds key hkey)).streaming (Nat.lt_of_le_of_lt (hlengths key hkey) hlen)
      (huser key hkey)
  · intro key hkey
    rw [madeTo_map_made]
    exact Nat.le_trans (hlengths key hkey) (Nat.le_of_lt hfuel)
  · intro key hkey
    rw [madeTo_map_made]
    exact huser key hkey
  · rintro n inv order hget ⟨e, he, hn, m, built, hfirst, horder⟩
    rcases getElem?_recordedFlows hget with ⟨i, hi, rfl⟩
    rcases hkept.exists_built hgroups he hi hn hfirst with ⟨b, rfl, horderKept⟩
    exact lt_numSeen_of_order horderKept.announced
      (htraces.calls_eq he hfirst.mem hfirst.get hn hget) horder
  · intro inv hinv key hkey hmem
    rcases mem_recordedFlows.1 hinv with ⟨i, hi, rfl⟩
    exact hseparate i hi key hkey hmem
  · intro n inv refs hget hmade hempty key hkey
    rcases getElem?_recordedFlows hget with ⟨i, hi, rfl⟩
    rw [List.getElem?_map, hi, Option.map_some] at hmade
    rcases Option.some.inj hmade with rfl
    exact (hpace key hkey i (List.mem_of_getElem? hi)).made_eq_nil hempty
  · rintro n inv refs order hget hmade - ⟨e, he, hn, m, built, hfirst, horder⟩ - key hkey
    rcases getElem?_recordedFlows hget with ⟨i, hi, rfl⟩
    rw [List.getElem?_map, hi, Option.map_some] at hmade
    rcases Option.some.inj hmade with rfl
    rcases hkept.exists_built hgroups he hi hn hfirst with ⟨b, rfl, horderKept⟩
    have hi := List.mem_of_getElem? hi
    exact (MemoryInvocation.inStepWith_iff horderKept
      (htraces.calls_eq he hfirst.mem hfirst.get hn hget) horder (hseparate i hi key hkey)
      (hsubOf i hi key.1)).2 (hpace key hkey i hi)

theorem mem_loopInstrs {s : UInt64} :
    s ∈ loopInstrs invs ↔ ∃ inv ∈ invs, s ∈ inv.controlFlow.iterationSymbols.flatten := by
  rw [loopInstrs, List.mem_toFinset, List.mem_flatMap]

theorem mem_callInstrs {s : UInt64} :
    s ∈ callInstrs invs ↔
      ∃ inv ∈ invs, ∃ callID, s ∈ (inv.controlFlow.instances callID).flatten := by
  simp only [callInstrs, List.mem_toFinset, List.mem_flatMap]
  refine exists_congr fun inv => and_congr_right fun _ => ⟨?_, ?_⟩
  · rintro ⟨c, hc, hs⟩
    exact ⟨c.1.1, List.mem_flatten.2
      ⟨_, List.mem_of_getElem? (inv.controlFlow.mem_executedCalls hc).1, hs⟩⟩
  · rintro ⟨callID, hs⟩
    rcases List.mem_flatten.1 hs with ⟨symbols, hsymbols, hs⟩
    rcases LoopInvocation.mem_executedCalls_of_mem_instances hsymbols with ⟨j, k, hc⟩
    exact ⟨_, hc, hs⟩

/-- The first passes over the traces have these instructions. -/
theorem instrList_eq
    (hinstr : ∀ s, s ∈ instrList ↔ ∃ inv ∈ recordedFlows invs, s ∈ inv.iterations.flatten) :
    instrList = loopInstrs invs := by
  ext s
  rw [hinstr, mem_loopInstrs]
  constructor
  · rintro ⟨inv, hinv, hs⟩
    rcases mem_recordedFlows.1 hinv with ⟨i, hi, rfl⟩
    exact ⟨i, hi, hs⟩
  · rintro ⟨i, hi, hs⟩
    exact ⟨_, mem_recordedFlows.2 ⟨i, hi, rfl⟩, hs⟩

theorem subInstrList_eq
    (hsub : ∀ s, s ∈ subInstrList ↔
      ∃ inv ∈ recordedFlows invs, ∃ id, s ∈ (inv.calls id).flatten) :
    subInstrList = callInstrs invs := by
  ext s
  rw [hsub, mem_callInstrs]
  constructor
  · rintro ⟨inv, hinv, hs⟩
    rcases mem_recordedFlows.1 hinv with ⟨i, hi, rfl⟩
    exact ⟨i, hi, hs⟩
  · rintro ⟨i, hi, hs⟩
    exact ⟨_, mem_recordedFlows.2 ⟨i, hi, rfl⟩, hs⟩

/-- Two references in conflict are made by instructions that are seen. -/
theorem Regular.inInstructionTrace (hregular : Regular invs memtraceInstrIDs) {WAW : Bool}
    {p : UInt64 × UInt64} (hp : p ∈ streamPairs memtraceInstrIDs WAW) {inv : MemoryInvocation}
    (hinv : inv ∈ invs) {write read : TaggedReference} (h : Conflict inv.made WAW p write read) :
    instructionPairIsInInstructionTrace (loopInstrs invs) (callInstrs invs) p.1 p.2 = true := by
  have hmade : ∀ key, NeedsOf WAW p key → inv.made key ≠ [] →
      key.1 ∈ loopInstrs invs ∨ key.1 ∈ callInstrs invs := by
    intro key hkey hne
    have honce := hregular.once key (opened_of_mem_streamPairs hp hkey) inv hinv
    exact (honce.keepsPace.seen hne).imp (fun hmem => mem_loopInstrs.2 ⟨inv, hinv, hmem⟩)
      fun hmem => mem_callInstrs.2 ⟨inv, hinv, hmem⟩
  have hfirst := hmade _ (Or.inl rfl) (List.ne_nil_of_mem h.1)
  have hsecond := hmade _ (Or.inr rfl) (List.ne_nil_of_mem h.2.1)
  rw [instructionPairIsInInstructionTrace, if_neg (not_and_or.2 (by simpa using hfirst)),
    if_neg (not_and_or.2 (by simpa using hsecond))]

/-- Nothing is lost with the pairs that are not on the menu. -/
theorem Regular.reported_menu_iff (hregular : Regular invs memtraceInstrIDs) (WAW : Bool)
    (x : UInt64 × UInt64) :
    Reported (fun refs => DependsOn refs WAW) (fun refs => SettledBy refs WAW)
        (invs.map MemoryInvocation.made)
        ((buildInstrPairMenu (loopInstrs invs) (callInstrs invs) memtraceInstrIDs).pairs WAW) x ↔
      Reported (fun refs => DependsOn refs WAW) (fun refs => SettledBy refs WAW)
        (invs.map MemoryInvocation.made) (streamPairs memtraceInstrIDs WAW) x := by
  refine reported_subset (fun p hp => (mem_pairs_buildInstrPairMenu.1 hp).1) ?_
  rintro p hp hnot refs hrefs ⟨write, read, hconflict, -⟩
  rcases List.mem_map.1 hrefs with ⟨i, hi, rfl⟩
  exact hnot (mem_pairs_buildInstrPairMenu.2 ⟨hp, hregular.inInstructionTrace hp hi hconflict⟩)

end Traces

/-! ## Conditions that can be checked -/

section Checks

variable {loopID : UInt64} {invs : List MemoryInvocation}
  {memtraceInstrIDs : List UInt64 × List UInt64}

/-- The streams that have files. -/
def openedStreams (memtraceInstrIDs : List UInt64 × List UInt64) : List (UInt64 × Stream) :=
  memtraceInstrIDs.1.map (·, .read) ++ memtraceInstrIDs.2.map (·, .write)

theorem mem_openedStreams {key : UInt64 × Stream} :
    key ∈ openedStreams memtraceInstrIDs ↔ Opened memtraceInstrIDs key := by
  rcases key with ⟨id, stream⟩
  cases stream <;> simp [openedStreams, Opened]

/-- An order that all invocations keep is kept in every group. -/
theorem groupsKeepOrder_of_forall {flows : List LoopInvocation}
    (hannounced : ∀ built ∈ flows, ∀ c ∈ built.callsMade,
      built.iterationSymbols.flatten.count c.1 = (built.instances c.1).length)
    (hiterations : ∀ inv ∈ flows, ∀ c ∈ inv.executedCalls,
      iterationOf inv.iterationSymbols c.1.1 c.1.2 = c.2.1)
    (horder : ∀ built ∈ flows, ∀ inv ∈ flows, (inv.executedCalls.map Prod.fst).Pairwise
      (Before (iterationOf built.iterationSymbols))) :
    GroupsKeepOrder loopID flows := by
  intro ns _ m built hbuilt _ n _ inv hinv
  have hbuilt := List.mem_of_getElem? hbuilt
  have hinv := List.mem_of_getElem? hinv
  refine ⟨built.announced_of_forall (hannounced built hbuilt), fun s c hc => ?_, fun s => ?_⟩
  · exact hiterations inv hinv c (LoopInvocation.mem_callsSeeing.1 hc).1
  · exact (horder built hbuilt inv hinv).sublist (List.filter_sublist.map Prod.fst)

/-- An instruction that is seen in a call is seen in one of the calls that are made. -/
theorem exists_executedCall {id : UInt64}
    (h : ∃ inv ∈ invs, ∃ callID, id ∈ (inv.controlFlow.instances callID).flatten) :
    ∃ inv ∈ invs, ∃ c ∈ inv.controlFlow.executedCalls, id ∈ c.2.2 := by
  rcases h with ⟨inv, hinv, callID, hmem⟩
  rcases List.mem_flatten.1 hmem with ⟨symbols, hsymbols, hmem⟩
  rcases LoopInvocation.mem_executedCalls_of_mem_instances hsymbols with ⟨j, k, hc⟩
  exact ⟨inv, hinv, _, hc, hmem⟩

theorem regular_of_forall (h : ∀ key ∈ openedStreams memtraceInstrIDs,
      (∀ inv ∈ invs, inv.OncePerInstance key) ∧
      ((∃ inv ∈ invs, ∃ c ∈ inv.controlFlow.executedCalls, key.1 ∈ c.2.2) →
        ∀ inv ∈ invs, key.1 ∉ inv.controlFlow.iterationSymbols.flatten) ∧
      ∀ inv ∈ invs, ∀ r ∈ inv.made key, r.2.InUserSpace) :
    Regular invs memtraceInstrIDs := by
  have hall := fun key hkey => h key (mem_openedStreams.2 hkey)
  exact ⟨fun key hkey => (hall key hkey).1,
    fun key hkey hcall => (hall key hkey).2.1 (exists_executedCall hcall),
    fun key hkey => (hall key hkey).2.2⟩

end Checks

/-- One write of 4 bytes. -/
def Access.ofWrite (address : BitVec 64) : Access := ⟨0, 0, 0, 0, address, 4⟩

/-- One read of 4 bytes. -/
def Access.ofRead (address : BitVec 64) : Access := ⟨address, 4, 0, 0, 0, 0⟩

/-- A call reads what the iteration before it has written; and, in the other invocation, nothing that
is written in another iteration. -/
def readBehindWrite : List MemoryInvocation :=
  [⟨1, [[.seen 3 (some (.ofWrite 1000)), .dump], [.seen 3 (some (.ofWrite 1004)),
      .call 5 none [.seen 7 (some (.ofRead 1000)), .memTraceDump]]]⟩,
    ⟨0, [[.call 5 none [.seen 7 (some (.ofRead 1004)), .dump]], [.seen 3 (some (.ofWrite 1008))]]⟩]

theorem regular_readBehindWrite : Regular readBehindWrite ([7], [3]) :=
  regular_of_forall (by decide +kernel)

theorem keepsOrder_readBehindWrite : GroupsKeepOrder 1 (controlFlows readBehindWrite) := by
  refine groupsKeepOrder_of_forall ?_ ?_ ?_
  · decide +kernel
  · decide +kernel
  · unfold Before
    decide +kernel

/-! ## What is found -/

section Execution

variable {loopID : UInt64} {invs : List MemoryInvocation}
  {memtraceInstrIDs : List UInt64 × List UInt64}

/-- A reference is made in one of the iterations. -/
theorem MemoryInvocation.lt_length_of_made {inv : MemoryInvocation} {key : UInt64 × Stream}
    {r : TaggedReference} (hr : r ∈ inv.made key) : r.1.1 < inv.iterations.length := by
  rcases List.mem_flatMap.1 hr with ⟨⟨it, k⟩, hit, hr⟩
  rcases List.mem_flatMap.1 hr with ⟨e, -, hr⟩
  rcases List.mem_map.1 hr with ⟨reference, -, rfl⟩
  exact List.snd_lt_of_mem_zipIdx hit

variable {setup : AnalysisSetup}

/-- The menu has pairs of streams that are open. -/
theorem mem_streamPairs_of_chooseMenu {args : AnalysisArgs} {ddgs : DdgFiles}
    {instrList subInstrList : Finset UInt64} {sdl : StaticDDGLex} {menu : InstrPairMenu}
    (hmenu : chooseMenu args ddgs instrList subInstrList memtraceInstrIDs = .ok (sdl, menu))
    {WAW : Bool} {p : UInt64 × UInt64} (hp : p ∈ menu.pairs WAW) :
    p ∈ streamPairs memtraceInstrIDs WAW := by
  have hexhaustive : p ∈ (buildInstrPairMenu instrList subInstrList memtraceInstrIDs).pairs WAW := by
    rw [chooseMenu] at hmenu
    split at hmenu
    · rcases Prod.mk.inj (Except.ok.inj hmenu) with ⟨-, rfl⟩
      exact hp
    · split at hmenu
      · cases hmenu
      · rcases Prod.mk.inj (Except.ok.inj hmenu) with ⟨-, rfl⟩
        cases WAW with
        | false => exact (mem_filterByDdg.1 hp).1
        | true => exact (mem_filterByDdg.1 hp).1
  exact (mem_pairs_buildInstrPairMenu.1 hexhaustive).1

/-- The two files of an execution are read, with the groups of its call trace, and the first passes
have its instructions. -/
theorem exists_tracesRead_of_record {files : LoopTracer.Files}
    (hlen : (executionCalls loopID (controlFlows invs)).length < 2 ^ 64)
    (hfits : LoopTracer.init.Fits (LoopTracer.inTime (executionCalls loopID (controlFlows invs))))
    (hrecord : LoopTracer.record (LoopTracer.inTime (executionCalls loopID (controlFlows invs)))
      = some (some files)) :
    (Lines files.loopTrace ∧ Lines files.callTrace ∧ 0 < (recordedFlows invs).length) ∧
      ∃ groupOf es, callTraceGroups loopID (controlFlows invs) = es.map (fun e =>
          numbers e.repetitions) ∧
        ∀ loopTrace callTrace, Delivered files.loopTrace loopTrace →
          Delivered files.callTrace callTrace → ∃ callList,
            TracesRead loopTrace callTrace (recordedFlows invs) groupOf es callList
              (callInstrs invs) ∧
            LoopTraceStreamer.parseForInstructionList loopTrace
              = .ok (loopInstrs invs, (recordedFlows invs).length) := by
  have hinvs : invs ≠ [] := by
    -- nothing is recorded of an execution without invocations
    rintro rfl
    have hnone : LoopTracer.record [] = some none :=
      (LoopTracer.follows_init loopID).shutdown_new
    have hcontra : some none = some (some files) := hnone.symm.trans hrecord
    cases hcontra
  rcases LoopTracer.record_execution loopID (controlFlows invs) hlen hfits with
    ⟨hnil, -⟩ | ⟨files', hrecord', hloop, hcall⟩
  · exact absurd (List.map_eq_nil_iff.1 hnil) hinvs
  obtain rfl := Option.some.inj (Option.some.inj (hrecord'.symm.trans hrecord))
  rcases exists_tracesRead hloop hcall (small_recorded hlen) with ⟨groupOf, es, hdelivered⟩
  have hpos : 0 < (recordedFlows invs).length := by
    rw [recordedFlows, controlFlows, List.length_map, List.length_map]
    exact List.length_pos_iff.2 hinvs
  have hlength := length_recorded_le loopID (controlFlows invs)
  have hlt : (recordedFlows invs).length < 2 ^ 64 := Nat.lt_of_le_of_lt hlength hlen
  refine ⟨⟨hloop.lines, hcall.lines, hpos⟩, groupOf, es, ?_, fun loopTrace callTrace hl hc => ?_⟩
  · rcases hdelivered _ _ hloop.lines.delivered hcall.lines.delivered with ⟨_, _, hread⟩
    exact callTraceGroups_eq hrecord (hread.entries _ (Nat.lt_succ_of_le hlength))
  · rcases hdelivered loopTrace callTrace hl hc with ⟨callList, subInstrList, hread⟩
    rcases hread.instrList hpos hlt with ⟨instrList, hparse, hinstr⟩
    rw [← instrList_eq hinstr, ← subInstrList_eq hread.mem_subInstrList]
    exact ⟨callList, hread, hparse⟩

/-- What the analysis of the traces of an execution comes to, in every mode. -/
theorem findsThat (hlen : (executionCalls loopID (controlFlows invs)).length < 2 ^ 64)
    (hfits : LoopTracer.init.Fits (LoopTracer.inTime (executionCalls loopID (controlFlows invs))))
    (hkept : GroupsKeepOrder loopID (controlFlows invs))
    (hregular : Regular invs setup.memtraceInstrIDs)
    (htest : DecidesSharing (Opened setup.memtraceInstrIDs) (streamOf invs) setup.isAlias)
    (hfew : setup.args.adjacent = true → ∀ inv ∈ invs, inv.iterations.length < 2 ^ 31)
    {sdl : StaticDDGLex} {menu : InstrPairMenu}
    (hmenu : chooseMenu setup.args setup.ddgs (loopInstrs invs) (callInstrs invs)
      setup.memtraceInstrIDs = .ok (sdl, menu)) :
    FindsThat loopID invs setup fun result => result.1 = sdl ∧
      result.2.Show menu (invs.map MemoryInvocation.made) setup.args := by
  rcases LoopTracer.record_execution loopID (controlFlows invs) hlen hfits with
    ⟨hnil, hrecord⟩ | ⟨files, hrecord, -, -⟩
  · -- without an invocation no file is written
    simpa only [FindsThat, hrecord] using List.map_eq_nil_iff.1 hnil
  rcases exists_tracesRead_of_record hlen hfits hrecord with
    ⟨⟨-, -, hpos⟩, groupOf, es, hgroups, hdelivered⟩
  have hlength := length_recorded_le loopID (controlFlows invs)
  have hlt := Nat.lt_of_le_of_lt hlength hlen
  simp only [FindsThat, hrecord]
  intro loopTrace callTrace memoryTraces fuel hloopTrace hcallTrace hreads hfuel
  rcases hdelivered loopTrace callTrace hloopTrace hcallTrace with ⟨callList, hread, hparse⟩
  have hle := Nat.le_of_lt hfuel
  have hkept := groupsKeepOrder_iff.1 hkept
  have hopened : ∀ key, menu.Needs key → Opened setup.memtraceInstrIDs key := by
    rintro key ⟨WAW, p, hp, hkey⟩
    exact opened_of_mem_streamPairs (mem_streamPairs_of_chooseMenu hmenu hp) hkey
  have hmade := hregular.madeInStep hlen hread.describe hread.mem_subInstrList hkept hgroups hopened
    hreads hfuel
  -- the fuel suffices for the loops over instances and iterations
  have hlong : ∀ inv ∈ recordedFlows invs, inv.iterations.flatten.length ≤ fuel := fun inv hinv =>
    Nat.le_trans (length_symbols_recorded_le loopID hinv) hle
  have hiterations : ∀ inv ∈ recordedFlows invs, inv.iterations.length ≤ fuel := fun inv hinv =>
    Nat.le_trans (length_iterations_recorded_le loopID hinv) hle
  have htest' := htest.mono hopened
  rw [← madeTo_map_made] at htest'
  have hiteration : setup.args.adjacent = true → ∀ refs ∈ invs.map MemoryInvocation.made,
      ∀ key, menu.Needs key → ∀ r ∈ refs key, r.1.1 + 1 < 2 ^ 31 := by
    rintro hadjacent refs hrefs key - r hr
    rcases List.mem_map.1 hrefs with ⟨i, hi, rfl⟩
    exact Nat.lt_of_le_of_lt (MemoryInvocation.lt_length_of_made hr) (hfew hadjacent i hi)
  have hannounced := hkept.imp fun _ _ horder => horder.announced
  rcases hread.dependence_analysis_eq hparse (hannounced.not_notFound hgroups) hpos hlt
    (Nat.lt_of_le_of_lt hlength hfuel) hlong hiterations hmenu hopened hmade setup.sorter htest'
    hiteration with ⟨findings, hok, hshow⟩
  exact ⟨(sdl, findings), hok, rfl, hshow⟩

/-- What the analysis finds is determined by the execution. -/
theorem FindsThat.exists_both {P P' : StaticDDGLex × Findings → Prop} (hinvs : invs ≠ [])
    (h : FindsThat loopID invs setup P) (h' : FindsThat loopID invs setup P')
    (hlen : (executionCalls loopID (controlFlows invs)).length < 2 ^ 64)
    (hfits : LoopTracer.init.Fits (LoopTracer.inTime (executionCalls loopID (controlFlows invs))))
    (hregular : Regular invs setup.memtraceInstrIDs) :
    ∃ result, P result ∧ P' result := by
  cases hrecord : LoopTracer.record (LoopTracer.inTime (executionCalls loopID (controlFlows invs))) with
  | none =>
      simp only [FindsThat, hrecord] at h
  | some files? =>
      cases files? with
      | none =>
          simp only [FindsThat, hrecord] at h
          exact absurd h hinvs
      | some files =>
          simp only [FindsThat, hrecord] at h h'
          -- every file comes in one read
          rcases exists_tracesRead_of_record hlen hfits hrecord with ⟨⟨hloop, hcall, -⟩, -⟩
          have hreads := fun key (hkey : Opened setup.memtraceInstrIDs key) =>
            readsStream_wholeRead invs key (Nat.lt_of_le_of_lt
              (length_streamOf_le loopID fun i hi => (hregular.once key hkey i hi).keepsPace) hlen)
          rcases h _ _ _ _ hloop.delivered hcall.delivered hreads (Nat.lt_succ_self _) with
            ⟨result, hok, hP⟩
          rcases h' _ _ _ _ hloop.delivered hcall.delivered hreads (Nat.lt_succ_self _) with
            ⟨result', hok', hP'⟩
          rcases Except.ok.inj (hok.symm.trans hok') with rfl
          exact ⟨result, hP, hP'⟩

theorem FindsThat.imp {P P' : StaticDDGLex × Findings → Prop} (h : FindsThat loopID invs setup P)
    (himp : ∀ result, P result → P' result) : FindsThat loopID invs setup P' := by
  cases hrecord : LoopTracer.record (LoopTracer.inTime (executionCalls loopID (controlFlows invs))) with
  | none =>
      simp only [FindsThat, hrecord] at h
  | some files? =>
      cases files? with
      | none =>
          simp only [FindsThat, hrecord] at h ⊢
          exact h
      | some files =>
          simp only [FindsThat, hrecord] at h ⊢
          intro loopTrace callTrace memoryTraces fuel hloopTrace hcallTrace hreads hfuel
          rcases h loopTrace callTrace memoryTraces fuel hloopTrace hcallTrace hreads hfuel with
            ⟨result, hok, hP⟩
          exact ⟨result, hok, himp result hP⟩

/-! ## All pairs -/

/-- Without a graph, the analysis finds what the references report. -/
theorem findsDependences_of_reported {found : Bool → UInt64 × UInt64 → Prop}
    (hargs : setup.args = {}) (hlen : (executionCalls loopID (controlFlows invs)).length < 2 ^ 64)
    (hfits : LoopTracer.init.Fits (LoopTracer.inTime (executionCalls loopID (controlFlows invs))))
    (hkept : GroupsKeepOrder loopID (controlFlows invs))
    (hregular : Regular invs setup.memtraceInstrIDs)
    (htest : DecidesSharing (Opened setup.memtraceInstrIDs) (streamOf invs) setup.isAlias)
    (hfound : ∀ WAW x, Reported (fun refs => DependsOn refs WAW) (fun refs => SettledBy refs WAW)
      (invs.map MemoryInvocation.made) (streamPairs setup.memtraceInstrIDs WAW) x ↔ found WAW x) :
    FindsDependences loopID invs setup found := by
  have hmenu : chooseMenu setup.args setup.ddgs (loopInstrs invs) (callInstrs invs)
      setup.memtraceInstrIDs = .ok ({}, buildInstrPairMenu (loopInstrs invs) (callInstrs invs)
        setup.memtraceInstrIDs) := by
    rw [hargs]
    rfl
  have hadjacent : setup.args.adjacent ≠ true := by
    rw [hargs]
    exact Bool.false_ne_true
  refine (findsThat hlen hfits hkept hregular htest (fun h => absurd h hadjacent) hmenu).imp ?_
  rintro result ⟨-, hshow⟩ WAW x
  have hrecorded := hshow.recorded WAW x
  simp only [AnalysisArgs.outcomes, if_neg hadjacent, dependenceOutcomes, decide_eq_true_eq]
    at hrecorded
  exact hrecorded.trans ((hregular.reported_menu_iff WAW x).trans (hfound WAW x))

/-- The analysis with the tests of the code. -/
def camSetup (memtraceInstrIDs : List UInt64 × List UInt64) (args : AnalysisArgs) (ddgs : DdgFiles) :
    AnalysisSetup where
  args
  ddgs
  memtraceInstrIDs
  isAlias := CamAlias.isAlias
  sorter := IntervalTree.mergeByStart

theorem decidesSharing_readBehindWrite :
    DecidesSharing (Opened ([7], [3])) (streamOf readBehindWrite) CamAlias.isAlias :=
  decidesSharing_of_forall (openedStreams ([7], [3])) (fun _ => mem_openedStreams.2)
    (by decide +kernel)

/-- A dependence between two references is a dependence of a pair of streams. -/
theorem exists_dependsOn_iff {WAW : Bool} {x : UInt64 × UInt64} :
    (∃ p ∈ streamPairs memtraceInstrIDs WAW, ∃ refs ∈ invs.map MemoryInvocation.made,
        DependsOn refs WAW p x) ↔ LoopCarried invs memtraceInstrIDs WAW x := by
  cases WAW with
  | false =>
      constructor
      · rintro ⟨p, hp, refs, hrefs, w, r, ⟨hw, hr, hne, hbyte⟩, hx⟩
        rcases List.mem_map.1 hrefs with ⟨i, hi, rfl⟩
        rcases (mem_rwPairs _).1 hp with ⟨hwi, hri, -⟩
        rcases hx with rfl | ⟨hfalse, -⟩
        · exact ⟨i, hi, p.1, hwi, p.2, hri, w, hw, r, hr, hne, hbyte, rfl⟩
        · cases hfalse
      · rintro ⟨i, hi, wi, hwi, ri, hri, w, hw, r, hr, hne, hbyte, rfl⟩
        exact ⟨(wi, ri), (mem_rwPairs _).2 ⟨hwi, hri, rfl⟩, i.made, List.mem_map_of_mem hi, w, r,
          ⟨hw, hr, hne, hbyte⟩, Or.inl rfl⟩
  | true =>
      constructor
      · rintro ⟨p, hp, refs, hrefs, w, r, ⟨hw, hr, hne, hbyte⟩, hx⟩
        rcases List.mem_map.1 hrefs with ⟨i, hi, rfl⟩
        rcases mem_of_mem_wwPairs _ hp with ⟨hwi, hri⟩
        rcases hx with rfl | ⟨-, rfl⟩
        · exact ⟨i, hi, p.1, hwi, p.2, hri, w, hw, r, hr, hne, hbyte, rfl⟩
        · exact ⟨i, hi, p.2, hri, p.1, hwi, r, hr, w, hw, hne.symm, hbyte.symm, rfl⟩
      · rintro ⟨i, hi, wi, hwi, ri, hri, w, hw, r, hr, hne, hbyte, rfl⟩
        -- the pair is listed in one order
        rcases mem_wwPairs_or hwi hri with hp | hp
        · exact ⟨(wi, ri), hp, i.made, List.mem_map_of_mem hi, w, r, ⟨hw, hr, hne, hbyte⟩,
            Or.inl rfl⟩
        · exact ⟨(ri, wi), hp, i.made, List.mem_map_of_mem hi, r, w,
            ⟨hr, hw, hne.symm, hbyte.symm⟩, Or.inr ⟨rfl, rfl⟩⟩

/-- If every stream has one effective instruction, nothing is lost with the pairs that are erased. -/
theorem reported_iff_of_oneInstruction {WAW : Bool} {menu : List (UInt64 × UInt64)}
    (hone : ∀ key, Opened memtraceInstrIDs key → OneInstruction (invs.flatMap fun i => i.made key))
    (hmenu : ∀ p ∈ menu, p ∈ streamPairs memtraceInstrIDs WAW) {x : UInt64 × UInt64} :
    Reported (fun refs => DependsOn refs WAW) (fun refs => SettledBy refs WAW)
        (invs.map MemoryInvocation.made) menu x ↔
      ∃ p ∈ menu, ∃ refs ∈ invs.map MemoryInvocation.made, DependsOn refs WAW p x := by
  refine reported_iff_of_settled ?_
  -- what erases a pair has shown its only dependence
  rintro p hp s hs s' hs' ⟨-, w, r, hconflict⟩ ⟨w', r', hconflict', hx⟩
  rcases List.mem_map.1 hs with ⟨i, hi, rfl⟩
  rcases List.mem_map.1 hs' with ⟨i', hi', rfl⟩
  have hsame : ∀ key, NeedsOf WAW p key → ∀ r ∈ i.made key, ∀ r' ∈ i'.made key, r'.1.2 = r.1.2 :=
    fun key hkey r hr r' hr' => hone key (opened_of_mem_streamPairs (hmenu p hp) hkey)
      r' (List.mem_flatMap.2 ⟨i', hi', hr'⟩) r (List.mem_flatMap.2 ⟨i, hi, hr⟩)
  refine ⟨w, r, hconflict, ?_⟩
  rw [← hsame _ (Or.inl rfl) w hconflict.1 w' hconflict'.1,
    ← hsame _ (Or.inr rfl) r hconflict.2.1 r' hconflict'.2.1]
  exact hx

theorem oneInstruction_readBehindWrite (key : UInt64 × Stream) (hkey : Opened ([7], [3]) key) :
    OneInstruction (readBehindWrite.flatMap fun i => i.made key) := by
  have hone : ∀ key ∈ openedStreams ([7], [3]),
      OneInstruction (readBehindWrite.flatMap fun i => i.made key) := by
    decide +kernel
  exact hone key (mem_openedStreams.2 hkey)

/-- Every dependence is shown by some pair of streams in an invocation before which the pair has not
been erased: in no earlier one has it shown a dependence as the only one that it can have there. -/
def ShownInTime (invs : List MemoryInvocation) (memtraceInstrIDs : List UInt64 × List UInt64) : Prop :=
  ∀ WAW x, LoopCarried invs memtraceInstrIDs WAW x →
    Reported (fun refs => DependsOn refs WAW) (fun refs => SettledBy refs WAW)
      (invs.map MemoryInvocation.made) (streamPairs memtraceInstrIDs WAW) x

theorem ShownInTime.reported_iff (h : ShownInTime invs memtraceInstrIDs) (WAW : Bool)
    (x : UInt64 × UInt64) :
    Reported (fun refs => DependsOn refs WAW) (fun refs => SettledBy refs WAW)
        (invs.map MemoryInvocation.made) (streamPairs memtraceInstrIDs WAW) x ↔
      LoopCarried invs memtraceInstrIDs WAW x := by
  refine ⟨?_, h WAW x⟩
  rintro ⟨p, hp, n, refs, hrefs, hfound, -⟩
  exact exists_dependsOn_iff.1 ⟨p, hp, refs, List.mem_of_getElem? hrefs, hfound⟩

/-- The call that reads what has been written has another ID in the second invocation. -/
def readByTwoCalls : List MemoryInvocation :=
  [⟨0, [[.seen 3 (some (.ofWrite 1000))], [.call 5 none [.seen 7 (some (.ofRead 1000))]]]⟩,
    ⟨0, [[.seen 3 (some (.ofWrite 1000))], [.call 6 none [.seen 7 (some (.ofRead 1000))]]]⟩]

end Execution
end CamAlias
