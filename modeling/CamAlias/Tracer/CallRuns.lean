import CamAlias.Analyser.SoundMerge
import CamAlias.Tracer.LoopRuns

/-!
# CallRuns — the call trace in every run of the library

The counterpart of `Tracer/LoopRuns.lean`.  Calls may be nested, and the operations after a timeout
are dropped, so the groups of a call need not stand for any sequence of instances.  What remains is
that they can be written and read: every group has sharers, no number leaves 64 bits, and control
flows are well formed (`CallTraces.Sound`).  `PassGlobals.CallsKept` counts the loop invocations that
the call trace has and those that are pending.
-/

namespace CamAlias

open Lib ControlFlowCompressor

/-! ## Groups that can be written -/

/-- A group of call instances that can be written. -/
structure SharedInfo.Sound (info : SharedInfo ControlFlowCompressor) : Prop where
  nonempty : info.members ≠ []
  lt : ∀ k ∈ info.members, k < 2 ^ 64
  printable : TracerCompressionPattern.Printable info.payload.contents

/-- Call traces that can be written. -/
structure CallTraces.Sound (callTraces : CallTraces) : Prop where
  distinct : (callTraces.map Prod.fst).Nodup
  infos : ∀ item ∈ callTraces, ∀ info ∈ item.2.groups.infos, info.Sound

theorem SharedInfo.mem_members_markSharer {α : Type} {info info' : SharedInfo α} {num : Nat}
    (h : info.markSharer num = some info') (k : Nat) :
    k ∈ info'.members ↔ k ∈ info.members ∨ k = num := by
  simp only [markSharer] at h
  split at h
  · rename_i hle
    rcases Option.some.inj h with rfl
    simp only [mem_members, XanBitSet.testBit_setBit, Bool.or_eq_true, decide_eq_true_eq]
    constructor
    · rintro ⟨hk, hbit | heq⟩
      · exact Or.inl ⟨hk, hbit⟩
      · exact Or.inr (by omega)
    · rintro (⟨hk, hbit⟩ | rfl)
      · exact ⟨hk, Or.inl hbit⟩
      · exact ⟨hle, Or.inr rfl⟩
  · simp at h

/-- One instance more is recorded. -/
theorem ShareTable.share_sound {isMatch : ControlFlowCompressor → ControlFlowCompressor → Bool}
    {t t' : ShareTable ControlFlowCompressor} {payload : ControlFlowCompressor} {num : Nat}
    {attemptMatch found : Bool} (hinfos : ∀ info ∈ t.infos, info.Sound)
    (hpayload : TracerCompressionPattern.Printable payload.contents) (hnum : num < 2 ^ 64)
    (h : t.share isMatch payload num attemptMatch = some (t', found)) :
    ∀ info ∈ t'.infos, info.Sound := by
  rcases share_eq_some h with
    ⟨-, hinfos'⟩ | ⟨-, -, as, info, info', bs, hsplit, -, -, hmark, hinfos'⟩
  · intro i hi
    rw [hinfos'] at hi
    rcases List.mem_append.1 hi with hi | hi
    · exact hinfos i hi
    · rcases List.mem_singleton.1 hi with rfl
      refine ⟨by simp, ?_, hpayload⟩
      intro k hk
      rw [SharedInfo.members_new, List.mem_singleton] at hk
      omega
  · -- the bits of an entry that is shared get one number more
    have hold := hinfos info (by simp [hsplit])
    have hmem := SharedInfo.mem_members_markSharer hmark
    have hsame : info'.payload = info.payload := by
      simp only [SharedInfo.markSharer] at hmark
      split at hmark
      · rcases Option.some.inj hmark with rfl
        rfl
      · simp at hmark
    intro i hi
    rw [hinfos'] at hi
    rcases List.mem_append.1 hi with hi | hi
    · exact hinfos i (by simp [hsplit, hi])
    · rcases List.mem_cons.1 hi with rfl | hi
      · refine ⟨List.ne_nil_of_mem ((hmem num).2 (Or.inr rfl)), ?_, hsame ▸ hold.printable⟩
        intro k hk
        rcases (hmem k).1 hk with hk | rfl
        · exact hold.lt k hk
        · exact hnum
      · exact hinfos i (by simp [hsplit, hi])

namespace CallTraces

theorem Sound.nil : Sound [] where
  distinct := List.nodup_nil
  infos := by simp

/-- The entry of a loop invocation is written as it is. -/
theorem Sound.entryWritable {info : LoopInvocationCallInfo} (h : Sound info.payload)
    (hfits : LoopInvocationCallInfo.Fits info) (hlt : ∀ k ∈ info.members, k < 2 ^ 64) :
    EntryWritable info where
  writable := ⟨hfits.sharers, hlt⟩
  walks := hfits.walks
  length_lt := hfits.length_lt
  distinct := h.distinct
  traces := by
    intro item hitem
    refine ⟨(hfits.traces item hitem).1, ?_⟩
    intro i hi
    have hsound := h.infos item hitem i hi
    exact ⟨⟨(hfits.traces item hitem).2 i hi, hsound.lt⟩, hsound.printable⟩

end CallTraces

/-! ## Entries that can be merged -/

/-- The entry and its groups have ascending ranges. -/
structure CallTraceLoopInvocationGroup.Sound (clig : CallTraceLoopInvocationGroup) : Prop where
  ascending : Ascending clig.repetitions
  calls : SoundCalls clig.calls

namespace CallTraceLoopInvocationGroup

/-- Two pieces of one loop invocation are merged, whatever they stand for. -/
theorem Sound.joinPiece_eq {o e : CallTraceLoopInvocationGroup} {n : Nat} (ho : o.Sound)
    (he : e.Sound) (hn : numbers o.repetitions = [n]) (hn' : numbers e.repetitions = [n]) :
    ∃ o', CallTraceStreamer.entryStream.joinPiece o e = .ok o' ∧ numbers o'.repetitions = [n] ∧
      o'.Sound := by
  have hpattern := ho.ascending.eq_singleton hn
  have hpattern' := he.ascending.eq_singleton hn'
  rcases mergeCallInfo_sound ho.calls he.calls with ⟨calls, left, hmerge, hsound⟩
  exact ⟨{ o with calls }, joinPiece_of_mergeCallInfo hpattern hpattern' hmerge, hn, ho.ascending,
    hsound⟩

end CallTraceLoopInvocationGroup

/-- The pieces of the call trace, without what they stand for. -/
def callSegments : PieceModel CallTraceStreamer.entryStream Unit Unit where
  numbers := fun clig => numbers clig.repetitions
  IsPiece := fun clig _ => clig.Sound
  Stands := fun clig _ => clig.Sound
  Uncut := fun _ => True
  Continues := fun _ _ => True
  whole := fun _ => ()
  join := fun _ _ => ()
  stands_whole := fun he _ => he
  joinPiece_eq := by
    intro o e n x p hn hn' ho he _
    exact ho.joinPiece_eq he hn hn'

/-- What is read for an entry can be merged. -/
theorem EntryWritable.sound_callEntry {info : LoopInvocationCallInfo} (h : EntryWritable info)
    (hsound : info.payload.Sound) : (callEntry info).Sound := by
  refine ⟨?_, ?_⟩
  · have hrep : (callEntry info).repetitions = info.ranges :=
      PrintedCallEntry.repetitions_toEntry h.valid
    rw [hrep]
    exact h.writable.writtenRanges_eq.2.1
  · intro id g hg
    have hinstances := PrintedCallEntry.instancesOf_toEntry h.valid id
    rw [h.lookup_calls, List.map_map] at hinstances
    have hmem : g ∈ (info.payload.infosOf id).map (PrintedGroup.toCfcGroup ∘ SharedInfo.printed) := by
      rw [← hinstances]
      exact hg
    rcases List.mem_map.1 hmem with ⟨i, hi, rfl⟩
    cases hlookup : info.payload.lookup id with
    | none => simp [CallTraces.infosOf, hlookup] at hi
    | some trace =>
        simp only [CallTraces.infosOf, hlookup, Option.map_some, Option.getD_some] at hi
        have hitem := HashTable.mem_of_lookup hlookup
        have hwritable := ((h.traces _ hitem).infos i hi).1.writtenRanges_eq
        refine ⟨hwritable.2.1, ?_⟩
        intro hnil
        have hmembers := hwritable.2.2.2
        have hranges : i.ranges = [] := hnil
        rw [hranges] at hmembers
        exact (hsound.infos _ hitem i hi).nonempty hmembers.symm

/-! ## The file -/

/-- The call trace has the entries of `done` loop invocations, and perhaps of a further one that is
not complete. -/
def CallFileReads (file : List Char) (done : Nat) (resumed : Bool) : Prop :=
  ∃ chunks : List CallTraceChunk, (∀ c ∈ chunks, c.Valid) ∧
    PrintsLines file (chunks.flatMap CallTraceChunk.tokens) ∧
    callSegments.ReadsTo (chunks.flatMap CallTraceChunk.items) (List.replicate done ())
      (if resumed then some () else none)

theorem callSegments_resume {x : Option Unit} {parts : List Unit} (hne : parts ≠ []) :
    callSegments.resume x parts = parts := by
  have hmap : ∀ ps : List Unit, ps.map callSegments.whole = ps := List.map_id
  match x, parts, hne with
  | none, parts, _ => exact hmap parts
  | some _, _ :: ps, _ => exact congrArg (List.cons ()) (hmap ps)

/-- Call traces that wait to be written, for `pending` loop invocations. -/
abbrev ShareTable.HoldsCalls (infos : ShareTable CallTraces) (done : Nat) (resumed : Bool)
    (pending : Nat) : Prop :=
  infos.Holds (fun callTraces (_ : Unit) => callTraces.Sound) (fun _ => True) done resumed
    (List.replicate pending ())

/-- A write with entries. -/
theorem CallFileReads.append {file : List Char} {done pending : Nat} {resumed : Bool}
    (h : CallFileReads file done resumed) (loopRunning : Bool) {infos : ShareTable CallTraces}
    (hpos : 0 < pending) (hholds : infos.HoldsCalls done resumed pending)
    (hlen : infos.infos.length < 2 ^ 31)
    (hfits : ∀ info ∈ infos.infos, LoopInvocationCallInfo.Fits info)
    (hlt : done + pending < 2 ^ 64)
    (hlast : loopRunning = true → ∃ init info, infos.infos = init ++ [info] ∧
      info.members = [done + (pending - 1)]) :
    ∃ text, writeCallTraces infos.infos loopRunning = some text ∧
      CallFileReads (file ++ text) (done + if loopRunning then pending - 1 else pending)
        loopRunning := by
  rcases h with ⟨chunks, hvalid, hprints, hreads⟩
  have hparts : List.replicate pending () ≠ [] := by
    simpa using Nat.ne_of_gt hpos
  have hentry : ∀ info ∈ infos.infos, EntryWritable info ∧ info.payload.Sound := by
    intro info hinfo
    rcases hholds.exists_part hinfo with ⟨hmembers, -, -, hsound⟩
    refine ⟨hsound.entryWritable (hfits info hinfo) ?_, hsound⟩
    intro k hk
    have hb := hmembers k hk
    rw [List.length_replicate] at hb
    omega
  rcases writeCallTraces_eq loopRunning (hholds.infos_ne_nil hparts) hlen
    (fun info hinfo => (hentry info hinfo).1) with ⟨hchunkValid, text, htext, htextPrints⟩
  refine ⟨text, htext, chunks ++ [callChunk loopRunning infos.infos], ?_, ?_, ?_⟩
  · intro c hc
    rcases List.mem_append.1 hc with hc | hc
    · exact hvalid c hc
    · rcases List.mem_singleton.1 hc with rfl
      exact hchunkValid
  · simpa using hprints.append htextPrints
  · have hchunk : callSegments.Chunk done (List.replicate pending ()) resumed loopRunning
        (infos.infos.map callEntry) := hholds.chunk
      (fun info hinfo => numbers_callEntry (hentry info hinfo).1)
      (fun info hinfo _ _ => (hentry info hinfo).1.sound_callEntry (hentry info hinfo).2) hparts
      (fun hrunning => by simpa using hlast hrunning)
    have happend := hreads.append (by cases resumed <;> simpa using hchunk)
      (fun _ _ _ _ => trivial)
    rw [callSegments_resume hparts] at happend
    rw [items_snoc_callChunk, List.replicate_add]
    -- the last entry stays open while the loop is running
    cases loopRunning with
    | false => simpa [PieceModel.settled, PieceModel.unsettled] using happend
    | true =>
        have hlastUnit : (List.replicate pending ()).getLast? = some () := by
          rw [List.getLast?_replicate, if_neg (Nat.ne_of_gt hpos)]
        simpa [PieceModel.settled, PieceModel.unsettled, hlastUnit, List.dropLast_replicate]
          using happend

/-! ## What the operations keep -/

/-- The call traces of the running invocation: they can be written, and no instance number is larger
than the number of operations. -/
structure CallTraces.Kept (callTraces : CallTraces) (n : Nat) : Prop where
  sound : callTraces.Sound
  numInvocations : ∀ item ∈ callTraces, item.2.numInvocations ≤ n

/-- A running call of this size. -/
structure RunningCall.Kept (running : RunningCall) (n : Nat) : Prop where
  invocationNum : running.invocationNum ≤ n
  currCFC : ∃ symbols, Compresses running.currCFC.contents symbols ∧ symbols.length ≤ n

theorem HashTable.mem_set {α : Type} {table : HashTable α} {key : UInt64} {element : α}
    {item : UInt64 × α} (h : item ∈ table.set key element) :
    item = (key, element) ∨ item ∈ table := by
  induction table with
  | nil => exact Or.inl (List.mem_singleton.1 h)
  | cons i items ih =>
      by_cases hkey : i.1 = key
      · rw [set, if_pos hkey] at h
        rcases List.mem_cons.1 h with rfl | h
        · exact Or.inl rfl
        · exact Or.inr (List.mem_cons_of_mem _ h)
      · rw [set, if_neg hkey] at h
        rcases List.mem_cons.1 h with rfl | h
        · exact Or.inr (by simp)
        · exact (ih h).imp_right (List.mem_cons_of_mem _)

namespace CallTraces.Kept

variable {callTraces : CallTraces} {n : Nat}

theorem nil (n : Nat) : CallTraces.Kept [] n where
  sound := CallTraces.Sound.nil
  numInvocations := by simp

theorem mono (h : callTraces.Kept n) {m : Nat} (hle : n ≤ m) : callTraces.Kept m where
  sound := h.sound
  numInvocations := fun item hitem => Nat.le_trans (h.numInvocations item hitem) hle

theorem set (h : callTraces.Kept n) (key : UInt64) {trace : CallTrace}
    (hinfos : ∀ info ∈ trace.groups.infos, info.Sound) (hnum : trace.numInvocations ≤ n) :
    CallTraces.Kept (HashTable.set callTraces key trace) n where
  sound := by
    refine ⟨HashTable.nodup_set h.sound.distinct, ?_⟩
    intro item hitem
    rcases HashTable.mem_set hitem with rfl | hitem
    · exact hinfos
    · exact h.sound.infos item hitem
  numInvocations := by
    intro item hitem
    rcases HashTable.mem_set hitem with rfl | hitem
    · exact hnum
    · exact h.numInvocations item hitem

theorem clearTraces (h : callTraces.Kept n) : CallTraces.Kept (clearTraces callTraces) n where
  sound := by
    refine ⟨?_, ?_⟩
    · rw [CamAlias.clearTraces, List.map_map]
      exact h.sound.distinct
    · intro item hitem
      rcases List.mem_map.1 hitem with ⟨i, -, rfl⟩
      simp [ExecTrace.clearTrace, ShareTable.empty]
  numInvocations := by
    intro item hitem
    rcases List.mem_map.1 hitem with ⟨i, hi, rfl⟩
    exact h.numInvocations i hi

/-- The trace of a call ID, a new one if there is none. -/
theorem lookup (h : callTraces.Kept n) (key : UInt64) :
    (∀ info ∈ ((callTraces.lookup key).getD ExecTrace.new).groups.infos, info.Sound) ∧
      ((callTraces.lookup key).getD ExecTrace.new).numInvocations ≤ n := by
  cases hlookup : callTraces.lookup key with
  | none => simp [ExecTrace.new, ShareTable.empty]
  | some trace =>
      have hitem := HashTable.mem_of_lookup hlookup
      exact ⟨h.sound.infos _ hitem, h.numInvocations _ hitem⟩

end CallTraces.Kept

namespace RunningCall.Kept

variable {running : RunningCall} {n : Nat}

theorem mono (h : running.Kept n) {m : Nat} (hle : n ≤ m) : running.Kept m := by
  rcases h.currCFC with ⟨symbols, hcompresses, hlen⟩
  exact ⟨Nat.le_trans h.invocationNum hle, symbols, hcompresses, Nat.le_trans hlen hle⟩

/-- An instruction is seen in the call. -/
theorem seen (h : running.Kept n) (instID : UInt64) (hn : n + 1 < 2 ^ 64) :
    RunningCall.Kept { running with currCFC := running.currCFC.insertSymbol instID } (n + 1) := by
  rcases h.currCFC with ⟨symbols, hcompresses, hlen⟩
  refine ⟨Nat.le_succ_of_le h.invocationNum, symbols ++ [instID],
    hcompresses.insertSymbol (count_snoc_lt (by omega)), by simpa using hlen⟩

end RunningCall.Kept

namespace PassGlobals

variable {globals globals' : PassGlobals} {n : Nat}

/-- A call is finished, or put into its trace by a dump. -/
theorem finishCall_kept (h : globals.callTraces.Kept n) {running running' : RunningCall}
    (hrunning : running.Kept n) (hn : n < 2 ^ 64) {attemptMatch : Bool}
    (hfinish : globals.finishCall running attemptMatch = some (globals', running')) :
    ∃ callTraces : CallTraces, globals' = { globals with callTraces } ∧ callTraces.Kept n ∧
      running'.Kept n := by
  simp only [finishCall] at hfinish
  split at hfinish
  · simp at hfinish
  · rename_i trace hlookup
    split at hfinish
    · simp at hfinish
    · rename_i trace' newGroup hprocess
      rcases Prod.mk.inj (Option.some.inj hfinish) with ⟨rfl, rfl⟩
      rcases Option.map_eq_some_iff.1 hprocess with ⟨⟨groups, found⟩, hshare, heq⟩
      rcases Prod.mk.inj heq with ⟨rfl, -⟩
      have htrace := h.lookup running.callID
      rw [hlookup] at htrace
      rcases hrunning.currCFC with ⟨symbols, hcompresses, -⟩
      have hnum := hrunning.invocationNum
      refine ⟨_, rfl, h.set running.callID ?_ htrace.2, hrunning.invocationNum, [], ?_, by simp⟩
      · exact ShareTable.share_sound htrace.1 hcompresses.printable (by omega) hshare
      · cases newGroup with
        | true => exact compresses_newCFC
        | false => exact compresses_clear _

/-- The running calls are put into their traces. -/
theorem dumpCalls_kept {calls : List RunningCall} (hn : n < 2 ^ 64) :
    ∀ {globals globals' : PassGlobals} {calls' : List RunningCall}, globals.callTraces.Kept n →
      (∀ call ∈ calls, call.Kept n) → globals.dumpCalls calls = some (globals', calls') →
      ∃ callTraces : CallTraces, globals' = { globals with callTraces } ∧ callTraces.Kept n ∧
        ∀ call ∈ calls', call.Kept n := by
  induction calls with
  | nil =>
      intro globals globals' calls' h _ hdump
      rcases Prod.mk.inj (Option.some.inj hdump) with ⟨rfl, rfl⟩
      exact ⟨globals.callTraces, rfl, h, by simp⟩
  | cons call calls ih =>
      intro globals globals' calls' h hcalls hdump
      simp only [dumpCalls] at hdump
      split at hdump
      · simp at hdump
      · rename_i globals₁ call₁ hfinish
        have hcall : RunningCall.Kept { call with partiallyDumped := true } n :=
          ⟨(hcalls call (by simp)).invocationNum, (hcalls call (by simp)).currCFC⟩
        rcases finishCall_kept h hcall hn hfinish with ⟨callTraces, rfl, hkept, hcall₁⟩
        rcases Option.map_eq_some_iff.1 hdump with ⟨⟨globals₂, calls₂⟩, hrest, heq⟩
        rcases Prod.mk.inj heq with ⟨rfl, rfl⟩
        rcases ih hkept (fun c hc => hcalls c (List.mem_cons_of_mem _ hc)) hrest with
          ⟨callTraces', rfl, hkept', hcalls'⟩
        refine ⟨callTraces', rfl, hkept', ?_⟩
        intro c hc
        rcases List.mem_cons.1 hc with rfl | hc
        · exact hcall₁
        · exact hcalls' c hc

/-- The number of invocations of a loop so far. -/
def invocationsOf (globals : PassGlobals) (loopID : UInt64) : Nat :=
  ((globals.loopTraces.lookup loopID).map fun trace => trace.numInvocations).getD 0

theorem recordInstsSeenOnIteration_eq_some {running running' : RunningLoop}
    (h : running.recordInstsSeenOnIteration = some running') :
    running'.loopID = running.loopID ∧ running'.invocationNum = running.invocationNum := by
  simp only [RunningLoop.recordInstsSeenOnIteration] at h
  split at h
  · rcases Option.some.inj h with rfl
    exact ⟨rfl, rfl⟩
  · split at h
    · simp at h
    · rcases Option.some.inj h with rfl
      exact ⟨rfl, rfl⟩

/-- Finishing a loop invocation changes nothing but the groups of its trace. -/
theorem finishLoop_eq_some {running running' : RunningLoop} {attemptMatch : Bool}
    (h : globals.finishLoop running attemptMatch = some (globals', running')) :
    (∃ loopTraces, globals' = { globals with loopTraces }) ∧
      (∀ loopID, globals'.invocationsOf loopID = globals.invocationsOf loopID) ∧
      running'.loopID = running.loopID ∧ running'.invocationNum = running.invocationNum := by
  simp only [finishLoop] at h
  split at h
  · rename_i running₁ trace hrecord hlookup
    rcases recordInstsSeenOnIteration_eq_some hrecord with ⟨hloop, hnum⟩
    split at h
    · simp at h
    · rename_i trace' newGroup hprocess
      rcases Prod.mk.inj (Option.some.inj h) with ⟨rfl, rfl⟩
      rcases Option.map_eq_some_iff.1 hprocess with ⟨groups, -, heq⟩
      rcases Prod.mk.inj heq with ⟨rfl, -⟩
      refine ⟨⟨_, rfl⟩, ?_, hloop, hnum⟩
      intro loopID
      simp only [invocationsOf, HashTable.lookup_set]
      by_cases hid : loopID = running₁.loopID
      · rw [if_pos hid, hid, hloop, hlookup]
        rfl
      · rw [if_neg hid]
  · simp at h

/-- The call traces of a loop invocation join the others. -/
theorem recordCallTraces_holds {done pending invNum : Nat} {resumed attemptMatch : Bool}
    (hrecord : globals.recordCallTracesForInvocation invNum attemptMatch = some globals')
    (h : globals.loopInvCallInfos.HoldsCalls done resumed pending)
    (hsound : globals.callTraces.Sound) (hnum : invNum = done + pending)
    (hattempt : resumed = true → pending = 0 → attemptMatch = false) :
    ∃ infos : ShareTable CallTraces, globals' = { globals with loopInvCallInfos := infos } ∧
      infos.HoldsCalls done resumed (pending + 1) ∧
      (attemptMatch = false → ∃ init info, infos.infos = init ++ [info] ∧
        info.members = [done + pending]) := by
  have hpart : ∃ infos found, globals.loopInvCallInfos.share CallTraces.isEqual globals.callTraces
      (done + (List.replicate pending ()).length) attemptMatch = some (infos, found) ∧
      infos.Holds (fun callTraces (_ : Unit) => callTraces.Sound) (fun _ => True) done resumed
        (List.replicate pending () ++ [()]) ∧
      (attemptMatch = false → infos.infos = globals.loopInvCallInfos.infos
        ++ [SharedInfo.new globals.callTraces (done + (List.replicate pending ()).length) true]) :=
    h.share hsound (fun hresumed hpending => hattempt hresumed (by simpa using hpending))
      (fun _ => trivial) (fun _ _ hy _ _ _ => hy)
  rcases hpart with ⟨infos, found, hshare, hholds, hlast⟩
  rw [List.length_replicate, ← hnum] at hshare
  simp only [recordCallTracesForInvocation, hshare, Option.map_some] at hrecord
  rcases Option.some.inj hrecord with rfl
  refine ⟨infos, rfl, ?_, ?_⟩
  · rwa [ShareTable.HoldsCalls, List.replicate_succ']
  · intro hfalse
    refine ⟨_, _, hlast hfalse, ?_⟩
    simp

/-- Every entry of the call trace fits its writer. -/
structure CallReady (globals : PassGlobals) : Prop where
  length_lt : globals.loopInvCallInfos.infos.length < 2 ^ 31
  infos : ∀ info ∈ globals.loopInvCallInfos.infos, LoopInvocationCallInfo.Fits info

instance (globals : PassGlobals) : Decidable globals.CallReady :=
  decidable_of_iff (globals.loopInvCallInfos.infos.length < 2 ^ 31 ∧
      ∀ info ∈ globals.loopInvCallInfos.infos, LoopInvocationCallInfo.Fits info)
    ⟨fun h => ⟨h.1, h.2⟩, fun h => ⟨h.length_lt, h.infos⟩⟩

/-- What a write does to the call trace. -/
theorem callText_of_writeTraces (h : globals.writeTraces = some globals') :
    ∃ loopText callText,
      writeCallTraces globals.loopInvCallInfos.infos globals.loopRunning = some callText ∧
      globals' = { globals with
        loopCompressedFile := globals.loopCompressedFile ++ loopText
        callCompressedFile := globals.callCompressedFile ++ callText } := by
  simp only [writeTraces] at h
  split at h
  · rename_i loopText callText _ hcall
    exact ⟨loopText, callText, hcall, (Option.some.inj h).symm⟩
  · simp at h

/-! ## The relation -/

/-- The call trace has the entries of `done` loop invocations, and perhaps of a part of the next one;
`pending` further ones wait to be written.  There have been `n` operations. -/
structure CallsKept (globals : PassGlobals) (loopID : UInt64) (done : Nat) (resumed : Bool)
    (pending n : Nat) : Prop where
  invocations : globals.invocationsOf loopID
    = done + pending + if globals.loopRunning then 1 else 0
  count : globals.invocationsOf loopID ≤ n
  infos : globals.loopInvCallInfos.HoldsCalls done resumed pending
  callTraces : globals.callTraces.Kept n
  running : ∀ loop calls, globals.runningStack = some (loop, calls) →
    loop.loopID = loopID ∧ loop.invocationNum = done + pending ∧ ∀ call ∈ calls, call.Kept n
  waiting : resumed = true → pending = 0 → globals.waitingForInvocCompletion = true
  idle : globals.runningStack = none → resumed = true → 0 < pending
  file : CallFileReads globals.callCompressedFile done resumed

namespace CallsKept

variable {loopID : UInt64} {done pending : Nat} {resumed : Bool}

theorem new (loopID : UInt64) : PassGlobals.new.CallsKept loopID 0 false 0 0 where
  invocations := rfl
  count := Nat.le_refl 0
  infos := ShareTable.Holds.empty 0 false
  callTraces := CallTraces.Kept.nil 0
  running := by simp [PassGlobals.new]
  waiting := by simp
  idle := by simp
  file := ⟨[], by simp, PrintsLines.nil, PieceModel.ReadsTo.nil⟩

theorem mono (h : globals.CallsKept loopID done resumed pending n) {m : Nat} (hle : n ≤ m) :
    globals.CallsKept loopID done resumed pending m where
  invocations := h.invocations
  count := Nat.le_trans h.count hle
  infos := h.infos
  callTraces := h.callTraces.mono hle
  running := by
    intro loop calls hstack
    rcases h.running loop calls hstack with ⟨hid, hnum, hcalls⟩
    exact ⟨hid, hnum, fun call hcall => (hcalls call hcall).mono hle⟩
  waiting := h.waiting
  idle := h.idle
  file := h.file

/-- An operation inside the running invocation. -/
theorem withStack (h : globals.CallsKept loopID done resumed pending n) {loop loop' : RunningLoop}
    {calls calls' : List RunningCall} (hstack : globals.runningStack = some (loop, calls))
    (hid : loop'.loopID = loop.loopID) (hnum : loop'.invocationNum = loop.invocationNum)
    (hcalls : ∀ call ∈ calls', call.Kept n) {callTraces : CallTraces}
    (htraces : callTraces.Kept n) :
    CallsKept { globals with callTraces, runningStack := some (loop', calls') } loopID done resumed
      pending n where
  invocations := by
    have hinvocations := h.invocations
    simp only [loopRunning, hstack] at hinvocations ⊢
    exact hinvocations
  count := h.count
  infos := h.infos
  callTraces := htraces
  running := by
    intro loop₁ calls₁ hstack₁
    rcases Prod.mk.inj (Option.some.inj hstack₁) with ⟨rfl, rfl⟩
    rcases h.running loop calls hstack with ⟨hid', hnum', -⟩
    exact ⟨hid.trans hid', hnum.trans hnum', hcalls⟩
  waiting := h.waiting
  idle := by simp
  file := h.file

/-! ### Operations -/

/-- `CAM_profileLoopInvocationStart`. -/
theorem loopInvocationStart (h : globals.CallsKept loopID done resumed pending n)
    (hstart : globals.loopInvocationStart loopID = some globals') :
    globals'.CallsKept loopID done resumed pending (n + 1) := by
  simp only [PassGlobals.loopInvocationStart] at hstart
  split at hstart
  · simp at hstart
  · rename_i hstack
    rcases Option.some.inj hstart with rfl
    have hinvocations := h.invocations
    have hcount := h.count
    have hidle : globals.loopRunning = false := by simp [loopRunning, hstack]
    have htrace : ((globals.loopTraces.lookup loopID).getD ExecTrace.new).numInvocations
        = globals.invocationsOf loopID := by
      simp only [invocationsOf]
      cases globals.loopTraces.lookup loopID <;> rfl
    rw [hidle, if_neg (by simp), Nat.add_zero] at hinvocations
    refine ⟨?_, ?_, h.infos, h.callTraces.mono (Nat.le_succ n), ?_, ?_, by simp, h.file⟩
    · simp only [invocationsOf, HashTable.lookup_set, if_true, Option.map_some, Option.getD_some,
        loopRunning, Option.isSome_some]
      rw [htrace, hinvocations]
    · simp only [invocationsOf, HashTable.lookup_set, if_true, Option.map_some, Option.getD_some]
      rw [htrace]
      exact Nat.succ_le_succ hcount
    · intro loop calls hloop
      rcases Prod.mk.inj (Option.some.inj hloop) with ⟨rfl, rfl⟩
      exact ⟨rfl, htrace.trans hinvocations, by simp⟩
    · exact h.waiting

/-- `CAM_profileLoopIterationStart`. -/
theorem loopIterationStart (h : globals.CallsKept loopID done resumed pending n)
    (hstart : globals.loopIterationStart = some globals') :
    globals'.CallsKept loopID done resumed pending n := by
  simp only [PassGlobals.loopIterationStart] at hstart
  split at hstart
  · rename_i running hstack
    rcases Option.map_eq_some_iff.1 hstart with ⟨running', hrecord, rfl⟩
    rcases recordInstsSeenOnIteration_eq_some hrecord with ⟨hid, hnum⟩
    refine h.withStack hstack ?_ ?_ (List.forall_mem_nil _) h.callTraces
    · exact hid
    · exact hnum
  · simp at hstart

/-- `CAM_profileLoopSeenInstruction`. -/
theorem seenInstruction (h : globals.CallsKept loopID done resumed pending n) (instID : UInt64)
    (hn : n + 1 < 2 ^ 64) :
    (globals.seenInstruction instID).CallsKept loopID done resumed pending (n + 1) := by
  have h₁ := h.mono (Nat.le_succ n)
  match hstack : globals.runningStack with
  | none =>
      have hsame : globals.seenInstruction instID = globals := by
        simp only [PassGlobals.seenInstruction, hstack]
      rwa [hsame]
  | some (loop, []) =>
      simp only [PassGlobals.seenInstruction, hstack]
      refine h₁.withStack hstack ?_ ?_ (List.forall_mem_nil _) h₁.callTraces
      · rfl
      · rfl
  | some (loop, call :: calls) =>
      simp only [PassGlobals.seenInstruction, hstack]
      rcases h.running loop (call :: calls) hstack with ⟨-, -, hcalls⟩
      refine h₁.withStack hstack rfl rfl ?_ h₁.callTraces
      intro c hc
      rcases List.mem_cons.1 hc with rfl | hc
      · exact (hcalls call (by simp)).seen instID hn
      · exact (hcalls c (List.mem_cons_of_mem _ hc)).mono (Nat.le_succ n)

/-- `CAM_profileCallInvocationStart`. -/
theorem callInvocationStart (h : globals.CallsKept loopID done resumed pending n)
    (instID : UInt64) :
    (globals.callInvocationStart instID).CallsKept loopID done resumed pending (n + 1) := by
  have h₁ := h.mono (Nat.le_succ n)
  match hstack : globals.runningStack with
  | none =>
      have hsame : globals.callInvocationStart instID = globals := by
        simp only [PassGlobals.callInvocationStart, hstack]
      rwa [hsame]
  | some (loop, calls) =>
      simp only [PassGlobals.callInvocationStart, hstack]
      rcases h.callTraces.lookup instID with ⟨hinfos, hnum⟩
      rcases h₁.running loop calls hstack with ⟨-, -, hcalls⟩
      refine h₁.withStack hstack rfl rfl ?_ (h₁.callTraces.set instID hinfos ?_)
      · intro c hc
        rcases List.mem_cons.1 hc with rfl | hc
        · exact ⟨Nat.le_succ_of_le hnum, [], compresses_newCFC, by simp⟩
        · exact hcalls c hc
      · exact Nat.succ_le_succ hnum

/-- `CAM_profileCallInvocationEnd`. -/
theorem callInvocationEnd (h : globals.CallsKept loopID done resumed pending n) (hn : n < 2 ^ 64)
    (hend : globals.callInvocationEnd = some globals') :
    globals'.CallsKept loopID done resumed pending n := by
  simp only [PassGlobals.callInvocationEnd] at hend
  split at hend
  · rcases Option.some.inj hend with rfl
    exact h
  · simp at hend
  · rename_i loop call calls hstack
    rcases h.running loop (call :: calls) hstack with ⟨-, -, hcalls⟩
    rcases Option.map_eq_some_iff.1 hend with ⟨⟨globals₁, call'⟩, hfinish, rfl⟩
    have htraces : ({ globals with runningStack := some (loop, calls) } : PassGlobals).callTraces.Kept
        n := h.callTraces
    rcases finishCall_kept htraces (hcalls call (by simp)) hn hfinish with
      ⟨callTraces, rfl, hkept, -⟩
    exact h.withStack hstack rfl rfl (fun c hc => hcalls c (List.mem_cons_of_mem _ hc)) hkept

/-- `CAM_profileLoopInvocationEnd`: one invocation more waits to be written. -/
theorem loopInvocationEnd (h : globals.CallsKept loopID done resumed pending n)
    (hend : globals.loopInvocationEnd = some globals') :
    globals'.CallsKept loopID done resumed (pending + 1) n := by
  simp only [PassGlobals.loopInvocationEnd] at hend
  split at hend
  · rename_i running hstack
    split at hend
    · simp at hend
    · rename_i globals₁ running₁ hfinish
      rcases finishLoop_eq_some hfinish with ⟨⟨loopTraces, rfl⟩, hinvocations, -, hnum⟩
      rcases Option.map_eq_some_iff.1 hend with ⟨globals₂, hrecord, rfl⟩
      rcases h.running running [] hstack with ⟨-, hnumber, -⟩
      have hattempt : resumed = true → pending = 0 →
          (!globals.waitingForInvocCompletion) = false := by
        intro hresumed hpending
        simp [h.waiting hresumed hpending]
      rcases recordCallTraces_holds hrecord h.infos h.callTraces.sound (hnum.trans hnumber) hattempt
        with ⟨infos, rfl, hholds, -⟩
      have hsame : globals.invocationsOf loopID = done + pending + 1 := by
        simpa [loopRunning, hstack] using h.invocations
      have hcount := h.count
      have hafter := hinvocations loopID
      refine ⟨?_, ?_, hholds, CallTraces.Kept.nil n, by simp, by simp, by simp, h.file⟩
      · exact hafter.trans hsame
      · exact hafter.trans_le hcount
  · simp at hend

/-! ### Dumps -/

/-- The first half of `dumpTraces`: the running invocation waits to be written. -/
theorem saveRunning (h : globals.CallsKept loopID done resumed pending n) (hn : n < 2 ^ 64)
    {saved : PassGlobals} {loop : RunningLoop} {calls : List RunningCall}
    (hstack : globals.runningStack = some (loop, calls)) (hsave : globals.saveRunning = some saved) :
    ∃ loop' calls', saved.runningStack = some (loop', calls') ∧ loop'.loopID = loopID ∧
      loop'.invocationNum = done + pending ∧ (∀ call ∈ calls', call.Kept n) ∧
      saved.callTraces.Kept n ∧ saved.invocationsOf loopID = done + pending + 1 ∧
      saved.loopInvCallInfos.HoldsCalls done resumed (pending + 1) ∧
      (∃ init info, saved.loopInvCallInfos.infos = init ++ [info] ∧
        info.members = [done + pending]) ∧
      saved.callCompressedFile = globals.callCompressedFile := by
  rcases h.running loop calls hstack with ⟨hid, hnumber, hcalls⟩
  simp only [PassGlobals.saveRunning, hstack] at hsave
  split at hsave
  · simp at hsave
  · rename_i globals₁ calls' hdump
    rcases dumpCalls_kept hn h.callTraces hcalls hdump with ⟨callTraces, rfl, hkept, hcalls'⟩
    split at hsave
    · simp at hsave
    · rename_i globals₂ loop' hfinish
      rcases finishLoop_eq_some hfinish with ⟨⟨loopTraces, rfl⟩, hinvocations, hid', hnum⟩
      rcases recordCallTraces_holds hsave h.infos hkept.sound (hnum.trans hnumber) (fun _ _ => rfl)
        with ⟨infos, rfl, hholds, hlast⟩
      have hsame : globals.invocationsOf loopID = done + pending + 1 := by
        simpa [loopRunning, hstack] using h.invocations
      exact ⟨loop', calls', rfl, hid'.trans hid, hnum.trans hnumber, hcalls', hkept,
        (hinvocations loopID).trans hsame, hholds, hlast rfl, rfl⟩

/-- What is pending is written. -/
theorem writeCallTraces_idle (h : globals.CallsKept loopID done resumed pending n) (hn : n < 2 ^ 64)
    (hidle : globals.runningStack = none) (hready : globals.CallReady) {text : List Char}
    (hwrite : writeCallTraces globals.loopInvCallInfos.infos false = some text) :
    CallFileReads (globals.callCompressedFile ++ text) (done + pending) false := by
  cases pending with
  | zero =>
      have hfresh : resumed = false := by
        cases resumed with
        | false => rfl
        | true => exact absurd (h.idle hidle rfl) (by simp)
      subst hfresh
      have hnil : globals.loopInvCallInfos.infos = [] := ShareTable.Holds.infos_eq_nil h.infos
      rw [hnil] at hwrite
      rcases Option.some.inj hwrite with rfl
      rw [List.append_nil]
      exact h.file
  | succ pending =>
      have hcount := h.count
      rw [h.invocations] at hcount
      rcases h.file.append false (Nat.succ_pos pending) h.infos hready.length_lt hready.infos
        (by omega) (by simp) with ⟨text', hwrite', hfile⟩
      rw [hwrite'] at hwrite
      rcases Option.some.inj hwrite with rfl
      exact hfile

theorem invocationsOf_clearDumped (globals : PassGlobals) (loopID : UInt64) :
    globals.clearDumped.invocationsOf loopID = globals.invocationsOf loopID := by
  have hlookup : ∀ table : HashTable LoopTrace, ((CamAlias.clearTraces table).lookup loopID)
      = (table.lookup loopID).map ExecTrace.clearTrace := by
    intro table
    induction table with
    | nil => rfl
    | cons item items ih =>
        have hcons : CamAlias.clearTraces (item :: items)
            = (item.1, item.2.clearTrace) :: CamAlias.clearTraces items := rfl
        rw [hcons, HashTable.lookup_cons, HashTable.lookup_cons, ih]
        by_cases hid : loopID = item.1 <;> simp [hid]
  simp only [invocationsOf, clearDumped, hlookup, Option.map_map]
  rfl

/-- `CAM_forceLoopTraceDump`. -/
theorem dumpTraces (h : globals.CallsKept loopID done resumed pending n) (hn : n < 2 ^ 64)
    (hready : ∀ saved, globals.saveRunning = some saved → saved.CallReady)
    (hdump : globals.dumpTraces = some globals') :
    globals'.CallsKept loopID (done + pending) globals.loopRunning 0 n := by
  simp only [PassGlobals.dumpTraces] at hdump
  split at hdump
  · simp at hdump
  · rename_i saved hsave
    rcases Option.map_eq_some_iff.1 hdump with ⟨written, hwrite, rfl⟩
    rcases callText_of_writeTraces hwrite with ⟨loopText, callText, hcallText, rfl⟩
    have hcount := h.count
    have hinvocations := h.invocations
    -- a dump between two invocations writes whole ones, a dump in an invocation cuts it
    cases hstack : globals.runningStack with
    | none =>
        have hsame : globals = saved := by simpa [PassGlobals.saveRunning, hstack] using hsave
        subst hsame
        have hidle : globals.loopRunning = false := by simp [loopRunning, hstack]
        rw [hidle] at hcallText hinvocations ⊢
        have hfile := h.writeCallTraces_idle hn hstack (hready _ hsave) hcallText
        refine ⟨?_, ?_, ShareTable.Holds.empty _ _, h.callTraces.clearTraces, ?_, by simp, by simp,
          hfile⟩
        · rw [invocationsOf_clearDumped]
          have hrunning : globals.clearDumped.loopRunning = false := hidle
          simpa [clearDumped, loopRunning, hstack, invocationsOf] using hinvocations
        · rw [invocationsOf_clearDumped]
          exact hcount
        · intro loop calls hloop
          have hnone : globals.runningStack = some (loop, calls) := hloop
          rw [hstack] at hnone
          simp at hnone
    | some stack =>
        rcases stack with ⟨loop, calls⟩
        rcases h.saveRunning hn hstack hsave with
          ⟨loop', calls', hstack', hid, hnum, hcalls, htraces, hsaved, hholds, hlast, hfile⟩
        have hrunning : globals.loopRunning = true := by simp [loopRunning, hstack]
        have hrunning' : saved.loopRunning = true := by simp [loopRunning, hstack']
        rw [hrunning, if_pos rfl] at hinvocations
        rw [hrunning'] at hcallText
        rw [hrunning]
        have hsavedReady := hready saved hsave
        rcases h.file.append true (Nat.succ_pos pending) hholds hsavedReady.length_lt
          hsavedReady.infos (by omega) (fun _ => hlast) with ⟨text, htext, hreads⟩
        rw [htext] at hcallText
        rcases Option.some.inj hcallText with rfl
        refine ⟨?_, ?_, ShareTable.Holds.empty _ _, htraces.clearTraces, ?_, fun _ _ => rfl, ?_, ?_⟩
        · rw [invocationsOf_clearDumped]
          simpa [clearDumped, loopRunning, hstack', invocationsOf] using hsaved
        · rw [invocationsOf_clearDumped]
          exact hsaved.trans_le (hinvocations ▸ hcount)
        · intro loop₁ calls₁ hloop
          have hsome : saved.runningStack = some (loop₁, calls₁) := hloop
          rw [hstack'] at hsome
          rcases Prod.mk.inj (Option.some.inj hsome) with ⟨rfl, rfl⟩
          exact ⟨hid, hnum, hcalls⟩
        · intro hnone
          have hnone' : saved.runningStack = none := hnone
          simp [hstack'] at hnone'
        · simp only [clearDumped, hfile]
          exact hreads

/-- Any call of the interface that the tracer takes. -/
theorem step (h : globals.CallsKept loopID done resumed pending n) (hn : n + 1 < 2 ^ 64)
    {c : ApiCall} (hloop : c.startedLoop = none ∨ c.startedLoop = some loopID)
    (hready : c = .forceLoopTraceDump →
      ∀ saved, globals.saveRunning = some saved → saved.CallReady)
    (hstep : globals.step c = some globals') :
    ∃ done' resumed' pending', globals'.CallsKept loopID done' resumed' pending' (n + 1) := by
  have hmono := h.mono (Nat.le_succ n)
  cases c with
  | loopInvocationStart id =>
      obtain rfl : id = loopID := by simpa [ApiCall.startedLoop] using hloop
      exact ⟨_, _, _, h.loopInvocationStart hstep⟩
  | loopInvocationEnd => exact ⟨_, _, _, hmono.loopInvocationEnd hstep⟩
  | loopIterationStart => exact ⟨_, _, _, hmono.loopIterationStart hstep⟩
  | seenInstruction instID =>
      rcases Option.some.inj hstep with rfl
      exact ⟨_, _, _, h.seenInstruction instID hn⟩
  | callInvocationStart instID =>
      rcases Option.some.inj hstep with rfl
      exact ⟨_, _, _, h.callInvocationStart instID⟩
  | callInvocationEnd => exact ⟨_, _, _, hmono.callInvocationEnd hn hstep⟩
  | forceLoopTraceDump => exact ⟨_, _, _, hmono.dumpTraces hn (hready rfl) hstep⟩

end CallsKept
end PassGlobals

/-! ## Runs of the library -/

namespace LoopTracer

variable {t t' : LoopTracer} {loopID : UInt64} {n : Nat}

/-- A run whose call trace can be read: one loop, entries that fit their writer at every dump and at
the end, and no loop running at the end. -/
structure CallReady (t : LoopTracer) (loopID : UInt64) (cs : List (ApiCall × Bool)) : Prop where
  loop : ∀ c ∈ cs, c.1.startedLoop = none ∨ c.1.startedLoop = some loopID
  dumps : t.AtDumps PassGlobals.CallReady cs
  shutdown : ∀ t', t.run cs = some t' → t'.globals.loopRunning = false ∧ t'.globals.CallReady

instance (t : LoopTracer) (loopID : UInt64) (cs : List (ApiCall × Bool)) :
    Decidable (t.CallReady loopID cs) :=
  haveI := decidableOfOption (t.run cs) fun t' =>
    t'.globals.loopRunning = false ∧ t'.globals.CallReady
  decidable_of_iff ((∀ c ∈ cs, c.1.startedLoop = none ∨ c.1.startedLoop = some loopID) ∧
      t.AtDumps PassGlobals.CallReady cs ∧
      ∀ t', t.run cs = some t' → t'.globals.loopRunning = false ∧ t'.globals.CallReady)
    ⟨fun h => ⟨h.1, h.2.1, h.2.2⟩, fun h => ⟨h.loop, h.dumps, h.shutdown⟩⟩

/-- In every run the relation is kept. -/
theorem callsKept_run {cs : List (ApiCall × Bool)} :
    ∀ {t : LoopTracer} {done pending n : Nat} {resumed : Bool},
      t.globals.CallsKept loopID done resumed pending n → n + cs.length < 2 ^ 64 →
      (∀ c ∈ cs, c.1.startedLoop = none ∨ c.1.startedLoop = some loopID) →
      t.AtDumps PassGlobals.CallReady cs → t.run cs = some t' →
      ∃ done' resumed' pending',
        t'.globals.CallsKept loopID done' resumed' pending' (n + cs.length) := by
  induction cs with
  | nil =>
      intro t done pending n resumed h _ _ _ hrun
      rcases Option.some.inj hrun with rfl
      exact ⟨done, resumed, pending, h⟩
  | cons c cs ih =>
      intro t done pending n resumed h hn hloop hdumps hrun
      rw [List.length_cons] at hn
      simp only [run] at hrun
      split at hrun
      · simp at hrun
      · rename_i t₁ hstep
        have hkept : ∃ done₁ resumed₁ pending₁,
            t₁.globals.CallsKept loopID done₁ resumed₁ pending₁ (n + 1) := by
          rcases step_eq_some hstep with hsame | hstep'
          · rw [hsame]
            exact ⟨done, resumed, pending, h.mono (Nat.le_succ n)⟩
          · exact h.step (by omega) (hloop c (by simp)) hdumps.1 hstep'
        rcases hkept with ⟨done₁, resumed₁, pending₁, h₁⟩
        have hsum : n + 1 + cs.length = n + (c :: cs).length := by
          rw [List.length_cons]
          omega
        rw [← hsum]
        exact ih h₁ (by omega) (fun c' hc' => hloop c' (List.mem_cons_of_mem _ hc'))
          (hdumps.2 t₁ hstep) hrun

/-- `loop_trace_shutdown` writes what is left. -/
theorem callsKept_shutdown {done pending : Nat} {resumed : Bool}
    (h : t.globals.CallsKept loopID done resumed pending n) (hn : n < 2 ^ 64)
    (hidle : t.globals.loopRunning = false) (hready : t.globals.CallReady) {files : Files}
    (hshutdown : t.shutdown = some (some files)) :
    CallFileReads files.callTrace (t.numInvocations loopID) false := by
  have hstack : t.globals.runningStack = none := by
    simpa [PassGlobals.loopRunning] using hidle
  have hinvocations : t.numInvocations loopID = done + pending := by
    have hcount := h.invocations
    rw [hidle, if_neg (by simp), Nat.add_zero] at hcount
    exact hcount
  rw [hinvocations]
  simp only [shutdown] at hshutdown
  split at hshutdown
  · split at hshutdown
    · simp at hshutdown
    · rename_i globals hwrite
      rcases PassGlobals.callText_of_writeTraces hwrite with ⟨loopText, callText, hcallText, rfl⟩
      rw [hidle] at hcallText
      split at hshutdown
      · simp at hshutdown
      · rcases Option.some.inj (Option.some.inj hshutdown) with rfl
        exact h.writeCallTraces_idle hn hstack hready hcallText
  · simp at hshutdown

/-- What the library leaves in the call trace, where it can be read. -/
theorem callFileReads_of_callReady {cs : List (ApiCall × Bool)} (hlen : cs.length < 2 ^ 64)
    (hready : init.CallReady loopID cs) {files : Files} (hrun : init.run cs = some t)
    (hshutdown : t.shutdown = some (some files)) :
    CallFileReads files.callTrace (t.numInvocations loopID) false := by
  rcases callsKept_run (PassGlobals.CallsKept.new loopID) (by omega) hready.loop hready.dumps hrun
    with ⟨done, resumed, pending, h⟩
  have hend := hready.shutdown t hrun
  exact callsKept_shutdown h (by omega) hend.1 hend.2 hshutdown

end LoopTracer
end CamAlias
