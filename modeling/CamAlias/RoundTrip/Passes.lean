import CamAlias.RoundTrip.Entries
import CamAlias.RoundTrip.Visit
import CamAlias.Tracer.CallRuns

/-!
# Passes — the first and the second pass over a trace

`parseForInstructionList` and `parseForInstructionLists` run over a whole file before the entries are
read from it one by one.  Where the library had something to write at every dump and at the end, the
two passes find the same instructions, calls and invocations (`passesAgree_of_ready`).  A dump behind
the last invocation leaves a completion symbol that neither pass takes.
-/

namespace CamAlias

open Lib

/-! ## Agreement -/

/-- The first pass over the loop trace finds the symbols of the entries that the second pass builds,
and the number of invocations that it visits. -/
def LoopPassesAgree (loopTrace : List BzRead) : Prop :=
  ∃ instrs numInvocations es,
    LoopTraceStreamer.parseForInstructionList loopTrace = .ok (instrs, numInvocations) ∧
    (∀ fuel, es.length < fuel → LoopTraceStreamer.entryStream.readEntries fuel
      (LoopTraceStreamer.ofFile loopTrace) = .ok es) ∧
    (∀ s, s ∈ instrs ↔ ∃ e ∈ es, e.Names s) ∧
    StreamParseLoopRec.VisitsAll loopTrace numInvocations

/-- The first pass over the call trace finds the call IDs and the symbols of the entries that the
second pass builds. -/
def CallPassesAgree (callTrace : List BzRead) : Prop :=
  ∃ callList subInstrList es,
    CallTraceStreamer.parseForInstructionLists callTrace = .ok (callList, subInstrList) ∧
    (∀ fuel, es.length < fuel → CallTraceStreamer.entryStream.readEntries fuel
      (CallTraceStreamer.ofFile callTrace) = .ok es) ∧
    (∀ id, id ∈ callList ↔ ∃ e ∈ es, e.HasCall id) ∧
    ∀ s, s ∈ subInstrList ↔ ∃ e ∈ es, e.Names s

/-- Both passes over a loop trace with an invocation. -/
theorem LoopFileFollows.loopPassesAgree {file : List Char} {done : List Invocation}
    (h : LoopFileFollows file done none) (hpos : 0 < done.length) (hlt : done.length < 2 ^ 64)
    {reads : List BzRead} (hreads : Delivered file reads) : LoopPassesAgree reads := by
  rcases h.exists_freshEntries with ⟨es, hgroups, hseen, -, hdelivered⟩
  rcases hdelivered reads hreads with ⟨hserves, hinstrs⟩
  rcases hinstrs hpos hlt with ⟨instrs, hparse, hnames⟩
  have hvisits := StreamParseLoopRec.visitsAll_of_entries hserves hgroups hseen
  rw [List.length_map] at hvisits
  exact ⟨instrs, _, es, hparse,
    fun fuel hfuel => hserves.readEntries_eq hfuel, hnames, hvisits⟩

/-- The entries of a call trace that can be read. -/
theorem CallFileReads.callPassesAgree {file : List Char} {done : Nat}
    (h : CallFileReads file done false) {reads : List BzRead} (hreads : Delivered file reads) :
    CallPassesAgree reads := by
  rcases h with ⟨chunks, hvalid, hprints, es, o, hjoin, -, -, hincomplete⟩
  cases o with
  | some o => exact absurd hincomplete id
  | none =>
      have hfile : Tells reads (chunks.flatMap CallTraceChunk.tokens) := ⟨file, hprints, hreads⟩
      have hserves := CallTraceStreamer.serves_ofFile hvalid hfile hjoin
      rcases CallTraceStreamer.parseForInstructionLists_of_joinEntries hvalid hfile hjoin with
        ⟨callList, subInstrList, hparse, hcalls, hnames⟩
      exact ⟨callList, subInstrList, es, hparse,
        fun fuel hfuel => hserves.readEntries_eq hfuel, hcalls, hnames⟩

/-! ## What the library writes -/

namespace LoopTracer

/-- Whatever two traces the run leaves, if there is an invocation the passes agree on both, in whatever
reads they come. -/
def PassesAgree (loopID : UInt64) (cs : List (ApiCall × Bool)) : Prop :=
  ∀ t files, init.run cs = some t → t.shutdown = some (some files) → 0 < t.numInvocations loopID →
    ∀ loopTrace callTrace, Delivered files.loopTrace loopTrace →
      Delivered files.callTrace callTrace → LoopPassesAgree loopTrace ∧ CallPassesAgree callTrace

/-- In every run with one loop and less than `2 ^ 64` calls, with something to write at every dump
and at the end, and with no loop running at the end. -/
theorem passesAgree_of_ready (loopID : UInt64) (cs : List (ApiCall × Bool))
    (hlen : cs.length < 2 ^ 64) (hloop : init.LoopReady loopID cs)
    (hcall : init.CallReady loopID cs) : PassesAgree loopID cs := by
  intro t files hrun hshutdown hpos loopTrace callTrace hloopTrace hcallTrace
  constructor
  · rcases loopFollows_run (PassGlobals.LoopFollows.new loopID) (by omega) hloop.loop hloop.dumps hrun
      with ⟨r, h⟩
    have hend := hloop.shutdown t hrun
    rcases loopFollows_shutdown h (by omega) hend.1 hend.2 hshutdown with ⟨hfile, hnum⟩
    refine hfile.loopPassesAgree (by omega) ?_ hloopTrace
    have hended := h.within.ended
    rw [Recorder.length_recorded, Recorder.numEnded]
    omega
  · exact (callFileReads_of_callReady hlen hcall hrun hshutdown).callPassesAgree hcallTrace

/-- Dumps before the first iteration, inside nested calls and between two invocations. -/
theorem passesAgree_of_ready_dumps : PassesAgree 1 (inTime [.loopInvocationStart 1,
    .seenInstruction 7, .forceLoopTraceDump, .loopIterationStart, .seenInstruction 3,
    .callInvocationStart 5, .callInvocationStart 6, .seenInstruction 7, .forceLoopTraceDump,
    .callInvocationEnd, .callInvocationEnd, .loopInvocationEnd, .forceLoopTraceDump,
    .loopInvocationStart 1, .loopIterationStart, .loopInvocationEnd]) :=
  passesAgree_of_ready 1 _ (by decide) (by decide +kernel) (by decide +kernel)

/-- A dump behind the last invocation leaves nothing to write at the end but a completion symbol,
which stops the first pass. -/
theorem not_passesAgree_dump_before_shutdown :
    ¬ PassesAgree 0 (inTime [.loopInvocationStart 0, .loopIterationStart, .loopInvocationEnd,
      .forceLoopTraceDump]) := by
  intro h
  let cs := inTime [.loopInvocationStart 0, .loopIterationStart, .loopInvocationEnd,
    .forceLoopTraceDump]
  have hpass : ((init.run cs).bind fun t => t.shutdown.bind fun files => files.map fun files =>
      (decide (0 < t.numInvocations 0) && files.loopTrace.any isSeparator &&
          files.callTrace.any isSeparator,
        (LoopTraceStreamer.parseForInstructionList (wholeRead files.loopTrace)).isOk))
          = some (true, false) := by
    decide +kernel
  rcases Option.bind_eq_some_iff.1 hpass with ⟨t, hrun, hshutdown⟩
  rcases Option.bind_eq_some_iff.1 hshutdown with ⟨files?, hshutdown, hfiles⟩
  rcases Option.map_eq_some_iff.1 hfiles with ⟨files, rfl, herror⟩
  rcases Prod.mk.inj herror with ⟨hchecked, herror⟩
  simp only [Bool.and_eq_true, decide_eq_true_eq] at hchecked
  rcases hchecked with ⟨⟨hpos, hloop⟩, hcall⟩
  rcases (h t files hrun hshutdown hpos _ _ (delivered_wholeRead hloop)
    (delivered_wholeRead hcall)).1 with ⟨instrs, n, es, hparse, -⟩
  rw [hparse] at herror
  simp [Except.isOk, Except.toBool] at herror

end LoopTracer
end CamAlias
