import CamAlias.Tracer.CallRuns
import CamAlias.Tracer.LoopRuns

/-!
# Readable — reading what the library has written until nothing is left

`LoopTraceStreamer::getNextEntry` and `CallTraceStreamer::getNextEntry` until they return 0.  Where
there was something to write at every dump and at the end, both traces are read without a fault
(`writesReadable_of_ready`).  The completion symbol does not depend on that, and the parsers take it
only behind an entry.
-/

namespace CamAlias

/-- `while (getNextEntry(lte)) {}` comes to the end of the loop trace. -/
def LoopTraceReadable (loopTrace : List BzRead) : Prop :=
  ∃ es, ∀ fuel, es.length < fuel →
    LoopTraceStreamer.entryStream.readEntries fuel (LoopTraceStreamer.ofFile loopTrace) = .ok es

/-- `while (getNextEntry(clig)) {}` comes to the end of the call trace. -/
def CallTraceReadable (callTrace : List BzRead) : Prop :=
  ∃ es, ∀ fuel, es.length < fuel →
    CallTraceStreamer.entryStream.readEntries fuel (CallTraceStreamer.ofFile callTrace) = .ok es

theorem LoopFileFollows.readable {file : List Char} {done : List Invocation}
    (h : LoopFileFollows file done none) {reads : List BzRead} (hreads : Delivered file reads) :
    LoopTraceReadable reads := by
  rcases h.exists_entries with ⟨es, hserves, -, -⟩
  exact ⟨es, fun fuel hfuel => (hserves reads hreads).readEntries_eq hfuel⟩

theorem CallFileReads.readable {file : List Char} {done : Nat} (h : CallFileReads file done false)
    {reads : List BzRead} (hreads : Delivered file reads) : CallTraceReadable reads := by
  rcases h with ⟨chunks, hvalid, hprints, es, o, hjoin, -, -, hincomplete⟩
  cases o with
  | some o => exact absurd hincomplete id
  | none =>
      have hserves := CallTraceStreamer.serves_ofFile hvalid ⟨file, hprints, hreads⟩ hjoin
      exact ⟨es, fun fuel hfuel => hserves.readEntries_eq hfuel⟩

namespace LoopTracer

/-- Whatever two traces the run leaves, both can be read, in whatever reads they come. -/
def WritesReadable (cs : List (ApiCall × Bool)) : Prop :=
  ∀ t files, init.run cs = some t → t.shutdown = some (some files) →
    ∀ loopTrace callTrace, Delivered files.loopTrace loopTrace →
      Delivered files.callTrace callTrace →
        LoopTraceReadable loopTrace ∧ CallTraceReadable callTrace

/-- In every run with one loop and less than `2 ^ 64` calls, with something to write at every dump
and at the end, and with no loop running at the end. -/
theorem writesReadable_of_ready (loopID : UInt64) (cs : List (ApiCall × Bool))
    (hlen : cs.length < 2 ^ 64) (hloop : init.LoopReady loopID cs)
    (hcall : init.CallReady loopID cs) : WritesReadable cs := by
  intro t files hrun hshutdown loopTrace callTrace hloopTrace hcallTrace
  rcases exists_loopFileFollows hlen hloop hrun hshutdown with ⟨invocations, hfile, -⟩
  have hcalls := callFileReads_of_callReady hlen hcall hrun hshutdown
  exact ⟨hfile.readable hloopTrace, hcalls.readable hcallTrace⟩

/-- Dumps inside a call, between two invocations and before the first iteration. -/
theorem writesReadable_of_ready_dumps : WritesReadable (inTime [.loopInvocationStart 1,
    .loopIterationStart, .seenInstruction 5, .callInvocationStart 5, .seenInstruction 7,
    .forceLoopTraceDump, .callInvocationEnd, .loopInvocationEnd, .forceLoopTraceDump,
    .loopInvocationStart 1, .forceLoopTraceDump, .loopInvocationEnd]) :=
  writesReadable_of_ready 1 _ (by decide) (by decide +kernel) (by decide +kernel)

/-- A dump behind the last invocation leaves nothing to write at the end but a completion symbol,
and `getNextEntry` aborts there. -/
theorem not_writesReadable_dump_before_shutdown :
    ¬ WritesReadable (inTime [.loopInvocationStart 0, .loopIterationStart, .loopInvocationEnd,
      .forceLoopTraceDump]) := by
  intro h
  let cs := inTime [.loopInvocationStart 0, .loopIterationStart, .loopInvocationEnd,
    .forceLoopTraceDump]
  have hread : ((init.run cs).bind fun t => t.shutdown.bind fun files => files.map fun files =>
      (files.loopTrace.any isSeparator && files.callTrace.any isSeparator,
        (LoopTraceStreamer.entryStream.readEntries 2
          (LoopTraceStreamer.ofFile (wholeRead files.loopTrace))).map List.length))
            = some (true, .error .abort) := by
    decide +kernel
  rcases Option.bind_eq_some_iff.1 hread with ⟨t, hrun, hread⟩
  rcases Option.bind_eq_some_iff.1 hread with ⟨files?, hshutdown, hread⟩
  rcases Option.map_eq_some_iff.1 hread with ⟨files, rfl, herror⟩
  rcases Prod.mk.inj herror with ⟨hseparators, herror⟩
  rcases Bool.and_eq_true_iff.1 hseparators with ⟨hloop, hcall⟩
  rcases (h t files hrun hshutdown _ _ (delivered_wholeRead hloop) (delivered_wholeRead hcall)).1 with
    ⟨es, hes⟩
  have habort : LoopTraceStreamer.entryStream.readEntries 2
      (LoopTraceStreamer.ofFile (wholeRead files.loopTrace)) = .error .abort := by
    cases hcase : LoopTraceStreamer.entryStream.readEntries 2
        (LoopTraceStreamer.ofFile (wholeRead files.loopTrace)) with
    | error f =>
        rw [hcase] at herror
        exact congrArg Except.error (Except.error.inj herror)
    | ok es =>
        rw [hcase] at herror
        cases herror
  have hmore := EntryStream.readEntries_error habort (by decide) es.length
  rw [hes (2 + es.length) (by omega)] at hmore
  cases hmore

end LoopTracer
end CamAlias
