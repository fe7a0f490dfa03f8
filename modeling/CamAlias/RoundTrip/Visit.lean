import CamAlias.Analyser.StreamParse
import CamAlias.Tracer.LoopRuns

/-!
# Visit — the invocations that are visited while a loop trace is parsed

`StreamParseLoopRec::ii_begin` and `ii_next` on what the library has written.  Where the library had
something to write at every dump, the iterator visits the invocations of the loop in order, each with
the entry that holds it (`visitsAll_of_loopReady`).  A dump behind an invocation, followed by the end
of the program, writes a completion symbol with no entry before it, and the parser aborts behind the
last invocation.
-/

namespace CamAlias

open Lib

namespace StreamParseLoopRec

/-! ## The invocations that are visited -/

/-- `for (ii = ...; ii != ii_end(); ii = ii_next(ii))`: the invocation numbers and their entries. -/
def invocationsFrom : Nat → StreamParseLoopRec → InvocationIterator →
    Except Fault (List (Nat × LoopTraceEntry))
  | _, _, none => .ok []
  | 0, _, some _ => .error .noFuel
  | fuel + 1, sloop, some ii =>
      match sloop.entryAt ii.1 with
      | .error e => .error e
      | .ok lte =>
          match sloop.ii_next ii with
          | .error e => .error e
          | .ok (sloop, next) =>
              (invocationsFrom fuel sloop next).map fun visited => (ii.2, lte) :: visited

/-- All invocations from `ii_begin` on. -/
def invocations (fuel : Nat) (sloop : StreamParseLoopRec) :
    Except Fault (List (Nat × LoopTraceEntry)) :=
  match sloop.ii_begin with
  | .error e => .error e
  | .ok (sloop, ii) => invocationsFrom fuel sloop ii

/-- The invocations are visited in order, each once and with the entry that holds it. -/
def VisitsAll (loopTrace : List BzRead) (numInvocations : Nat) : Prop :=
  ∀ fuel, numInvocations ≤ fuel → ∃ visited, invocations fuel (ofFile loopTrace) = .ok visited ∧
    visited.map Prod.fst = List.range numInvocations ∧
    ∀ v ∈ visited, v.1 ∈ numbers v.2.invocationRepetitionPattern

variable {es : List LoopTraceEntry} {invs : List (List (List UInt64))}

/-- The loop from some invocation on. -/
theorem invocationsFrom_eq (hgroups : Groups LoopTraceEntry.Stands 0 invs (loopPieces.tag es))
    (hseen : FirstSeen 0 (fun _ => False) (loopPieces.tag es)) :
    ∀ (m n fuel : Nat) (sloop : StreamParseLoopRec) (parsed rest : List LoopTraceEntry),
      n + m = invs.length → m ≤ fuel → Reading es n n sloop parsed rest →
      ∃ sloop' ii visited, sloop.iteratorAt n = .ok (sloop', ii) ∧
        invocationsFrom fuel sloop' ii = .ok visited ∧ visited.map Prod.fst = List.range' n m ∧
        ∀ v ∈ visited, v.1 ∈ numbers v.2.invocationRepetitionPattern := by
  intro m
  induction m with
  | zero =>
      intro n fuel sloop parsed rest hn _ h
      rcases h.iteratorAt_end hgroups hseen (by omega) with ⟨sloop', hend⟩
      refine ⟨sloop', none, [], hend, ?_, rfl, by simp⟩
      cases fuel <;> rfl
  | succ m ih =>
      intro n fuel sloop parsed rest hn hfuel h
      rcases h.visit hgroups hseen (by omega) with
        ⟨sloop', sloop'', parsed', rest', iter, lte, hiterator, -, hmem, hentry, hnext, h''⟩
      match fuel, hfuel with
      | fuel + 1, hfuel =>
          rcases ih (n + 1) fuel sloop'' parsed' rest' (by omega) (by omega) h'' with
            ⟨sloop₃, ii, visited, hiterator', hvisited, hnumbers, hmembers⟩
          refine ⟨sloop', some (iter, n), (n, lte.precomputeDataStructures) :: visited, hiterator, ?_,
            ?_, ?_⟩
          · simp only [invocationsFrom, hentry, hnext, hiterator', hvisited, Except.map]
          · rw [List.map_cons, hnumbers, List.range'_succ]
          · intro v hv
            rcases List.mem_cons.1 hv with rfl | hv
            · exact hmem
            · exact hmembers v hv

/-- The invocations of a file whose entries stand for `invs` are all visited. -/
theorem visitsAll_of_entries {loopTrace : List BzRead}
    (hserves : LoopTraceStreamer.entryStream.Serves (LoopTraceStreamer.ofFile loopTrace) es)
    (hgroups : Groups LoopTraceEntry.Stands 0 invs (loopPieces.tag es))
    (hseen : FirstSeen 0 (fun _ => False) (loopPieces.tag es)) : VisitsAll loopTrace invs.length := by
  intro fuel hfuel
  rcases invocationsFrom_eq hgroups hseen invs.length 0 fuel _ [] es (by simp) hfuel
    (Reading.start hserves) with ⟨sloop', ii, visited, hiterator, hvisited, hnumbers, hmembers⟩
  refine ⟨visited, ?_, ?_, hmembers⟩
  · simp only [invocations, ii_begin, ofFile, hiterator, hvisited]
  · rw [hnumbers, List.range_eq_range']

end StreamParseLoopRec

/-! ## What the library writes -/

namespace LoopTracer

/-- Whatever loop trace the run leaves, all its invocations are visited, in whatever reads it comes. -/
def VisitsAll (loopID : UInt64) (cs : List (ApiCall × Bool)) : Prop :=
  ∀ t files, init.run cs = some t → t.shutdown = some (some files) →
    ∀ loopTrace, Delivered files.loopTrace loopTrace →
      StreamParseLoopRec.VisitsAll loopTrace (t.numInvocations loopID)

/-- In every run with one loop and less than `2 ^ 64` calls, with something to write at every dump
and at the end, and with no loop running at the end. -/
theorem visitsAll_of_loopReady (loopID : UInt64) (cs : List (ApiCall × Bool))
    (hlen : cs.length < 2 ^ 64) (hready : init.LoopReady loopID cs) : VisitsAll loopID cs := by
  intro t files hrun hshutdown loopTrace hloopTrace
  rcases exists_loopFileFollows hlen hready hrun hshutdown with ⟨invocations, hfile, hnum⟩
  rcases hfile.exists_entries with ⟨es, hserves, hgroups, hseen⟩
  have hvisits :=
    StreamParseLoopRec.visitsAll_of_entries (hserves loopTrace hloopTrace) hgroups hseen
  rwa [List.length_map, ← hnum] at hvisits

/-- Dumps before the first iteration, inside nested calls and between two invocations. -/
theorem visitsAll_of_loopReady_dumps : VisitsAll 1 (inTime [.loopInvocationStart 1,
    .seenInstruction 7, .forceLoopTraceDump, .loopIterationStart, .seenInstruction 3,
    .callInvocationStart 5, .callInvocationStart 6, .seenInstruction 7, .forceLoopTraceDump,
    .callInvocationEnd, .callInvocationEnd, .loopInvocationEnd, .forceLoopTraceDump,
    .loopInvocationStart 1, .loopIterationStart, .loopInvocationEnd]) :=
  visitsAll_of_loopReady 1 _ (by decide) (by decide +kernel)

/-- A dump behind the last invocation leaves nothing to write at the end but a completion symbol,
which the parser does not take. -/
theorem not_visitsAll_dump_before_shutdown :
    ¬ VisitsAll 0 (inTime [.loopInvocationStart 0, .loopIterationStart, .loopInvocationEnd,
      .forceLoopTraceDump]) := by
  intro h
  let cs := inTime [.loopInvocationStart 0, .loopIterationStart, .loopInvocationEnd,
    .forceLoopTraceDump]
  have hvisit : ((init.run cs).bind fun t => t.shutdown.bind fun files => files.map fun files =>
      (files.loopTrace.any isSeparator, (StreamParseLoopRec.invocations (t.numInvocations 0)
        (StreamParseLoopRec.ofFile (wholeRead files.loopTrace))).isOk)) = some (true, false) := by
    decide +kernel
  rcases Option.bind_eq_some_iff.1 hvisit with ⟨t, hrun, hshutdown⟩
  rcases Option.bind_eq_some_iff.1 hshutdown with ⟨files?, hshutdown, hfiles⟩
  rcases Option.map_eq_some_iff.1 hfiles with ⟨files, rfl, herror⟩
  rcases Prod.mk.inj herror with ⟨hseparator, herror⟩
  rcases h t files hrun hshutdown _ (delivered_wholeRead hseparator) _ (Nat.le_refl _) with
    ⟨visited, hvisited, -⟩
  rw [hvisited] at herror
  simp [Except.isOk, Except.toBool] at herror

end LoopTracer
end CamAlias
