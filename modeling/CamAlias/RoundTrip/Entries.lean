import CamAlias.Analyser.InstanceTable
import CamAlias.Lexer.CallFirstPass
import CamAlias.Lexer.FirstPass
import CamAlias.Tracer.Simulation

/-!
# Entries — the entries of a trace before anything is built from them

The entries of both traces come from the lexer without tables and caches, and a merge keeps them so.

* `LoopFileFollows.exists_freshEntries`: the entries of a loop trace, with the instructions of the
  first pass;
* `CallFileFollows.exists_freshEntries`: the entries of a call trace, with the call IDs and the
  instructions of the first pass.
-/

namespace CamAlias

open Lib

/-! ## The loop trace -/

namespace LoopTraceEntry

/-- No table of instances has been built. -/
def Fresh (lte : LoopTraceEntry) : Prop :=
  lte.invocation.instructionInstanceLut = ∅

theorem fresh_joinPiece {e piece e' : LoopTraceEntry} (he : e.Fresh)
    (h : LoopTraceStreamer.entryStream.joinPiece e piece = .ok e') : e'.Fresh := by
  rcases joinPiece_eq_ok h with ⟨-, hne, hmerge⟩
  rcases mergeInto_eq_ok hne hmerge with ⟨-, iterations, left, -, rfl⟩
  exact he

end LoopTraceEntry

/-- The entries of a loop trace, and the first pass over it. -/
theorem LoopFileFollows.exists_freshEntries {file : List Char} {done : List Invocation}
    (h : LoopFileFollows file done none) :
    ∃ es, Groups LoopTraceEntry.Stands 0 (done.map Invocation.iterations) (loopPieces.tag es) ∧
      FirstSeen 0 (fun _ => False) (loopPieces.tag es) ∧ (∀ e ∈ es, e.Fresh) ∧
      ∀ reads, Delivered file reads →
        LoopTraceStreamer.entryStream.Serves (LoopTraceStreamer.ofFile reads) es ∧
        (0 < done.length → done.length < 2 ^ 64 → ∃ instrList,
          LoopTraceStreamer.parseForInstructionList reads = .ok (instrList, done.length) ∧
          ∀ s, s ∈ instrList ↔ ∃ e ∈ es, e.Names s) := by
  rcases h with ⟨chunks, hvalid, hprints, es, o, hjoin, hgroups, hseen, hincomplete⟩
  cases o with
  | some o => exact absurd hincomplete id
  | none =>
      have hitems : ∀ item ∈ chunks.flatMap LoopTraceChunk.items, item.1.Fresh := by
        intro item hitem
        rcases List.mem_flatMap.1 hitem with ⟨c, -, hitem⟩
        rcases List.mem_map.1 (mem_of_mem_pieces hitem) with ⟨inv, -, heq⟩
        rw [← heq]
        rfl
      have hnumbers : ∀ k, (∃ e ∈ es, k ∈ numbers e.invocationRepetitionPattern) ↔
          k < done.length := by
        intro k
        have hperm := hgroups.perm.mem_iff (a := k)
        simpa [PieceModel.tag, loopPieces] using hperm
      refine ⟨es, hgroups, hseen, ?_, fun reads hreads => ?_⟩
      · exact EntryStream.forall_joinEntries
          (fun e piece e' he hpiece => LoopTraceEntry.fresh_joinPiece he hpiece) hjoin (by simp)
          hitems
      · have hfile : Tells reads (chunks.flatMap LoopTraceChunk.tokens) := ⟨file, hprints, hreads⟩
        refine ⟨LoopTraceStreamer.serves_ofFile hvalid hfile hjoin, fun hpos hlt => ?_⟩
        exact LoopTraceStreamer.parseForInstructionList_of_joinEntries hvalid hfile hjoin hpos hlt
          hnumbers

/-! ## The call trace -/

namespace CallTraceLoopInvocationGroup

/-- No cache has been built. -/
structure Fresh (clig : CallTraceLoopInvocationGroup) : Prop where
  empty : clig.callTraceCache = ∅
  notBuilt : clig.callTraceCacheBuilt = false

theorem fresh_joinPiece {e piece e' : CallTraceLoopInvocationGroup} (he : e.Fresh)
    (h : CallTraceStreamer.entryStream.joinPiece e piece = .ok e') : e'.Fresh := by
  rcases joinPiece_eq_ok h with ⟨hne, hmerge⟩
  rcases mergeInto_eq_ok hne hmerge with ⟨left, hinfo⟩
  rw [mergeCallInfo] at hinfo
  cases hcalls : mergeCalls piece.calls.toList e.calls piece.calls with
  | error f => simp [hcalls, Except.map] at hinfo
  | ok calls =>
      simp only [hcalls, Except.map, Except.ok.injEq, Prod.mk.injEq] at hinfo
      rcases hinfo with ⟨rfl, -⟩
      exact ⟨he.empty, he.notBuilt⟩

/-- The calls of an entry are filled in, nothing else. -/
theorem fresh_foldl_addCall (calls : List (UInt64 × List PrintedGroup)) :
    ∀ {clig : CallTraceLoopInvocationGroup}, clig.Fresh →
      (calls.foldl PrintedCallEntry.addCall clig).Fresh := by
  induction calls with
  | nil => exact fun h => h
  | cons call calls ih => exact fun h => ih ⟨h.empty, h.notBuilt⟩

/-- A call with instances is one of the calls. -/
theorem hasCall_of_instancesOf {clig : CallTraceLoopInvocationGroup} {id : UInt64}
    (h : instancesOf clig.calls id ≠ []) : clig.HasCall id := by
  rw [HasCall]
  by_contra hid
  refine h ?_
  rw [instancesOf, Std.ExtTreeMap.getElem?_eq_none hid]
  rfl

end CallTraceLoopInvocationGroup

/-- The entries of a call trace, and the first pass over it. -/
theorem CallFileFollows.exists_freshEntries {file : List Char} {done : List Invocation}
    (h : CallFileFollows file done none) :
    ∃ es,
      Groups CallTraceLoopInvocationGroup.Stands 0 (done.map Invocation.calls) (callPieces.tag es) ∧
      (∀ e ∈ es, e.Fresh) ∧ ∀ reads, Delivered file reads →
        CallTraceStreamer.entryStream.Serves (CallTraceStreamer.ofFile reads) es ∧
        ∃ callList subInstrList,
          CallTraceStreamer.parseForInstructionLists reads = .ok (callList, subInstrList) ∧
          (∀ e ∈ es, ∀ id, e.HasCall id → id ∈ callList) ∧
          ∀ s, s ∈ subInstrList ↔ ∃ e ∈ es, e.Names s := by
  rcases h with ⟨chunks, hvalid, hprints, es, o, hjoin, hgroups, -, hincomplete⟩
  cases o with
  | some o => exact absurd hincomplete id
  | none =>
      have hitems : ∀ item ∈ chunks.flatMap CallTraceChunk.items, item.1.Fresh := by
        intro item hitem
        rcases List.mem_flatMap.1 hitem with ⟨c, -, hitem⟩
        rcases List.mem_map.1 (mem_of_mem_pieces hitem) with ⟨e, -, heq⟩
        rw [← heq]
        exact CallTraceLoopInvocationGroup.fresh_foldl_addCall e.calls ⟨rfl, rfl⟩
      refine ⟨es, hgroups, ?_, fun reads hreads => ?_⟩
      · exact EntryStream.forall_joinEntries
          (fun e piece e' he hpiece => CallTraceLoopInvocationGroup.fresh_joinPiece he hpiece) hjoin
          (by simp) hitems
      · have hfile : Tells reads (chunks.flatMap CallTraceChunk.tokens) := ⟨file, hprints, hreads⟩
        rcases CallTraceStreamer.parseForInstructionLists_of_joinEntries hvalid hfile hjoin with
          ⟨callList, subInstrList, hparse, hcalls, hnames⟩
        exact ⟨CallTraceStreamer.serves_ofFile hvalid hfile hjoin, callList, subInstrList, hparse,
          fun e he id hid => (hcalls id).2 ⟨e, he, hid⟩, hnames⟩

end CamAlias
