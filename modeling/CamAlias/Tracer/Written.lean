import CamAlias.Tracer.Meaning
import CamAlias.Tracer.Recorder

/-!
# Written — the two files follow the recorder

`LoopFileFollows` and `CallFileFollows`: the entries that are read from a file stand for the
invocations that the recorder has written.  A further write keeps this, as long as what it writes
fits the widths of the writer (`Fits`).
-/

namespace CamAlias

open Lib

/-! ## What fits the writer -/

/-- Positions of sharers are returned as an `int`, the iterations of an invocation are counted with
`%d`, the groups with `%u`. -/
structure LoopTrace.Fits (trace : LoopTrace) : Prop where
  length_lt : trace.groups.infos.length < 2 ^ 32
  infos : ∀ info ∈ trace.groups.infos, info.sharers.length < 2 ^ 31 ∧
    info.payload.length < 2 ^ 31 ∧ ∀ it ∈ info.payload, it.sharers.length < 2 ^ 31

/-- The same for an entry of the call trace, whose table has not outgrown the primes of
`xantable.c`. -/
structure LoopInvocationCallInfo.Fits (info : LoopInvocationCallInfo) : Prop where
  sharers : info.sharers.length < 2 ^ 31
  walks : info.payload.walk.isSome = true
  length_lt : info.payload.getNumTraces < 2 ^ 32
  traces : ∀ item ∈ info.payload, item.2.groups.infos.length < 2 ^ 32 ∧
    ∀ i ∈ item.2.groups.infos, i.sharers.length < 2 ^ 31

/-- What a write writes now fits. -/
structure PassGlobals.Fits (globals : PassGlobals) : Prop where
  loopTraces : ∀ item ∈ globals.loopTraces, LoopTrace.Fits item.2
  callInfos : globals.loopInvCallInfos.infos.length < 2 ^ 31
  callTraces : ∀ info ∈ globals.loopInvCallInfos.infos, LoopInvocationCallInfo.Fits info

instance (trace : LoopTrace) : Decidable (LoopTrace.Fits trace) :=
  decidable_of_iff (trace.groups.infos.length < 2 ^ 32 ∧
      ∀ info ∈ trace.groups.infos, info.sharers.length < 2 ^ 31 ∧
        info.payload.length < 2 ^ 31 ∧ ∀ it ∈ info.payload, it.sharers.length < 2 ^ 31)
    ⟨fun h => ⟨h.1, h.2⟩, fun h => ⟨h.length_lt, h.infos⟩⟩

instance (info : LoopInvocationCallInfo) : Decidable (LoopInvocationCallInfo.Fits info) :=
  decidable_of_iff (info.sharers.length < 2 ^ 31 ∧ info.payload.walk.isSome = true ∧
      info.payload.getNumTraces < 2 ^ 32 ∧
      ∀ item ∈ info.payload, item.2.groups.infos.length < 2 ^ 32 ∧
        ∀ i ∈ item.2.groups.infos, i.sharers.length < 2 ^ 31)
    ⟨fun h => ⟨h.1, h.2.1, h.2.2.1, h.2.2.2⟩, fun h => ⟨h.sharers, h.walks, h.length_lt, h.traces⟩⟩

instance (globals : PassGlobals) : Decidable globals.Fits :=
  decidable_of_iff ((∀ item ∈ globals.loopTraces, LoopTrace.Fits item.2) ∧
      globals.loopInvCallInfos.infos.length < 2 ^ 31 ∧
      ∀ info ∈ globals.loopInvCallInfos.infos, LoopInvocationCallInfo.Fits info)
    ⟨fun h => ⟨h.1, h.2.1, h.2.2⟩, fun h => ⟨h.loopTraces, h.callInfos, h.callTraces⟩⟩

/-! ## Putting parts together -/

namespace Recorder

theorem map_iterations_resume (x : Option Invocation) (ps : List InvocationPart) :
    (resume x ps).map Invocation.iterations
      = loopPieces.resume (x.map Invocation.iterations) (ps.map InvocationPart.iterations) := by
  cases ps with
  | nil => cases x <;> rfl
  | cons p ps =>
      cases x <;>
        simp [resume, PieceModel.resume, loopPieces, Function.comp_def, Invocation.join,
          Invocation.empty]

theorem map_calls_resume (x : Option Invocation) (ps : List InvocationPart) :
    (resume x ps).map Invocation.calls
      = callPieces.resume (x.map Invocation.calls) (ps.map InvocationPart.calls) := by
  cases ps with
  | nil => cases x <;> rfl
  | cons p ps =>
      cases x <;>
        simp [resume, PieceModel.resume, callPieces, Function.comp_def, Invocation.join,
          Invocation.empty]

end Recorder

theorem PieceModel.map_settled {φ ψ : Type} (f : φ → ψ) (loopRunning : Bool) (xs : List φ) :
    (PieceModel.settled loopRunning xs).map f = PieceModel.settled loopRunning (xs.map f) := by
  cases loopRunning <;> simp [PieceModel.settled, List.map_dropLast]

theorem PieceModel.map_unsettled {φ ψ : Type} (f : φ → ψ) (loopRunning : Bool) (xs : List φ) :
    (PieceModel.unsettled loopRunning xs).map f = PieceModel.unsettled loopRunning (xs.map f) := by
  cases loopRunning <;> simp [PieceModel.unsettled, List.getLast?_map]

/-! ## The files -/

/-- What the loop trace says so far. -/
def LoopFileFollows (file : List Char) (done : List Invocation) (resumed : Option Invocation) :
    Prop :=
  ∃ chunks : List LoopTraceChunk, (∀ c ∈ chunks, c.Valid) ∧
    PrintsLines file (chunks.flatMap LoopTraceChunk.tokens) ∧
    loopPieces.ReadsTo (chunks.flatMap LoopTraceChunk.items) (done.map Invocation.iterations)
      (resumed.map Invocation.iterations)

/-- What the call trace says so far. -/
def CallFileFollows (file : List Char) (done : List Invocation) (resumed : Option Invocation) :
    Prop :=
  ∃ chunks : List CallTraceChunk, (∀ c ∈ chunks, c.Valid) ∧
    PrintsLines file (chunks.flatMap CallTraceChunk.tokens) ∧
    callPieces.ReadsTo (chunks.flatMap CallTraceChunk.items) (done.map Invocation.calls)
      (resumed.map Invocation.calls)

/-- The parts fit into 64 bits. -/
structure SmallParts (done : List Invocation) (parts : List InvocationPart) : Prop where
  numbers : done.length + parts.length < 2 ^ 64
  parts : ∀ p ∈ parts, p.iterations.first + p.iterations.values.length < 2 ^ 64 ∧
    ∀ id, (p.calls id).first + (p.calls id).values.length < 2 ^ 64

section Append

variable {file : List Char} {done : List Invocation} {resumed : Option Invocation}
  {parts : List InvocationPart} (loopRunning : Bool)

/-- A write with parts in the trace of one loop. -/
theorem LoopFileFollows.append (h : LoopFileFollows file done resumed) (loopID : UInt64)
    {trace : LoopTrace} (hne : parts ≠ [])
    (hholds : trace.groups.Holds SymbolGroups loopPieces.Uncut done.length resumed.isSome
      (parts.map InvocationPart.iterations))
    (hcontinued : ∀ x p, resumed = some x → parts.head? = some p → x.ContinuedBy p)
    (hfits : LoopTrace.Fits trace) (hsmall : SmallParts done parts)
    (hlast : loopRunning = true → ∃ init info, trace.groups.infos = init ++ [info] ∧
      info.members = [done.length + (parts.length - 1)]) :
    ∃ text, writeLoopTraces [(loopID, trace)] loopRunning = some text ∧
      LoopFileFollows (file ++ text)
        (done ++ PieceModel.settled loopRunning (Recorder.resume resumed parts))
        (PieceModel.unsettled loopRunning (Recorder.resume resumed parts)) := by
  rcases h with ⟨chunks, hvalid, hprints, hreads⟩
  have hinvocation : ∀ info ∈ trace.groups.infos, InvocationWritable info := by
    intro info hinfo
    rcases hholds.exists_part hinfo with ⟨hmembers, p, hp, hgroups⟩
    rcases List.mem_map.1 hp with ⟨part, hpart, rfl⟩
    rcases hfits.infos info hinfo with ⟨hbits, hlen, hiterations⟩
    refine ⟨⟨hbits, ?_⟩, hlen, hgroups.writable hiterations (hsmall.parts part hpart).1⟩
    intro k hk
    have hlt := hmembers k hk
    have := hsmall.numbers
    rw [List.length_map] at hlt
    omega
  -- what is written is a chunk of the file
  have hparts : parts.map InvocationPart.iterations ≠ [] := by simpa using hne
  rcases writeLoopTraces_eq (loopID, trace) loopRunning
    (hholds.infos_ne_nil hparts) ⟨hfits.length_lt, hinvocation⟩ with
    ⟨hchunkValid, text, htext, htextPrints⟩
  refine ⟨text, htext, chunks ++ [loopChunk loopRunning (loopID, trace)], ?_, ?_, ?_⟩
  · intro c hc
    rcases List.mem_append.1 hc with hc | hc
    · exact hvalid c hc
    · rcases List.mem_singleton.1 hc with rfl
      exact hchunkValid
  · simpa using hprints.append htextPrints
  · -- and the pieces of its entries go on where those of the file have stopped
    have hchunk := hholds.chunk
      (fun info hinfo => numbers_loopEntry (hinvocation info hinfo))
      (fun info hinfo p hp => isPiece_loopEntry (hinvocation info hinfo) hp) hparts
      (fun hrunning => by simpa using hlast hrunning)
    have happend := hreads.append
      (by simpa using hchunk)
      (by
        intro y p hy hp
        rcases Option.map_eq_some_iff.1 hy with ⟨x, hx, rfl⟩
        rw [List.head?_map] at hp
        rcases Option.map_eq_some_iff.1 hp with ⟨part, hpart, rfl⟩
        have hcont := hcontinued x part hx hpart
        exact ⟨hcont.iterations, hcont.goesOn⟩)
    rw [List.map_append, PieceModel.map_settled, PieceModel.map_unsettled,
      Recorder.map_iterations_resume]
    have hitems : (chunks ++ [loopChunk loopRunning (loopID, trace)]).flatMap LoopTraceChunk.items
        = chunks.flatMap LoopTraceChunk.items
          ++ pieces loopRunning (trace.groups.infos.map loopEntry) := by
      simp only [List.flatMap_append, List.flatMap_singleton, LoopTraceChunk.items, loopChunk,
        List.map_map]
      rfl
    rw [hitems]
    exact happend

/-- The chunk of a write adds its entries. -/
theorem items_snoc_callChunk (chunks : List CallTraceChunk) (loopRunning : Bool)
    (infos : List LoopInvocationCallInfo) :
    (chunks ++ [callChunk loopRunning infos]).flatMap CallTraceChunk.items
      = chunks.flatMap CallTraceChunk.items ++ pieces loopRunning (infos.map callEntry) := by
  simp only [List.flatMap_append, List.flatMap_singleton, CallTraceChunk.items, callChunk,
    List.map_map]
  rfl

/-- A write with parts among the call traces. -/
theorem CallFileFollows.append (h : CallFileFollows file done resumed)
    {infos : ShareTable CallTraces} (hne : parts ≠ [])
    (hholds : infos.Holds CallTraces.Stands callPieces.Uncut done.length resumed.isSome
      (parts.map InvocationPart.calls))
    (hcontinued : ∀ x p, resumed = some x → parts.head? = some p → x.ContinuedBy p)
    (hlen : infos.infos.length < 2 ^ 31)
    (hfits : ∀ info ∈ infos.infos, LoopInvocationCallInfo.Fits info) (hsmall : SmallParts done parts)
    (hlast : loopRunning = true → ∃ init info, infos.infos = init ++ [info] ∧
      info.members = [done.length + (parts.length - 1)]) :
    ∃ text, writeCallTraces infos.infos loopRunning = some text ∧
      CallFileFollows (file ++ text)
        (done ++ PieceModel.settled loopRunning (Recorder.resume resumed parts))
        (PieceModel.unsettled loopRunning (Recorder.resume resumed parts)) := by
  rcases h with ⟨chunks, hvalid, hprints, hreads⟩
  have hentry : ∀ info ∈ infos.infos, EntryWritable info := by
    intro info hinfo
    rcases hholds.exists_part hinfo with ⟨hmembers, p, hp, hstands⟩
    rcases List.mem_map.1 hp with ⟨part, hpart, rfl⟩
    have hfit := hfits info hinfo
    refine ⟨⟨hfit.sharers, ?_⟩, hfit.walks, hfit.length_lt, hstands.distinct, ?_⟩
    · intro k hk
      have hlt := hmembers k hk
      have := hsmall.numbers
      rw [List.length_map] at hlt
      omega
    · intro item hitem
      have hgroups := hstands.groups item.1
      rw [CallTraces.infosOf_of_mem hstands.distinct hitem] at hgroups
      exact ⟨(hfit.traces item hitem).1,
        hgroups.writable (hfit.traces item hitem).2 ((hsmall.parts part hpart).2 item.1)⟩
  -- what is written is a chunk of the file
  have hparts : parts.map InvocationPart.calls ≠ [] := by simpa using hne
  rcases writeCallTraces_eq loopRunning (hholds.infos_ne_nil hparts) hlen hentry with
    ⟨hchunkValid, text, htext, htextPrints⟩
  refine ⟨text, htext, chunks ++ [callChunk loopRunning infos.infos], ?_, ?_, ?_⟩
  · intro c hc
    rcases List.mem_append.1 hc with hc | hc
    · exact hvalid c hc
    · rcases List.mem_singleton.1 hc with rfl
      exact hchunkValid
  · simpa using hprints.append htextPrints
  · -- and the pieces of its entries go on where those of the file have stopped
    have hchunk := hholds.chunk
      (fun info hinfo => numbers_callEntry (hentry info hinfo))
      (fun info hinfo p hp => isPiece_callEntry (hentry info hinfo) hp) hparts
      (fun hrunning => by simpa using hlast hrunning)
    have happend := hreads.append
      (by simpa using hchunk)
      (by
        intro y p hy hp
        rcases Option.map_eq_some_iff.1 hy with ⟨x, hx, rfl⟩
        rw [List.head?_map] at hp
        rcases Option.map_eq_some_iff.1 hp with ⟨part, hpart, rfl⟩
        exact (hcontinued x part hx hpart).calls)
    rw [List.map_append, PieceModel.map_settled, PieceModel.map_unsettled,
      Recorder.map_calls_resume, items_snoc_callChunk]
    exact happend

end Append

end CamAlias
