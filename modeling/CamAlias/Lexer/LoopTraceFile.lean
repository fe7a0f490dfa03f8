import CamAlias.Lexer.LoopTraceStreamer
import CamAlias.Lexer.Pieces

/-!
# LoopTraceFile — what a loop trace file is made of, and what its entries stand for

`LoopTraceChunk` is what one write leaves in the file, `finds_chunks` says that the lexer finds the
groups of all chunks, and `loopPieces` that merging them follows the recorded iterations.
-/

namespace CamAlias

open Lib

/-! ## What the entries stand for -/

namespace LoopTraceEntry

/-- The entry stands for a part of its invocations. -/
structure IsPiece (lte : LoopTraceEntry) (p : Part) : Prop where
  ascending : Ascending lte.invocationRepetitionPattern
  iterations : Describes p.first p.values lte.invocation.iterations

/-- The entry stands for the iterations of its invocations. -/
structure Stands (lte : LoopTraceEntry) (iterations : List (List UInt64)) : Prop where
  ascending : Ascending lte.invocationRepetitionPattern
  iterations : Describes 0 iterations lte.invocation.iterations

/-- Two pieces of one invocation are merged. -/
theorem joinPiece_eq {o e : LoopTraceEntry} {n : Nat} {xs : List (List UInt64)} {p : Part}
    (hn : numbers o.invocationRepetitionPattern = [n])
    (hn' : numbers e.invocationRepetitionPattern = [n]) (ho : o.Stands xs) (he : e.IsPiece p)
    (hcont : p.Continues xs) (hne : xs ≠ [] → p.values ≠ []) :
    ∃ o', LoopTraceStreamer.entryStream.joinPiece o e = .ok o' ∧
      numbers o'.invocationRepetitionPattern = [n] ∧ o'.Stands (p.join xs) := by
  have hpattern := ho.ascending.eq_singleton hn
  have hpattern' := he.ascending.eq_singleton hn'
  rcases Part.mergeGroups_eq ho.iterations he.iterations hcont hne with
    ⟨merged, left, hmerge, hdesc⟩
  let o' : LoopTraceEntry := { o with invocation := { o.invocation with iterations := merged } }
  have hoverlap : o.lastAndFirstInvocationOverlap e = .ok true := by
    simp [lastAndFirstInvocationOverlap, getLastInvocationNumber, getFirstInvocationNumber,
      hpattern, hpattern', RepetitionPattern.getLastInstance, RepetitionPattern.getFirstInstance,
      sameNumber]
  have hsingle : o.isASingleInvocation = .ok true := by
    simp [isASingleInvocation, getLastInvocationNumber, getFirstInvocationNumber, hpattern,
      RepetitionPattern.getLastInstance, RepetitionPattern.getFirstInstance, sameNumber]
  have hsingle' : ∀ left, ({ e with invocation := left } : LoopTraceEntry).isASingleInvocation
      = .ok true := by
    intro left
    simp [isASingleInvocation, getLastInvocationNumber, getFirstInvocationNumber, hpattern',
      RepetitionPattern.getLastInstance, RepetitionPattern.getFirstInstance, sameNumber]
  have hnonempty : e.isEmpty = false := by simp [isEmpty, hpattern']
  have hinto : o.mergeIntoAndReturnRemaining e = .ok (o', []) := by
    simp [mergeIntoAndReturnRemaining, hnonempty, hoverlap, hsingle, remainingInvocations, hsingle',
      InvocationGroupCfc.mergeIterationInfo, hmerge, Except.map, o']
  refine ⟨o', ?_, hn, ho.ascending, hdesc⟩
  simp [EntryStream.joinPiece, LoopTraceStreamer.entryStream, hoverlap, hinto]

end LoopTraceEntry

/-- The pieces of the loop trace are parts of invocations, its entries whole invocations. -/
def loopPieces : PieceModel LoopTraceStreamer.entryStream Part (List (List UInt64)) where
  numbers := fun lte => numbers lte.invocationRepetitionPattern
  IsPiece := LoopTraceEntry.IsPiece
  Stands := LoopTraceEntry.Stands
  Uncut := fun p => p.first = 0
  Continues := fun xs p => p.Continues xs ∧ (xs ≠ [] → p.values ≠ [])
  whole := Part.values
  join := fun xs p => p.join xs
  stands_whole := by
    intro e p he hp
    exact ⟨he.ascending, hp ▸ he.iterations⟩
  joinPiece_eq := by
    intro o e n xs p hn hn' ho he hcont
    exact LoopTraceEntry.joinPiece_eq hn hn' ho he hcont.1 hcont.2

/-! ## Chunks -/

/-- What one write leaves in the loop trace. -/
structure LoopTraceChunk where
  loopID : UInt64
  invocations : List PrintedInvocation
  loopRunning : Bool

namespace LoopTraceChunk

def tokens (c : LoopTraceChunk) : List Token :=
  [.number c.loopID.toNat, .number c.invocations.length, .newline] ++
    invocationsTokens c.loopRunning c.invocations

/-- The entries of the chunk as they are read. -/
def items (c : LoopTraceChunk) : List (LoopTraceEntry × ReturnStatus) :=
  pieces c.loopRunning (c.invocations.map PrintedInvocation.toEntry)

structure Valid (c : LoopTraceChunk) : Prop where
  nonempty : c.invocations ≠ []
  length_lt : c.invocations.length < 2 ^ 64
  invocations : ∀ inv ∈ c.invocations, inv.Valid

end LoopTraceChunk

namespace LoopTraceCfcLex

/-- The lexer finds the groups of all chunks. -/
theorem finds_chunks (chunks : List LoopTraceChunk) (hvalid : ∀ c ∈ chunks, c.Valid) :
    ∀ l : LoopTraceCfcLex, l.Ready → l.state = 0 →
      l.Finds (chunks.flatMap LoopTraceChunk.tokens) (chunks.flatMap LoopTraceChunk.items) := by
  induction chunks with
  | nil =>
      intro l _ hstate
      exact EntryLexer.Finds.done (ready_of_state (Or.inl hstate)) rfl
  | cons c chunks ih =>
      intro l hready hstate
      have hc := hvalid c (by simp)
      have hpos := List.length_pos_of_ne_nil hc.nonempty
      have hcount : strtoull c.invocations.length = c.invocations.length :=
        strtoull_of_lt hc.length_lt
      let l₂ : LoopTraceCfcLex := { l.start with
        remaining_invoc_entries := c.invocations.length
        reppat := { l.start.reppat with reppatState := 0 }
        state := 2 }
      have hid : l.start.lexToken (.number c.loopID.toNat)
          = .ok ({ l.start with state := 1 }, false) := by
        simp [lexToken, number, start, hstate, Except.map]
      have hnumber : { l.start with state := 1 }.lexToken (.number c.invocations.length)
          = .ok (l₂, false) := by
        simp [lexToken, number, hcount, hpos, Except.map, l₂]
      have hheader : l.start.Reads
          [.number c.loopID.toNat, .number c.invocations.length, .newline] l₂ :=
        Reads.cons hid (Reads.cons hnumber (reads_newline (by simp [l₂])))
      have hall := finds_invocations c.loopRunning
        (ih fun c' hc' => hvalid c' (List.mem_cons_of_mem _ hc')) c.invocations l l₂ _ hc.nonempty
        hc.invocations (Or.inl hstate) hheader ⟨hready.cfc, rfl⟩ rfl rfl rfl
      simpa [LoopTraceChunk.tokens, LoopTraceChunk.items] using hall

end LoopTraceCfcLex

/-- The entries of a file that consists of chunks. -/
theorem LoopTraceStreamer.serves_ofFile {chunks : List LoopTraceChunk}
    (hvalid : ∀ c ∈ chunks, c.Valid) {file : List BzRead}
    (hfile : Tells file (chunks.flatMap LoopTraceChunk.tokens)) {es : List LoopTraceEntry}
    (hjoin : entryStream.joinEntries none (chunks.flatMap LoopTraceChunk.items) = .ok (es, none)) :
    entryStream.Serves (ofFile file) es :=
  (LoopTraceCfcLex.finds_chunks chunks hvalid _ ⟨rfl, rfl⟩ rfl).serves hfile hjoin

end CamAlias
