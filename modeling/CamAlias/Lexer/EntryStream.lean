import CamAlias.Analyser.CompressionPattern
import CamAlias.Lexer.Token
import CamAlias.Lib.Grouping

/-!
# EntryStream — entries that a dump may have cut in pieces

`LoopTraceStreamer::getNextEntry` and `CallTraceStreamer::getNextEntry` are the same loop over
different entries: a piece that is marked incomplete is merged with the next one, which must begin
with the invocation that the first one ends with.  `EntryStream` has what they differ in.

* `Yields`: what the successive calls of `getFullEntry` return;
* `joinEntries`: the pieces merged, as a function of the list of pieces;
* `Serves.getNextEntry_cons`, `Serves.getNextEntry_nil`: the two agree.
-/

namespace CamAlias

open Lib

/-- `LoopTraceCfcLex::ReturnStatus` and `CallTraceCfcLex::ReturnStatus`. -/
inductive ReturnStatus
  | active
  | invocComplete
  | invocIncomplete
  deriving DecidableEq

/-- The completion symbol of a write. -/
def dumpToken (loopRunning : Bool) : Token :=
  if loopRunning then .incomplete else .complete

/-- The status that the completion symbol at the end of a write stands for. -/
def dumpStatus (loopRunning : Bool) : ReturnStatus :=
  if loopRunning then .invocIncomplete else .invocComplete

/-- The pieces of one write: all but the last are complete. -/
def pieces {ε : Type} (loopRunning : Bool) : List ε → List (ε × ReturnStatus)
  | [] => []
  | [e] => [(e, dumpStatus loopRunning)]
  | e :: es => (e, .invocComplete) :: pieces loopRunning es

/-- A streamer `σ` of entries `ε`; `remaining` bounds what it has still to do. -/
structure EntryStream (σ ε : Type) where
  getFullEntry : σ → Except Fault (σ × ε × Bool)
  rstatus : σ → ReturnStatus
  remaining : σ → Nat
  lastAndFirstInvocationOverlap : ε → ε → Except Fault Bool
  mergeIntoAndReturnRemaining : ε → ε → Except Fault (ε × List ε)

namespace EntryStream

variable {σ ε : Type} (S : EntryStream σ ε)

/-- The body of the loop of `getNextEntry`: both `abort`s, and the merge. -/
def joinPiece (e piece : ε) : Except Fault ε :=
  match S.lastAndFirstInvocationOverlap e piece with
  | .error f => .error f
  | .ok false => .error .abort
  | .ok true =>
      match S.mergeIntoAndReturnRemaining e piece with
      | .error f => .error f
      | .ok (e, []) => .ok e
      | .ok (_, _ :: _) => .error .abort

/-- The loop of `getNextEntry`. -/
def mergeIncomplete : Nat → σ → ε → Except Fault (σ × ε)
  | 0, _, _ => .error .noFuel
  | fuel + 1, s, e =>
      if S.rstatus s ≠ .invocIncomplete then .ok (s, e)
      else
        match S.getFullEntry s with
        | .error f => .error f
        | .ok (s, piece, _) =>
            match S.joinPiece e piece with
            | .error f => .error f
            | .ok e => mergeIncomplete fuel s e

/-- `getNextEntry`: the entry, if there is one.  After a round that finds an entry less remains. -/
def getNextEntry (s : σ) : Except Fault (σ × Option ε) :=
  match S.getFullEntry s with
  | .error f => .error f
  | .ok (s, _, false) => .ok (s, none)
  | .ok (s, e, true) =>
      match S.mergeIncomplete (S.remaining s + 1) s e with
      | .error f => .error f
      | .ok (s, e) => .ok (s, some e)

/-- `while (getNextEntry(e)) {}`: the entries. -/
def readEntries : Nat → σ → Except Fault (List ε)
  | 0, _ => .error .noFuel
  | fuel + 1, s =>
      match S.getNextEntry s with
      | .error f => .error f
      | .ok (_, none) => .ok []
      | .ok (s, some e) =>
          match readEntries fuel s with
          | .error f => .error f
          | .ok es => .ok (e :: es)

/-! ## Pieces -/

/-- What the calls of `getFullEntry` return until the end of the file. -/
inductive Yields : σ → List (ε × ReturnStatus) → Prop
  | done {s s' : σ} {e : ε} (h : S.getFullEntry s = .ok (s', e, false)) : Yields s []
  | next {s s' : σ} {e : ε} {items : List (ε × ReturnStatus)}
      (h : S.getFullEntry s = .ok (s', e, true)) (hless : S.remaining s' < S.remaining s)
      (hrest : Yields s' items) : Yields s ((e, S.rstatus s') :: items)

/-- The entry with the next piece, or the piece itself. -/
def extend (incomplete : Option ε) (piece : ε) : Except Fault ε :=
  match incomplete with
  | none => .ok piece
  | some e => S.joinPiece e piece

/-- The entries that the pieces make up, and the one that is still incomplete at the end.  The
first argument is one left incomplete before. -/
def joinEntries : Option ε → List (ε × ReturnStatus) → Except Fault (List ε × Option ε)
  | incomplete, [] => .ok ([], incomplete)
  | incomplete, (piece, status) :: items =>
      match S.extend incomplete piece with
      | .error f => .error f
      | .ok e =>
          if status = .invocIncomplete then joinEntries (some e) items
          else
            match joinEntries none items with
            | .error f => .error f
            | .ok (es, incomplete) => .ok (e :: es, incomplete)

variable {S}

theorem joinEntries_append {items items' : List (ε × ReturnStatus)} :
    ∀ {o o' o'' : Option ε} {es es' : List ε}, S.joinEntries o items = .ok (es, o') →
      S.joinEntries o' items' = .ok (es', o'') →
      S.joinEntries o (items ++ items') = .ok (es ++ es', o'') := by
  induction items with
  | nil =>
      intro o o' o'' es es' h h'
      simp only [joinEntries, Except.ok.injEq, Prod.mk.injEq] at h
      rcases h with ⟨rfl, rfl⟩
      exact h'
  | cons item items ih =>
      intro o o' o'' es es' h h'
      rcases item with ⟨piece, status⟩
      simp only [joinEntries, List.cons_append] at h ⊢
      split at h
      · simp at h
      · rename_i e hpiece
        split at h
        · rename_i hstatus
          rw [if_pos hstatus]
          exact ih h h'
        · rename_i hstatus
          rw [if_neg hstatus]
          split at h
          · simp at h
          · rename_i rest incomplete hrest
            simp only [Except.ok.injEq, Prod.mk.injEq] at h
            rcases h with ⟨rfl, rfl⟩
            rw [ih hrest h']
            rfl

theorem joinPiece_eq_ok {e piece e' : ε} (h : S.joinPiece e piece = .ok e') :
    S.lastAndFirstInvocationOverlap e piece = .ok true ∧
      S.mergeIntoAndReturnRemaining e piece = .ok (e', []) := by
  simp only [joinPiece] at h
  split at h
  · simp at h
  · simp at h
  · rename_i hoverlap
    split at h
    · simp at h
    · rename_i merged hmerge
      rcases Except.ok.inj h with rfl
      exact ⟨hoverlap, hmerge⟩
    · simp at h

/-- What a merge makes of two entries, the entries read from the file make of its pieces. -/
theorem exists_joinEntries {Q P : ε → Prop}
    (hmerge : ∀ e piece e', Q e → Q piece → S.joinPiece e piece = .ok e' →
      Q e' ∧ (P e' ↔ P e ∨ P piece)) {items : List (ε × ReturnStatus)} :
    ∀ {o o' : Option ε} {es : List ε}, S.joinEntries o items = .ok (es, o') →
      (∀ e ∈ o, Q e) → (∀ item ∈ items, Q item.1) →
      (((∃ e ∈ es, P e) ∨ ∃ e ∈ o', P e) ↔ (∃ e ∈ o, P e) ∨ ∃ item ∈ items, P item.1) := by
  induction items with
  | nil =>
      intro o o' es h _ _
      rcases Prod.mk.inj (Except.ok.inj h) with ⟨rfl, rfl⟩
      simp
  | cons item items ih =>
      intro o o' es h ho hitems
      rcases item with ⟨piece, status⟩
      have hrest : ∀ item ∈ items, Q item.1 := fun item hitem =>
        hitems item (List.mem_cons_of_mem _ hitem)
      simp only [joinEntries] at h
      split at h
      · simp at h
      · rename_i e hpiece
        -- a piece begins an entry or is joined to the open one
        have hextend : Q e ∧ (P e ↔ (∃ e ∈ o, P e) ∨ P piece) := by
          have hpieceQ : Q piece := hitems (piece, status) (by simp)
          cases o with
          | none =>
              rcases Except.ok.inj hpiece with rfl
              exact ⟨hpieceQ, by simp⟩
          | some e₀ =>
              simpa using hmerge e₀ piece e (ho e₀ rfl) hpieceQ hpiece
        rw [List.exists_mem_cons_iff, ← or_assoc, ← hextend.2]
        split at h
        · simpa using ih h (by simpa using hextend.1) hrest
        · split at h
          · simp at h
          · rename_i es' o'' htail
            rcases Prod.mk.inj (Except.ok.inj h) with ⟨rfl, rfl⟩
            have hothers := ih htail (by simp) hrest
            rw [List.exists_mem_cons_iff, or_assoc, hothers]
            simp

/-- What the pieces have and a merge keeps, the entries have. -/
theorem forall_joinEntries {Q : ε → Prop}
    (hmerge : ∀ e piece e', Q e → S.joinPiece e piece = .ok e' → Q e')
    {items : List (ε × ReturnStatus)} :
    ∀ {o o' : Option ε} {es : List ε}, S.joinEntries o items = .ok (es, o') →
      (∀ e ∈ o, Q e) → (∀ item ∈ items, Q item.1) → ∀ e ∈ es, Q e := by
  induction items with
  | nil =>
      intro o o' es h _ _
      rcases Prod.mk.inj (Except.ok.inj h) with ⟨rfl, -⟩
      exact List.forall_mem_nil _
  | cons item items ih =>
      intro o o' es h ho hitems
      rcases item with ⟨piece, status⟩
      rcases List.forall_mem_cons.1 hitems with ⟨hpieceQ, hrest⟩
      simp only [joinEntries] at h
      split at h
      · simp at h
      · rename_i e hpiece
        have he : Q e := by
          cases o with
          | none =>
              rcases Except.ok.inj hpiece with rfl
              exact hpieceQ
          | some e₀ => exact hmerge e₀ piece e (ho e₀ rfl) hpiece
        split at h
        · exact ih h (by simpa using he) hrest
        · split at h
          · simp at h
          · rename_i es' o'' htail
            rcases Prod.mk.inj (Except.ok.inj h) with ⟨rfl, -⟩
            exact List.forall_mem_cons.2 ⟨he, ih htail (by simp) hrest⟩

variable (S)

/-- The streamer has these entries in front of it. -/
def Serves (s : σ) (es : List ε) : Prop :=
  ∃ items, S.Yields s items ∧ S.joinEntries none items = .ok (es, none)

variable {S}

/-- The loop merges the pieces up to the next complete one. -/
theorem mergeIncomplete_eq {items : List (ε × ReturnStatus)} :
    ∀ {s : σ} {e : ε} {es : List ε} {fuel : Nat}, S.Yields s items → S.remaining s < fuel →
      S.rstatus s = .invocIncomplete → S.joinEntries (some e) items = .ok (es, none) →
      ∃ s' e' es', S.mergeIncomplete fuel s e = .ok (s', e') ∧ es = e' :: es' ∧ S.Serves s' es' := by
  induction items with
  | nil =>
      intro s e es fuel _ _ _ hjoin
      simp [joinEntries] at hjoin
  | cons item items ih =>
      intro s e es fuel hyields hfuel hstatus hjoin
      cases hyields with
      | next hfull hless hrest =>
          rename_i s' piece
          match fuel, hfuel with
          | fuel + 1, hfuel =>
              simp only [joinEntries, extend] at hjoin
              cases hpiece : S.joinPiece e piece with
              | error f => simp [hpiece] at hjoin
              | ok e' =>
                  have hround : S.mergeIncomplete (fuel + 1) s e = S.mergeIncomplete fuel s' e' := by
                    simp [mergeIncomplete, hstatus, hfull, hpiece]
                  simp only [hpiece] at hjoin
                  rw [hround]
                  -- an incomplete piece asks for the next one
                  by_cases hmore : S.rstatus s' = .invocIncomplete
                  · rw [if_pos hmore] at hjoin
                    exact ih hrest (by omega) hmore hjoin
                  · rw [if_neg hmore] at hjoin
                    split at hjoin
                    · simp at hjoin
                    · rename_i es' o htail
                      simp only [Except.ok.injEq, Prod.mk.injEq] at hjoin
                      rcases hjoin with ⟨rfl, rfl⟩
                      match fuel, hfuel with
                      | fuel + 1, _ =>
                          refine ⟨s', e', es', by simp [mergeIncomplete, hmore], rfl, ?_⟩
                          exact ⟨items, hrest, htail⟩
                      | 0, hfuel => omega

theorem Serves.getNextEntry_cons {s : σ} {e : ε} {es : List ε} (h : S.Serves s (e :: es)) :
    ∃ s', S.getNextEntry s = .ok (s', some e) ∧ S.Serves s' es := by
  rcases h with ⟨items, hyields, hjoin⟩
  cases hyields with
  | done hfull => simp [joinEntries] at hjoin
  | next hfull hless hrest =>
      rename_i s' piece items
      simp only [joinEntries, extend] at hjoin
      by_cases hmore : S.rstatus s' = .invocIncomplete
      · rw [if_pos hmore] at hjoin
        rcases mergeIncomplete_eq hrest (Nat.lt_succ_self _) hmore hjoin with
          ⟨s'', e', es', hmerge, hes, hserves⟩
        rcases List.cons.inj hes with ⟨rfl, rfl⟩
        refine ⟨s'', ?_, hserves⟩
        simp only [getNextEntry, hfull, hmerge]
      · rw [if_neg hmore] at hjoin
        split at hjoin
        · simp at hjoin
        · rename_i es' o htail
          simp only [Except.ok.injEq, Prod.mk.injEq, List.cons.injEq] at hjoin
          rcases hjoin with ⟨⟨rfl, rfl⟩, rfl⟩
          refine ⟨s', ?_, items, hrest, htail⟩
          simp [getNextEntry, hfull, mergeIncomplete, hmore]

theorem Serves.getNextEntry_nil {s : σ} (h : S.Serves s []) :
    ∃ s', S.getNextEntry s = .ok (s', none) := by
  rcases h with ⟨items, hyields, hjoin⟩
  cases hyields with
  | done hfull =>
      rename_i s' e
      exact ⟨s', by simp only [getNextEntry, hfull]⟩
  | next hfull hless hrest =>
      -- a piece never disappears
      have hne : ∀ (items : List (ε × ReturnStatus)) (o : Option ε), o.isSome ∨ items ≠ [] →
          S.joinEntries o items ≠ .ok ([], none) := by
        intro items
        induction items with
        | nil =>
            intro o ho h
            simp only [joinEntries, Except.ok.injEq, Prod.mk.injEq, true_and] at h
            simp [h] at ho
        | cons item items ih =>
            intro o _ h
            simp only [joinEntries] at h
            split at h
            · simp at h
            · split at h
              · exact ih _ (Or.inl rfl) h
              · split at h <;> simp at h
      exact absurd hjoin (hne _ none (Or.inr (by simp)))

/-- A fault is met with more fuel as well. -/
theorem readEntries_error {f : Fault} : ∀ {fuel : Nat} {s : σ}, S.readEntries fuel s = .error f →
    f ≠ .noFuel → ∀ k, S.readEntries (fuel + k) s = .error f := by
  intro fuel
  induction fuel with
  | zero =>
      intro s h hfault
      exact absurd (Except.error.inj h).symm hfault
  | succ fuel ih =>
      intro s h hfault k
      rw [Nat.add_right_comm]
      simp only [readEntries] at h ⊢
      split at h
      · exact h
      · cases h
      · split at h
        · rename_i hrest
          rcases Except.error.inj h with rfl
          rw [ih hrest hfault k]
        · cases h

/-- Reading until there is no entry left finds them all. -/
theorem Serves.readEntries_eq {es : List ε} :
    ∀ {s : σ} {fuel : Nat}, S.Serves s es → es.length < fuel →
      S.readEntries fuel s = .ok es := by
  induction es with
  | nil =>
      intro s fuel h hfuel
      match fuel, hfuel with
      | fuel + 1, _ =>
          rcases h.getNextEntry_nil with ⟨s', hnext⟩
          simp only [readEntries, hnext]
  | cons e es ih =>
      intro s fuel h hfuel
      match fuel, hfuel with
      | fuel + 1, hfuel =>
          rcases h.getNextEntry_cons with ⟨s', hnext, hserves⟩
          have hrest := ih hserves (by simpa using hfuel)
          simp only [readEntries, hnext, hrest]

end EntryStream
end CamAlias
