import CamAlias.Analyser.SortedLookup
import CamAlias.Lexer.LoopTraceFile

/-!
# StreamParse — the invocations of a loop trace, one by one

`StreamParseLoopRec` of `StaticLoopRec.cpp`.  Entries are parsed when an invocation is asked for
that no entry parsed so far holds, and erased behind their last invocation.  The loop over all
invocations visits each of them with the tables of its group (`forInvocations_eq`).
-/

namespace CamAlias

open Lib

/-- `StreamParseLoopRec`.  An iterator of the list is an index; an erased entry is `none`. -/
structure StreamParseLoopRec where
  loopTraceEntries : List (Option LoopTraceEntry)
  lut : RepetitionPatternSortedLookup Nat
  streamer : LoopTraceStreamer

namespace StreamParseLoopRec

/-- `StreamParseLoopRec::StreamParseLoopRec`. -/
def ofFile (loopTrace : List BzRead) : StreamParseLoopRec where
  loopTraceEntries := []
  lut := []
  streamer := LoopTraceStreamer.ofFile loopTrace

/-- `push_back`, and `precomputeDataStructures` of the new `back()`. -/
def push_back (sloop : StreamParseLoopRec) (entry : LoopTraceEntry) : StreamParseLoopRec :=
  { sloop with
    loopTraceEntries := sloop.loopTraceEntries ++ [some entry.precomputeDataStructures]
    lut := sloop.lut.insertToLut entry.invocationRepetitionPattern sloop.loopTraceEntries.length }

/-- `erase`. -/
def erase (sloop : StreamParseLoopRec) (iter : Nat) : StreamParseLoopRec :=
  { sloop with loopTraceEntries := sloop.loopTraceEntries.set iter none }

/-- `findLoopTraceEntry`, `none` for `end()`. -/
def findLoopTraceEntry (sloop : StreamParseLoopRec) (invocNum : Nat) :
    Except Fault (StreamParseLoopRec × Option Nat) :=
  match sloop.lut.lookupData invocNum with
  | some iter => .ok (sloop, some iter)
  | none =>
      match sloop.streamer.getNextEntry with
      | .error e => .error e
      | .ok (streamer, none) => .ok ({ sloop with streamer }, none)
      | .ok (streamer, some entry) =>
          .ok ({ sloop with streamer }.push_back entry, some sloop.loopTraceEntries.length)

/-- `invocation_iterator`, `none` for `ii_end()`. -/
abbrev InvocationIterator := Option (Nat × Nat)

/-- `findLoopTraceEntry` as `ii_begin` and `ii_next` use it. -/
def iteratorAt (sloop : StreamParseLoopRec) (invocNum : Nat) :
    Except Fault (StreamParseLoopRec × InvocationIterator) :=
  match sloop.findLoopTraceEntry invocNum with
  | .error e => .error e
  | .ok (sloop, none) => .ok (sloop, none)
  | .ok (sloop, some iter) => .ok (sloop, some (iter, invocNum))

/-- `ii_begin`. -/
def ii_begin (sloop : StreamParseLoopRec) :
    Except Fault (StreamParseLoopRec × InvocationIterator) :=
  sloop.iteratorAt 0

/-- The entry of an iterator that has not been erased. -/
def entryAt (sloop : StreamParseLoopRec) (iter : Nat) : Except Fault LoopTraceEntry :=
  match sloop.loopTraceEntries[iter]? with
  | some (some lte) => .ok lte
  | _ => .error .outOfRange

/-- `ii_next`. -/
def ii_next (sloop : StreamParseLoopRec) (ii : Nat × Nat) :
    Except Fault (StreamParseLoopRec × InvocationIterator) :=
  match sloop.entryAt ii.1 with
  | .error e => .error e
  | .ok lte =>
      match lte.getLastInvocationNumber with
      | .error e => .error e
      | .ok final =>
          if ii.2 + 1 > final then (sloop.erase ii.1).iteratorAt (ii.2 + 1)
          else sloop.iteratorAt (ii.2 + 1)

variable {β : Type}

/-- `for (ii = ...; ii != ii_end(); ii = ii_next(ii))` with a body that carries a state. -/
def forFrom (body : β → Nat → InvocationGroupCfc → Except Fault β) :
    Nat → StreamParseLoopRec → InvocationIterator → β → Except Fault β
  | _, _, none, b => .ok b
  | 0, _, some _, _ => .error .noFuel
  | fuel + 1, sloop, some ii, b =>
      match sloop.entryAt ii.1 with
      | .error e => .error e
      | .ok lte =>
          match body b ii.2 lte.invocation with
          | .error e => .error e
          | .ok b =>
              match sloop.ii_next ii with
              | .error e => .error e
              | .ok (sloop, ii) => forFrom body fuel sloop ii b

/-- The loop over all invocations. -/
def forInvocations (body : β → Nat → InvocationGroupCfc → Except Fault β) (fuel : Nat)
    (sloop : StreamParseLoopRec) (b : β) : Except Fault β :=
  match sloop.ii_begin with
  | .error e => .error e
  | .ok (sloop, ii) => forFrom body fuel sloop ii b

/-- The body on a list of invocations. -/
def visitAll (body : β → Nat → InvocationGroupCfc → Except Fault β) :
    β → List (Nat × InvocationGroupCfc) → Except Fault β
  | b, [] => .ok b
  | b, (n, g) :: rest =>
      match body b n g with
      | .error e => .error e
      | .ok b => visitAll body b rest

/-! ## The invocations of a file -/

/-- All entries of the file are `es`; those parsed so far cover the invocations below `covered`,
and those that hold an invocation from `live` on have not been erased. -/
structure Reading (es : List LoopTraceEntry) (live covered : Nat) (sloop : StreamParseLoopRec)
    (parsed rest : List LoopTraceEntry) : Prop where
  split : es = parsed ++ rest
  serves : LoopTraceStreamer.entryStream.Serves sloop.streamer rest
  sorted : sloop.lut.Sorted
  mem_lut : ∀ e, e ∈ sloop.lut ↔ ∃ (i : Nat) (lte : LoopTraceEntry) (r : Nat × Nat),
    parsed[i]? = some lte ∧ r ∈ lte.invocationRepetitionPattern ∧ e = (r.1, r.2, i)
  length : sloop.loopTraceEntries.length = parsed.length
  kept : ∀ (i : Nat) (lte : LoopTraceEntry), parsed[i]? = some lte →
    (∃ n ∈ numbers lte.invocationRepetitionPattern, live ≤ n) →
    sloop.loopTraceEntries[i]? = some (some lte.precomputeDataStructures)
  covers : ∀ n < covered, ∃ lte ∈ parsed, n ∈ numbers lte.invocationRepetitionPattern

namespace Reading

variable {es parsed rest : List LoopTraceEntry} {live covered n : Nat} {sloop : StreamParseLoopRec}
  {invocations : List (List (List UInt64))}

theorem lookupData_eq_some_iff (h : Reading es live covered sloop parsed rest) {iter : Nat} :
    sloop.lut.lookupData n = some iter ↔
      ∃ lte, parsed[iter]? = some lte ∧ n ∈ numbers lte.invocationRepetitionPattern := by
  rw [h.sorted.lookupData_eq_some_iff]
  constructor
  · rintro ⟨e, he, hstart, hend, rfl⟩
    rcases (h.mem_lut e).1 he with ⟨i, lte, r, hi, hr, rfl⟩
    exact ⟨lte, hi, mem_numbers.2 ⟨r, hr, hstart, hend⟩⟩
  · rintro ⟨lte, hi, hn⟩
    rcases mem_numbers.1 hn with ⟨r, hr, hstart, hend⟩
    exact ⟨(r.1, r.2, iter), (h.mem_lut _).2 ⟨iter, lte, r, hi, hr, rfl⟩, hstart, hend, rfl⟩

/-- The next entry of the file holds the first invocation that no parsed entry holds. -/
theorem mem_next (h : Reading es n n sloop parsed rest)
    (hgroups : Groups LoopTraceEntry.Stands 0 invocations (loopPieces.tag es))
    (hseen : FirstSeen 0 (fun _ => False) (loopPieces.tag es)) {lte : LoopTraceEntry}
    {rest' : List LoopTraceEntry} (hrest : rest = lte :: rest')
    (hnew : ∀ e ∈ parsed, n ∉ numbers e.invocationRepetitionPattern) :
    n ∈ numbers lte.invocationRepetitionPattern := by
  have hes : loopPieces.tag es = loopPieces.tag parsed
      ++ (numbers lte.invocationRepetitionPattern, lte) :: loopPieces.tag rest' := by
    rw [h.split, hrest, PieceModel.tag_append, PieceModel.tag_cons]
    rfl
  rw [hes] at hseen
  rcases (FirstSeen.append.1 hseen).2 with ⟨⟨m, hm, hbefore⟩, -⟩
  have hparsed : ∀ k, k ∈ (loopPieces.tag parsed).flatMap Prod.fst ↔
      ∃ e ∈ parsed, k ∈ numbers e.invocationRepetitionPattern := by
    intro k
    simp [PieceModel.tag, loopPieces, List.mem_flatMap]
  -- the group's first member cannot lie behind `n`, and is in no earlier entry
  have hle : m ≤ n := by
    by_contra hlt
    rcases hbefore n (Nat.zero_le n) (by omega) with hfalse | hmem
    · exact hfalse
    · rcases (hparsed n).1 hmem with ⟨e, he, hn⟩
      exact hnew e he hn
  have hge : n ≤ m := by
    by_contra hlt
    rcases h.covers m (by omega) with ⟨e, he, hme⟩
    have hnodup := hgroups.nodup
    rw [hes, List.flatMap_append, List.flatMap_cons] at hnodup
    refine (List.nodup_append.1 hnodup).2.2 m ((hparsed m).2 ⟨e, he, hme⟩) m ?_ rfl
    exact List.mem_append_left _ hm
  have heq : n = m := by omega
  exact heq ▸ hm

/-- No entry holds two copies of a number, and no two entries hold the same one. -/
theorem disjoint (h : Reading es live covered sloop parsed rest)
    (hgroups : Groups LoopTraceEntry.Stands 0 invocations (loopPieces.tag es)) {lte : LoopTraceEntry}
    {rest' : List LoopTraceEntry} (hrest : rest = lte :: rest') :
    ∀ e ∈ parsed, ∀ k ∈ numbers lte.invocationRepetitionPattern,
      k ∉ numbers e.invocationRepetitionPattern := by
  intro e he k hk hke
  have hnodup := hgroups.nodup
  rw [h.split, hrest, PieceModel.tag_append, List.flatMap_append, List.nodup_append] at hnodup
  refine hnodup.2.2 k ?_ k ?_ rfl
  · exact List.mem_flatMap.2 ⟨_, List.mem_map_of_mem he, hke⟩
  · exact List.mem_append_left _ hk

/-- An invocation of the file is found, by parsing one more entry if need be. -/
theorem iteratorAt_eq (h : Reading es n n sloop parsed rest)
    (hgroups : Groups LoopTraceEntry.Stands 0 invocations (loopPieces.tag es))
    (hseen : FirstSeen 0 (fun _ => False) (loopPieces.tag es)) (hn : n < invocations.length) :
    ∃ sloop' parsed' rest' iter lte, sloop.iteratorAt n = .ok (sloop', some (iter, n)) ∧
      Reading es n (n + 1) sloop' parsed' rest' ∧ parsed'[iter]? = some lte ∧
      n ∈ numbers lte.invocationRepetitionPattern := by
  cases hlookup : sloop.lut.lookupData n with
  | some iter =>
      rcases h.lookupData_eq_some_iff.1 hlookup with ⟨lte, hiter, hmem⟩
      refine ⟨sloop, parsed, rest, iter, lte, ?_, { h with covers := ?_ }, hiter, hmem⟩
      · simp only [iteratorAt, findLoopTraceEntry, hlookup]
      · intro k hk
        by_cases heq : k = n
        · exact ⟨lte, List.mem_of_getElem? hiter, heq ▸ hmem⟩
        · exact h.covers k (by omega)
  | none =>
      have hnew : ∀ e ∈ parsed, n ∉ numbers e.invocationRepetitionPattern := by
        intro e he hmem
        rcases List.mem_iff_getElem?.1 he with ⟨iter, hiter⟩
        rw [h.lookupData_eq_some_iff.2 ⟨e, hiter, hmem⟩] at hlookup
        simp at hlookup
      cases hrest : rest with
      | nil =>
          -- some entry holds the invocation, and all have been parsed
          rcases hgroups.exists_group (Nat.zero_le n) (by simpa using hn) with ⟨g, hg, hng⟩
          rcases List.mem_map.1 hg with ⟨e, he, rfl⟩
          rw [h.split, hrest, List.append_nil] at he
          exact absurd hng (hnew e he)
      | cons lte rest' =>
          have hmem := h.mem_next hgroups hseen hrest hnew
          have hdisjoint := h.disjoint hgroups hrest
          rcases (hrest ▸ h.serves).getNextEntry_cons with ⟨streamer, hnext, hserves⟩
          have hlte : lte ∈ es := by simp [h.split, hrest]
          have hasc : Ascending lte.invocationRepetitionPattern := by
            have hmem' : (numbers lte.invocationRepetitionPattern, lte) ∈ loopPieces.tag es :=
              List.mem_map_of_mem hlte
            rcases hgroups.value _ hmem' n hmem with ⟨_, -, hstands⟩
            exact hstands.ascending
          have hapart : ∀ e ∈ sloop.lut, ∀ k ∈ numbers lte.invocationRepetitionPattern,
              ¬ (e.1 ≤ k ∧ k ≤ e.2.1) := by
            intro e he k hk hinside
            rcases (h.mem_lut e).1 he with ⟨i, lte', r, hi, hr, rfl⟩
            exact hdisjoint lte' (List.mem_of_getElem? hi) k hk
              (mem_numbers.2 ⟨r, hr, hinside.1, hinside.2⟩)
          rcases h.sorted.insertToLut hasc hapart with
            ⟨hsorted, hmemlut⟩
          refine ⟨{ sloop with streamer }.push_back lte, parsed ++ [lte], rest',
            sloop.loopTraceEntries.length, lte, ?_, ?_, ?_, hmem⟩
          · have hnext' : sloop.streamer.getNextEntry = .ok (streamer, some lte) := hnext
            simp only [iteratorAt, findLoopTraceEntry, hlookup, hnext']
          · refine ⟨by simp [h.split, hrest], hserves, hsorted, ?_, ?_, ?_, ?_⟩
            · intro e
              have hiff := hmemlut e
              rw [h.mem_lut] at hiff
              refine hiff.trans ⟨?_, ?_⟩
              · rintro (⟨i, lte', r, hi, hr, rfl⟩ | ⟨r, hr, rfl⟩)
                · refine ⟨i, lte', r, ?_, hr, rfl⟩
                  rw [List.getElem?_append_left (List.getElem?_eq_some_iff.1 hi).1, hi]
                · exact ⟨_, lte, r, by simp [h.length], hr, rfl⟩
              · rintro ⟨i, lte', r, hi, hr, rfl⟩
                by_cases hlt : i < parsed.length
                · rw [List.getElem?_append_left hlt] at hi
                  exact Or.inl ⟨i, lte', r, hi, hr, rfl⟩
                · have hi' := (List.getElem?_eq_some_iff.1 hi).1
                  have heq : i = parsed.length := by
                    simp only [List.length_append, List.length_singleton] at hi'
                    omega
                  subst heq
                  have hsame : lte' = lte := by simpa using hi.symm
                  subst hsame
                  exact Or.inr ⟨r, hr, by rw [h.length]⟩
            · simp [push_back, h.length]
            · intro i lte' hi hlive
              by_cases hlt : i < parsed.length
              · rw [List.getElem?_append_left hlt] at hi
                have hkept := h.kept i lte' hi hlive
                simp only [push_back]
                rw [List.getElem?_append_left (by rw [h.length]; exact hlt), hkept]
              · have hi' := (List.getElem?_eq_some_iff.1 hi).1
                have heq : i = parsed.length := by
                  simp only [List.length_append, List.length_singleton] at hi'
                  omega
                subst heq
                have hsame : lte' = lte := by simpa using hi.symm
                subst hsame
                simp [push_back, ← h.length]
            · intro k hk
              by_cases heq : k = n
              · exact ⟨lte, by simp, heq ▸ hmem⟩
              · rcases h.covers k (by omega) with ⟨e, he, hke⟩
                exact ⟨e, List.mem_append_left _ he, hke⟩
          · simp [h.length]

theorem entryAt_eq (h : Reading es n covered sloop parsed rest) {iter : Nat} {lte : LoopTraceEntry}
    (hiter : parsed[iter]? = some lte) (hmem : n ∈ numbers lte.invocationRepetitionPattern) :
    sloop.entryAt iter = .ok lte.precomputeDataStructures := by
  simp only [entryAt, h.kept iter lte hiter ⟨n, hmem, Nat.le_refl n⟩]

/-- Behind the last invocation of an entry it may be erased. -/
theorem ii_next_eq (h : Reading es n (n + 1) sloop parsed rest) {iter : Nat} {lte : LoopTraceEntry}
    (hiter : parsed[iter]? = some lte) (hmem : n ∈ numbers lte.invocationRepetitionPattern)
    (hasc : Ascending lte.invocationRepetitionPattern) :
    ∃ sloop', sloop.ii_next (iter, n) = sloop'.iteratorAt (n + 1) ∧
      Reading es (n + 1) (n + 1) sloop' parsed rest := by
  have hne : numbers lte.invocationRepetitionPattern ≠ [] := List.ne_nil_of_mem hmem
  have hsplit := (List.dropLast_append_getLast hne).symm
  generalize hfinal : (numbers lte.invocationRepetitionPattern).getLast hne = final at hsplit
  have hlast : lte.precomputeDataStructures.getLastInvocationNumber = .ok final :=
    RepetitionPattern.getLastInstance_eq hasc hsplit
  have hentry := h.entryAt_eq hiter hmem
  by_cases hover : n + 1 > final
  · refine ⟨sloop.erase iter, ?_, ?_⟩
    · simp only [ii_next, hentry, hlast, if_pos hover]
    · refine ⟨h.split, h.serves, h.sorted, h.mem_lut, by simp [erase, h.length], ?_, h.covers⟩
      intro i lte' hi hlive
      rcases hlive with ⟨k, hk, hlt⟩
      have hother : i ≠ iter := by
        rintro rfl
        have hsame : lte' = lte := Option.some.inj (hi.symm.trans hiter)
        subst hsame
        -- the numbers of a pattern do not exceed the last one
        have hsorted := hasc.pairwise_numbers
        rw [hsplit, List.pairwise_append] at hsorted
        rw [hsplit] at hk
        rcases List.mem_append.1 hk with hk | hk
        · have := hsorted.2.2 k hk final (by simp)
          omega
        · have := List.mem_singleton.1 hk
          omega
      have hkept := h.kept i lte' hi ⟨k, hk, by omega⟩
      simp only [erase]
      rw [List.getElem?_set_ne (Ne.symm hother), hkept]
  · refine ⟨sloop, ?_, ?_⟩
    · simp only [ii_next, hentry, hlast, if_neg hover]
    · refine ⟨h.split, h.serves, h.sorted, h.mem_lut, h.length, ?_, h.covers⟩
      rintro i lte' hi ⟨k, hk, hlt⟩
      exact h.kept i lte' hi ⟨k, hk, by omega⟩

/-- Behind the last invocation the iterator is at the end. -/
theorem iteratorAt_end (h : Reading es n n sloop parsed rest)
    (hgroups : Groups LoopTraceEntry.Stands 0 invocations (loopPieces.tag es))
    (hseen : FirstSeen 0 (fun _ => False) (loopPieces.tag es)) (hn : n = invocations.length) :
    ∃ sloop', sloop.iteratorAt n = .ok (sloop', none) := by
  have hnone : ∀ e ∈ es, n ∉ numbers e.invocationRepetitionPattern := by
    intro e he hmem
    have hmem' : (numbers e.invocationRepetitionPattern, e) ∈ loopPieces.tag es :=
      List.mem_map_of_mem he
    have := (hgroups.bounds hmem' hmem).2
    omega
  cases hrest : rest with
  | cons lte rest' =>
      have hnew : ∀ e ∈ parsed, n ∉ numbers e.invocationRepetitionPattern := fun e he =>
        hnone e (by simp [h.split, he])
      exact absurd (h.mem_next hgroups hseen hrest hnew) (hnone lte (by simp [h.split, hrest]))
  | nil =>
      have hlookup : sloop.lut.lookupData n = none := by
        cases hlookup : sloop.lut.lookupData n with
        | none => rfl
        | some iter =>
            rcases h.lookupData_eq_some_iff.1 hlookup with ⟨lte, hiter, hmem⟩
            exact absurd hmem (hnone lte (by
              rw [h.split]
              exact List.mem_append_left _ (List.mem_of_getElem? hiter)))
      rcases (hrest ▸ h.serves).getNextEntry_nil with ⟨streamer, hnext⟩
      have hnext' : sloop.streamer.getNextEntry = .ok (streamer, none) := hnext
      exact ⟨{ sloop with streamer }, by
        simp only [iteratorAt, findLoopTraceEntry, hlookup, hnext']⟩

/-- One round of the loop: the invocation is visited with an entry that has not been erased, and the
iterator goes on to the next one. -/
theorem visit (h : Reading es n n sloop parsed rest)
    (hgroups : Groups LoopTraceEntry.Stands 0 invocations (loopPieces.tag es))
    (hseen : FirstSeen 0 (fun _ => False) (loopPieces.tag es)) (hn : n < invocations.length) :
    ∃ sloop' sloop'' parsed' rest' iter lte, sloop.iteratorAt n = .ok (sloop', some (iter, n)) ∧
      lte ∈ es ∧ n ∈ numbers lte.invocationRepetitionPattern ∧
      sloop'.entryAt iter = .ok lte.precomputeDataStructures ∧
      sloop'.ii_next (iter, n) = sloop''.iteratorAt (n + 1) ∧
      Reading es (n + 1) (n + 1) sloop'' parsed' rest' := by
  rcases h.iteratorAt_eq hgroups hseen hn with
    ⟨sloop', parsed', rest', iter, lte, hiterator, h', hiter, hmem⟩
  have hlte : lte ∈ es := by
    rw [h'.split]
    exact List.mem_append_left _ (List.mem_of_getElem? hiter)
  have hasc : Ascending lte.invocationRepetitionPattern := by
    have hmem' : (numbers lte.invocationRepetitionPattern, lte) ∈ loopPieces.tag es :=
      List.mem_map_of_mem hlte
    rcases hgroups.value _ hmem' n hmem with ⟨_, -, hstands⟩
    exact hstands.ascending
  rcases h'.ii_next_eq hiter hmem hasc with ⟨sloop'', hnext, h''⟩
  exact ⟨sloop', sloop'', parsed', rest', iter, lte, hiterator, hlte, hmem, h'.entryAt_eq hiter hmem,
    hnext, h''⟩

/-- Nothing has been parsed. -/
theorem start {streamer : LoopTraceStreamer}
    (hserves : LoopTraceStreamer.entryStream.Serves streamer es) :
    Reading es 0 0 { loopTraceEntries := [], lut := [], streamer } [] es where
  split := rfl
  serves := hserves
  sorted := RepetitionPatternSortedLookup.Sorted.nil
  mem_lut := by simp
  length := rfl
  kept := by simp
  covers := by simp

end Reading

/-- The tables of the group that holds an invocation. -/
def groupOf (es : List LoopTraceEntry) (n : Nat) : InvocationGroupCfc :=
  match es.find? fun e => n ∈ numbers e.invocationRepetitionPattern with
  | some e => e.invocation.precomputeDataStructures
  | none => InvocationGroupCfc.new

variable {es : List LoopTraceEntry} {invocations : List (List (List UInt64))}

theorem groupOf_eq (hgroups : Groups LoopTraceEntry.Stands 0 invocations (loopPieces.tag es))
    {lte : LoopTraceEntry} (hlte : lte ∈ es) {n : Nat}
    (hn : n ∈ numbers lte.invocationRepetitionPattern) :
    groupOf es n = lte.invocation.precomputeDataStructures := by
  have hnodup : (es.flatMap fun e => numbers e.invocationRepetitionPattern).Nodup := by
    have := hgroups.nodup
    simpa [PieceModel.tag, loopPieces, List.flatMap_map] using this
  have hfind : es.find? (fun e => n ∈ numbers e.invocationRepetitionPattern) = some lte := by
    rcases List.append_of_mem hlte with ⟨as, bs, rfl⟩
    rw [List.find?_append, List.find?_eq_none.2]
    · simp [hn]
    · intro e he hmem
      rw [List.flatMap_append, List.flatMap_cons, List.nodup_append] at hnodup
      refine hnodup.2.2 n (List.mem_flatMap.2 ⟨e, he, by simpa using hmem⟩) n ?_ rfl
      exact List.mem_append_left _ hn
  simp only [groupOf, hfind]

/-- The entry of an invocation stands for its iterations. -/
theorem exists_entryOf (hgroups : Groups LoopTraceEntry.Stands 0 invocations (loopPieces.tag es))
    {n : Nat} {iterations : List (List UInt64)} (hn : invocations[n]? = some iterations) :
    ∃ lte ∈ es, groupOf es n = lte.invocation.precomputeDataStructures ∧
      Describes 0 iterations lte.invocation.iterations := by
  have hlt := (List.getElem?_eq_some_iff.1 hn).1
  rcases hgroups.exists_group (Nat.zero_le n) (by simpa using hlt) with ⟨g, hg, hng⟩
  rcases List.mem_map.1 hg with ⟨lte, hlte, rfl⟩
  rcases hgroups.value _ hg n hng with ⟨its, hits, hstands⟩
  refine ⟨lte, hlte, groupOf_eq hgroups hlte hng, ?_⟩
  rw [Nat.sub_zero, hn] at hits
  rw [Option.some.inj hits]
  exact hstands.iterations

/-- The group of an invocation stands for its iterations. -/
theorem exists_groupOf (hgroups : Groups LoopTraceEntry.Stands 0 invocations (loopPieces.tag es))
    {n : Nat} {iterations : List (List UInt64)} (hn : invocations[n]? = some iterations) :
    ∃ inv : InvocationGroupCfc,
      groupOf es n = inv.precomputeDataStructures ∧ Describes 0 iterations inv.iterations := by
  rcases exists_entryOf hgroups hn with ⟨lte, -, hgroup, hdescribes⟩
  exact ⟨lte.invocation, hgroup, hdescribes⟩

/-- The loop from some invocation on. -/
theorem forFrom_eq (body : β → Nat → InvocationGroupCfc → Except Fault β)
    (hgroups : Groups LoopTraceEntry.Stands 0 invocations (loopPieces.tag es))
    (hseen : FirstSeen 0 (fun _ => False) (loopPieces.tag es)) :
    ∀ (m n fuel : Nat) (sloop : StreamParseLoopRec) (parsed rest : List LoopTraceEntry) (b : β),
      n + m = invocations.length → m ≤ fuel → Reading es n n sloop parsed rest →
      ∃ sloop' ii, sloop.iteratorAt n = .ok (sloop', ii) ∧
        forFrom body fuel sloop' ii b
          = visitAll body b ((List.range' n m).map fun k => (k, groupOf es k)) := by
  intro m
  induction m with
  | zero =>
      intro n fuel sloop parsed rest b hn _ h
      rcases h.iteratorAt_end hgroups hseen (by omega) with ⟨sloop', hend⟩
      refine ⟨sloop', none, hend, ?_⟩
      cases fuel <;> rfl
  | succ m ih =>
      intro n fuel sloop parsed rest b hn hfuel h
      rcases h.visit hgroups hseen (by omega) with
        ⟨sloop', sloop'', parsed', rest', iter, lte, hiterator, hlte, hmem, hentry, hnext, h''⟩
      refine ⟨sloop', some (iter, n), hiterator, ?_⟩
      have hgroup : lte.precomputeDataStructures.invocation = groupOf es n :=
        (groupOf_eq hgroups hlte hmem).symm
      match fuel, hfuel with
      | fuel + 1, hfuel =>
          rw [List.range'_succ, List.map_cons]
          simp only [forFrom, visitAll, hentry, hgroup]
          cases hbody : body b n (groupOf es n) with
          | error e => rfl
          | ok b' =>
              rcases ih (n + 1) fuel sloop'' parsed' rest' b' (by omega) (by omega) h'' with
                ⟨sloop₃, ii, hiterator', hloop⟩
              simp only [hnext, hiterator', hloop]

/-- The loop over all invocations of a file visits each of them with the tables of its group. -/
theorem forInvocations_eq (body : β → Nat → InvocationGroupCfc → Except Fault β)
    {streamer : LoopTraceStreamer} (hserves : LoopTraceStreamer.entryStream.Serves streamer es)
    (hgroups : Groups LoopTraceEntry.Stands 0 invocations (loopPieces.tag es))
    (hseen : FirstSeen 0 (fun _ => False) (loopPieces.tag es)) {fuel : Nat}
    (hfuel : invocations.length ≤ fuel) (b : β) :
    forInvocations body fuel { loopTraceEntries := [], lut := [], streamer } b
      = visitAll body b ((List.range invocations.length).map fun n => (n, groupOf es n)) := by
  rcases forFrom_eq body hgroups hseen invocations.length 0 fuel _ [] es b (by simp) hfuel
    (Reading.start hserves) with ⟨sloop', ii, hiterator, hloop⟩
  simp only [forInvocations, ii_begin, hiterator, hloop, List.range_eq_range']

end StreamParseLoopRec
end CamAlias
