import CamAlias.Lexer.EntryStream

/-!
# Pieces — what the entries of a file stand for

The tracer writes a file in several chunks.  A chunk holds groups of invocations; where a loop was
running, the last group is a piece of the running invocation, and the first group of the next chunk
is the piece that follows.  `PieceModel` says what the pieces and the entries of a file stand for,
and that merging a piece follows `join`.

`ReadsTo.append`: a further chunk adds the invocations that it completes.
-/

namespace CamAlias

open Lib

/-- What entries `ε` stand for: parts `π` of invocations, and invocations `φ` as far as they have
been written. -/
structure PieceModel {σ ε : Type} (S : EntryStream σ ε) (π φ : Type) where
  numbers : ε → List Nat
  IsPiece : ε → π → Prop
  Stands : ε → φ → Prop
  /-- The part begins with the invocation. -/
  Uncut : π → Prop
  /-- The part continues what has been written. -/
  Continues : φ → π → Prop
  whole : π → φ
  join : φ → π → φ
  stands_whole : ∀ {e p}, IsPiece e p → Uncut p → Stands e (whole p)
  joinPiece_eq : ∀ {o e n x p}, numbers o = [n] → numbers e = [n] → Stands o x → IsPiece e p →
    Continues x p → ∃ o', S.joinPiece o e = .ok o' ∧ numbers o' = [n] ∧ Stands o' (join x p)

namespace PieceModel

variable {σ ε π φ : Type} {S : EntryStream σ ε} (M : PieceModel S π φ)

/-- The entries with their invocation numbers. -/
def tag (es : List ε) : List (List Nat × ε) :=
  es.map fun e => (M.numbers e, e)

@[simp] theorem tag_nil : M.tag [] = [] := rfl

@[simp] theorem tag_cons (e : ε) (es : List ε) :
    M.tag (e :: es) = (M.numbers e, e) :: M.tag es := rfl

@[simp] theorem tag_append (es es' : List ε) : M.tag (es ++ es') = M.tag es ++ M.tag es' :=
  List.map_append

/-- The invocations that the parts of a chunk belong to, the first of them perhaps begun before. -/
def resume : Option φ → List π → List φ
  | none, ps => ps.map M.whole
  | some x, p :: ps => M.join x p :: ps.map M.whole
  | some _, [] => []

/-- The invocations that are complete at the end of a chunk. -/
def settled (loopRunning : Bool) (xs : List φ) : List φ :=
  if loopRunning then xs.dropLast else xs

/-- The invocation that is not. -/
def unsettled (loopRunning : Bool) (xs : List φ) : Option φ :=
  if loopRunning then xs.getLast? else none

/-- The entry left incomplete stands for the invocation left incomplete. -/
def Incomplete (n : Nat) : Option ε → Option φ → Prop
  | none, none => True
  | some o, some x => M.numbers o = [n] ∧ M.Stands o x
  | _, _ => False

/-- The groups of one chunk.  A group with a piece of an invocation that is cut at the beginning or
at the end of the chunk has no other invocation. -/
structure Chunk (lo : Nat) (parts : List π) (resumed loopRunning : Bool) (es : List ε) : Prop where
  groups : Groups M.IsPiece lo parts (M.tag es)
  firstSeen : FirstSeen lo (fun _ => False) (M.tag es)
  first : resumed = true → ∃ e rest, es = e :: rest ∧ M.numbers e = [lo]
  last : loopRunning = true → ∃ init e, es = init ++ [e] ∧ M.numbers e = [lo + (parts.length - 1)]
  uncut : ∀ p ∈ parts.drop (if resumed then 1 else 0), M.Uncut p

/-- The entries read from a file: `done` invocations, and perhaps one left incomplete. -/
def ReadsTo (items : List (ε × ReturnStatus)) (done : List φ) (incomplete : Option φ) : Prop :=
  ∃ es o, S.joinEntries none items = .ok (es, o) ∧ Groups M.Stands 0 done (M.tag es) ∧
    FirstSeen 0 (fun _ => False) (M.tag es) ∧ M.Incomplete done.length o incomplete

variable {M} {lo : Nat} {parts : List π} {loopRunning : Bool} {es : List ε}

theorem pieces_false (es : List ε) : pieces false es = es.map fun e => (e, .invocComplete) := by
  induction es with
  | nil => rfl
  | cons e es ih =>
      cases es with
      | nil => rfl
      | cons e' es => simpa [pieces] using ih

theorem pieces_true (init : List ε) (e : ε) :
    pieces true (init ++ [e]) = init.map (fun e => (e, .invocComplete)) ++ [(e, .invocIncomplete)] := by
  induction init with
  | nil => rfl
  | cons e' init ih =>
      cases init with
      | nil => rfl
      | cons e'' init => simpa [pieces] using ih

theorem joinEntries_complete (es : List ε) :
    S.joinEntries none (es.map fun e => (e, .invocComplete)) = .ok (es, none) := by
  induction es with
  | nil => rfl
  | cons e es ih => simp [EntryStream.joinEntries, EntryStream.extend, ih]

/-- A chunk that begins with an invocation of its own. -/
theorem Chunk.joinEntries_fresh (h : M.Chunk lo parts false loopRunning es) :
    ∃ es' o', S.joinEntries none (pieces loopRunning es) = .ok (es', o') ∧
      Groups M.Stands lo (settled loopRunning (parts.map M.whole)) (M.tag es') ∧
      FirstSeen lo (fun _ => False) (M.tag es') ∧
      M.Incomplete (lo + (settled loopRunning (parts.map M.whole)).length) o'
        (unsettled loopRunning (parts.map M.whole)) := by
  have huncut : ∀ p ∈ parts, M.Uncut p := by simpa using h.uncut
  cases loopRunning with
  | false =>
      refine ⟨es, none, ?_, ?_, h.firstSeen, trivial⟩
      · rw [pieces_false, joinEntries_complete]
      · exact h.groups.map fun e p hp he => M.stands_whole he (huncut p hp)
  | true =>
      rcases h.last rfl with ⟨init, e, rfl, hnumbers⟩
      have hgroups := h.groups
      have hfirstSeen := h.firstSeen
      rw [tag_append] at hgroups hfirstSeen
      rcases List.eq_nil_or_concat' parts with rfl | ⟨ps, p, rfl⟩
      · have hempty := hgroups.perm.length_eq
        simp [hnumbers] at hempty
      · have hmove := hgroups.of_perm (List.perm_append_singleton (M.numbers e, e) (M.tag init))
        have hlast : M.numbers e = [] ++ [lo + ps.length] := by simpa using hnumbers
        rw [hlast] at hmove
        rcases hmove.split_last with ⟨hinit, he⟩
        rw [Groups.keep, if_pos rfl, List.nil_append] at hinit
        refine ⟨init, some e, ?_, ?_, (FirstSeen.append.1 hfirstSeen).1, ?_⟩
        · rw [pieces_true]
          have hone : S.joinEntries none [(e, .invocIncomplete)] = .ok ([], some e) := rfl
          simpa using EntryStream.joinEntries_append (joinEntries_complete init) hone
        · have hps : ∀ q ∈ ps, M.Uncut q := fun q hq => huncut q (List.mem_append_left _ hq)
          simpa [settled] using hinit.map fun e q hq he => M.stands_whole he (hps q hq)
        · have hwhole := M.stands_whole he (huncut p (by simp))
          simpa [settled, unsettled, Incomplete] using And.intro hlast hwhole

/-- The pieces of one write, after what has been left incomplete. -/
theorem Chunk.joinEntries_eq {o : Option ε} {x : Option φ} (h : M.Chunk lo parts x.isSome loopRunning es)
    (hincomplete : M.Incomplete lo o x)
    (hcontinues : ∀ y p, x = some y → parts.head? = some p → M.Continues y p) :
    ∃ es' o', S.joinEntries o (pieces loopRunning es) = .ok (es', o') ∧
      Groups M.Stands lo (settled loopRunning (M.resume x parts)) (M.tag es') ∧
      FirstSeen lo (fun _ => False) (M.tag es') ∧
      M.Incomplete (lo + (settled loopRunning (M.resume x parts)).length) o'
        (unsettled loopRunning (M.resume x parts)) := by
  match o, x, hincomplete with
  | none, none, _ => exact h.joinEntries_fresh
  | some o, some y, hincomplete =>
      rcases hincomplete with ⟨hnumber, hstands⟩
      rcases h.first rfl with ⟨e, rest, rfl, hnumbers⟩
      have hgroups := h.groups
      rw [tag_cons, hnumbers] at hgroups
      cases parts with
      | nil =>
          have hempty := hgroups.perm.length_eq
          simp at hempty
      | cons p ps =>
          rcases hgroups.split_first with ⟨hrest, he⟩
          rw [Groups.keep, if_pos rfl, List.nil_append] at hrest
          rcases M.joinPiece_eq hnumber hnumbers hstands he (hcontinues y p rfl rfl) with
            ⟨o', hjoin, hnumber', hstands'⟩
          have hextend : S.extend (some o) e = .ok o' := hjoin
          cases rest with
          | nil =>
              have hps : ps = [] := hrest.eq_nil
              subst hps
              cases loopRunning with
              | true =>
                  refine ⟨[], some o', ?_, ?_, trivial, ?_⟩
                  · simp [pieces, dumpStatus, EntryStream.joinEntries, hextend]
                  · simpa [settled, resume] using Groups.nil
                  · simpa [settled, unsettled, resume, Incomplete] using And.intro hnumber' hstands'
              | false =>
                  refine ⟨[o'], none, ?_, ?_, ?_, trivial⟩
                  · simp [pieces, dumpStatus, EntryStream.joinEntries, hextend]
                  · simpa [settled, resume, hnumber'] using Groups.singleton hstands'
                  · refine ⟨⟨lo, by simp [hnumber'], ?_⟩, trivial⟩
                    intro k hlo hk
                    omega
          | cons e' rest =>
              have hfirstSeen := h.firstSeen
              rw [tag_cons, hnumbers] at hfirstSeen
              have hne : ps ≠ [] := by
                rintro rfl
                have hempty := hrest.perm.length_eq
                simp only [tag_cons, List.flatMap_cons, List.length_append, List.length_range',
                  List.length_nil] at hempty
                refine hrest.nonempty (M.numbers e', e') (by simp) ?_
                exact List.eq_nil_of_length_eq_zero (Nat.eq_zero_of_add_eq_zero_right hempty)
              have hpos := List.length_pos_of_ne_nil hne
              have hlater : M.Chunk (lo + 1) ps false loopRunning (e' :: rest) := by
                refine ⟨hrest, ?_, by simp, ?_, by simpa using h.uncut⟩
                · refine hfirstSeen.2.tail (Nat.le_succ lo) ?_
                  rintro k hk (hf | hlo)
                  · exact hf
                  · rw [List.mem_singleton.1 hlo] at hk
                    omega
                · intro hrunning
                  rcases h.last hrunning with ⟨init, e'', heq, hnumbers''⟩
                  cases init with
                  | nil => simp at heq
                  | cons e₀ init =>
                      refine ⟨init, e'', (List.cons.inj heq).2, ?_⟩
                      rw [hnumbers'', List.length_cons]
                      congr 1
                      omega
              rcases hlater.joinEntries_fresh with ⟨es', o'', hrec, hgroups', hseen', hincomplete'⟩
              have hsettled : settled loopRunning (M.join y p :: ps.map M.whole)
                  = M.join y p :: settled loopRunning (ps.map M.whole) := by
                cases loopRunning with
                | false => rfl
                | true =>
                    have : ps.map M.whole ≠ [] := by simpa using hne
                    simp only [settled, if_true, List.dropLast_cons_of_ne_nil this]
              have hunsettled : unsettled loopRunning (M.join y p :: ps.map M.whole)
                  = unsettled loopRunning (ps.map M.whole) := by
                cases ps with
                | nil => exact absurd rfl hne
                | cons q qs => simp [unsettled]
              refine ⟨o' :: es', o'', ?_, ?_, ?_, ?_⟩
              · have hcons : pieces loopRunning (e :: e' :: rest)
                    = (e, .invocComplete) :: pieces loopRunning (e' :: rest) := rfl
                simp [hcons, EntryStream.joinEntries, hextend, hrec]
              · have hone : Groups M.Stands lo [M.join y p] [([lo], o')] := Groups.singleton hstands'
                have hall := hone.append hgroups'
                simpa [resume, hsettled, hnumber'] using hall
              · refine ⟨⟨lo, by simp [hnumber'], ?_⟩, ?_⟩
                · intro k hlo hk
                  omega
                · refine (hseen'.mono fun k hk => hk.elim).of_le ?_
                  intro k hlo hk
                  have heq : k = lo := by omega
                  simp [hnumber', heq]
              · rw [resume, hsettled, hunsettled, List.length_cons,
                  Nat.add_comm (settled loopRunning (ps.map M.whole)).length 1, ← Nat.add_assoc]
                exact hincomplete'

theorem ReadsTo.nil : M.ReadsTo [] [] none :=
  ⟨[], none, rfl, Groups.nil, trivial, trivial⟩

/-- A further chunk: the invocations that it completes, and the one it leaves incomplete. -/
theorem ReadsTo.append {items : List (ε × ReturnStatus)} {done : List φ} {x : Option φ}
    (h : M.ReadsTo items done x) (hchunk : M.Chunk done.length parts x.isSome loopRunning es)
    (hcontinues : ∀ y p, x = some y → parts.head? = some p → M.Continues y p) :
    M.ReadsTo (items ++ pieces loopRunning es)
      (done ++ settled loopRunning (M.resume x parts))
      (unsettled loopRunning (M.resume x parts)) := by
  rcases h with ⟨es₁, o, hjoin, hgroups, hseen, hincomplete⟩
  rcases hchunk.joinEntries_eq hincomplete hcontinues with
    ⟨es₂, o', hjoin', hgroups', hseen', hincomplete'⟩
  refine ⟨es₁ ++ es₂, o', EntryStream.joinEntries_append hjoin hjoin', ?_, ?_, ?_⟩
  · rw [tag_append]
    exact hgroups.append (by simpa using hgroups')
  · rw [tag_append]
    refine FirstSeen.append.2 ⟨hseen, ?_⟩
    refine (hseen'.mono fun k hk => hk.elim).of_le ?_
    intro k _ hk
    rcases hgroups.exists_group (Nat.zero_le k) (by simpa using hk) with ⟨g, hg, hkg⟩
    exact Or.inr (List.mem_flatMap.2 ⟨g, hg, hkg⟩)
  · rw [List.length_append]
    exact hincomplete'

end PieceModel
end CamAlias
