import CamAlias.Lexer.Pieces
import CamAlias.Tracer.ShareTable

/-!
# Pending — the invocations since the last write, as groups

`ShareTable.Holds`: the groups of a table split the parts that have been finished since the last
write.  The first of them may be the rest of an invocation that a dump has cut; nothing else joins
its group, so it can be merged with what has been written.

* `Holds.share`: recording the next part keeps this;
* `Holds.chunk`: what a write leaves in the file.
-/

namespace CamAlias

open Lib

namespace ShareTable

variable {α π : Type} {R : α → π → Prop} {Uncut : π → Prop}

/-- The table holds the parts `pending`, numbered from `lo` on. -/
structure Holds (R : α → π → Prop) (Uncut : π → Prop) (lo : Nat) (resumed : Bool)
    (pending : List π) (t : ShareTable α) : Prop where
  groups : Groups R lo pending t.groups
  firstSeen : FirstSeen lo (fun _ => False) t.groups
  first : resumed = true → pending ≠ [] → ∃ info infos, t.infos = info :: infos ∧
    info.members = [lo] ∧ info.partiallyDumped = true
  uncut : ∀ p ∈ pending.drop (if resumed then 1 else 0), Uncut p

namespace Holds

variable {lo : Nat} {resumed attemptMatch : Bool} {pending : List π} {t : ShareTable α}
  {isMatch : α → α → Bool} {payload : α} {p : π}

theorem empty (lo : Nat) (resumed : Bool) :
    Holds R Uncut lo resumed [] (ShareTable.empty : ShareTable α) where
  groups := Groups.nil
  firstSeen := trivial
  first := fun _ h => absurd rfl h
  uncut := by simp

theorem infos_eq_nil (h : Holds R Uncut lo resumed [] t) : t.infos = [] := by
  cases hinfos : t.infos with
  | nil => rfl
  | cons info infos =>
      have hmem : info.group ∈ t.groups := by simp [ShareTable.groups, hinfos]
      rcases List.exists_mem_of_ne_nil _ (h.groups.nonempty _ hmem) with ⟨k, hk⟩
      have hb := h.groups.bounds hmem hk
      simp only [List.length_nil] at hb
      omega

theorem infos_ne_nil (h : Holds R Uncut lo resumed pending t) (hne : pending ≠ []) :
    t.infos ≠ [] := by
  intro hnil
  have hgroups := h.groups
  rw [ShareTable.groups, hnil, List.map_nil] at hgroups
  exact hne hgroups.eq_nil

/-- The numbers of a group, and one of the parts it stands for. -/
theorem exists_part (h : Holds R Uncut lo resumed pending t) {info : SharedInfo α}
    (hinfo : info ∈ t.infos) :
    (∀ k ∈ info.members, k < lo + pending.length) ∧ ∃ p ∈ pending, R info.payload p := by
  have hmem : info.group ∈ t.groups := List.mem_map_of_mem hinfo
  refine ⟨fun k hk => (h.groups.bounds hmem hk).2, ?_⟩
  rcases List.exists_mem_of_ne_nil _ (h.groups.nonempty _ hmem) with ⟨k, hk⟩
  rcases h.groups.value _ hmem k hk with ⟨p, hp, hr⟩
  exact ⟨p, List.mem_of_getElem? hp, hr⟩

/-- A group that may be matched stands for uncut parts. -/
theorem exists_uncut (h : Holds R Uncut lo resumed pending t) {info : SharedInfo α}
    (hinfo : info ∈ t.infos) (hdumped : info.partiallyDumped = false) :
    ∃ q, R info.payload q ∧ Uncut q := by
  have hmem : info.group ∈ t.groups := List.mem_map_of_mem hinfo
  rcases List.exists_mem_of_ne_nil _ (h.groups.nonempty _ hmem) with ⟨k, hk⟩
  have hb := h.groups.bounds hmem hk
  rcases h.groups.value _ hmem k hk with ⟨q, hq, hr⟩
  refine ⟨q, hr, h.uncut q ?_⟩
  cases resumed with
  | false => exact List.mem_of_getElem? hq
  | true =>
      have hne : pending ≠ [] := by
        intro hnil
        simp [hnil] at hq
      rcases h.first rfl hne with ⟨cut, infos, hinfos, hcut, hdumped'⟩
      have hnodup := h.groups.nodup
      rw [ShareTable.groups, hinfos, List.map_cons, List.flatMap_cons, SharedInfo.group_fst, hcut]
        at hnodup
      have htail : info ∈ infos := by
        rcases List.mem_cons.1 (hinfos ▸ hinfo) with rfl | htail
        · simp [hdumped'] at hdumped
        · exact htail
      have hk' : k ∈ (infos.map SharedInfo.group).flatMap Prod.fst :=
        List.mem_flatMap.2 ⟨_, List.mem_map_of_mem htail, hk⟩
      have hlo : k ≠ lo := by
        rintro rfl
        exact (List.nodup_cons.1 hnodup).1 hk'
      have hidx : k - lo = 1 + (k - lo - 1) := by omega
      rw [hidx, ← List.getElem?_drop] at hq
      exact List.mem_of_getElem? hq

/-- The next part is recorded.  The rest of a cut invocation gets a group of its own. -/
theorem share (h : Holds R Uncut lo resumed pending t) (hp : R payload p)
    (hattempt : resumed = true → pending = [] → attemptMatch = false)
    (huncut : (resumed = true → pending ≠ []) → Uncut p)
    (hmatch : ∀ y q, R y q → Uncut q → Uncut p → isMatch payload y = true → R y p) :
    ∃ t' found, t.share isMatch payload (lo + pending.length) attemptMatch = some (t', found) ∧
      Holds R Uncut lo resumed (pending ++ [p]) t' ∧
      (attemptMatch = false →
        t'.infos = t.infos ++ [SharedInfo.new payload (lo + pending.length) true]) := by
  have hjoin : ∀ info ∈ t.infos, info.partiallyDumped = false →
      isMatch payload info.payload = true → R info.payload p := by
    intro info hinfo hdumped hm
    rcases h.exists_uncut hinfo hdumped with ⟨q, hr, hq⟩
    have hne : pending ≠ [] := by
      rintro rfl
      rw [h.infos_eq_nil] at hinfo
      simp at hinfo
    exact hmatch _ q hr hq (huncut fun _ => hne) hm
  rcases share_groups h.groups hp hjoin attemptMatch with ⟨t', found, hshare, hgroups, hseen⟩
  refine ⟨t', found, hshare, ⟨hgroups, hseen _ h.firstSeen, ?_, ?_⟩, ?_⟩
  · intro hresumed _
    by_cases hpending : pending = []
    · have hfalse := hattempt hresumed hpending
      subst hfalse hpending
      rcases share_false t payload (lo + ([] : List π).length) with
        ⟨t'', hshare', hinfos⟩
      rw [hshare] at hshare'
      rcases (Prod.mk.inj (Option.some.inj hshare')) with ⟨rfl, -⟩
      rw [h.infos_eq_nil] at hinfos
      exact ⟨_, [], hinfos, by simp, rfl⟩
    · rcases h.first hresumed hpending with ⟨cut, infos, hinfos, hcut, hdumped⟩
      rcases share_eq_some hshare with
        ⟨-, hinfos'⟩ | ⟨-, -, as, info, info', bs, hsplit, hdumped', -, -, hinfos'⟩
      · exact ⟨cut, _, by rw [hinfos', hinfos, List.cons_append], hcut, hdumped⟩
      · cases as with
        | nil =>
            rw [hinfos, List.nil_append] at hsplit
            rcases List.cons.inj hsplit with ⟨rfl, -⟩
            simp [hdumped'] at hdumped
        | cons a as =>
            rw [hinfos, List.cons_append] at hsplit
            rcases List.cons.inj hsplit with ⟨rfl, -⟩
            exact ⟨cut, _, by rw [hinfos', List.cons_append], hcut, hdumped⟩
  · intro q hq
    by_cases hpending : resumed = true ∧ pending = []
    · rcases hpending with ⟨rfl, rfl⟩
      simp at hq
    · have hle : (if resumed then 1 else 0) ≤ pending.length := by
        cases resumed with
        | false => simp
        | true =>
            have hne : pending ≠ [] := fun hnil => hpending ⟨rfl, hnil⟩
            exact List.length_pos_of_ne_nil hne
      rw [List.drop_append_of_le_length hle] at hq
      rcases List.mem_append.1 hq with hq | hq
      · exact h.uncut q hq
      · rcases List.mem_singleton.1 hq with rfl
        exact huncut fun hresumed hnil => hpending ⟨hresumed, hnil⟩
  · rintro rfl
    rcases share_false t payload (lo + pending.length) with
      ⟨t'', hshare', hinfos⟩
    rw [hshare] at hshare'
    rcases (Prod.mk.inj (Option.some.inj hshare')) with ⟨rfl, -⟩
    exact hinfos

/-- What a write of the groups leaves in the file. -/
theorem chunk {σ ε φ : Type} {S : EntryStream σ ε} {M : PieceModel S π φ}
    {toEntry : SharedInfo α → ε} {loopRunning : Bool} (h : Holds R M.Uncut lo resumed pending t)
    (hnumbers : ∀ info ∈ t.infos, M.numbers (toEntry info) = info.members)
    (hpiece : ∀ info ∈ t.infos, ∀ p, R info.payload p → M.IsPiece (toEntry info) p)
    (hne : pending ≠ [])
    (hlast : loopRunning = true → ∃ init info, t.infos = init ++ [info] ∧
      info.members = [lo + (pending.length - 1)]) :
    M.Chunk lo pending resumed loopRunning (t.infos.map toEntry) := by
  have htag : M.tag (t.infos.map toEntry)
      = t.infos.map fun info => (M.numbers (toEntry info), toEntry info) := by
    simp [PieceModel.tag]
  refine ⟨?_, ?_, ?_, ?_, h.uncut⟩
  · rw [htag]
    exact h.groups.image hnumbers fun info hinfo p _ hr => hpiece info hinfo p hr
  · rw [htag]
    refine h.firstSeen.of_fst_eq ?_
    rw [ShareTable.groups, List.map_map, List.map_map]
    exact List.map_congr_left hnumbers
  · intro hresumed
    rcases h.first hresumed hne with ⟨info, infos, hinfos, hmembers, -⟩
    refine ⟨toEntry info, infos.map toEntry, by rw [hinfos, List.map_cons], ?_⟩
    rw [hnumbers info (by simp [hinfos]), hmembers]
  · intro hrunning
    rcases hlast hrunning with ⟨init, info, hinfos, hmembers⟩
    refine ⟨init.map toEntry, toEntry info, by rw [hinfos, List.map_append]; rfl, ?_⟩
    rw [hnumbers info (by simp [hinfos]), hmembers]

end Holds
end ShareTable
end CamAlias
