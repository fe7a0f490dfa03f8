import CamAlias.Analyser.Merge

/-!
# SoundMerge — merging the calls of two pieces does not fail

`mergeCallInfo` looks at the first and the last range of every group and at nothing else, so it
needs no more than groups with ascending ranges.  What the groups stand for, and whether their
numbers fit together, does not matter here.
-/

namespace CamAlias

open Lib

/-- The group has ranges, in ascending order. -/
structure CfcGroup.Sound (g : CfcGroup) : Prop where
  ascending : Ascending g.repetitions
  nonempty : g.repetitions ≠ []

/-! ## The first and the last group -/

theorem exists_extremeKeys {f : CfcGroup → Except Fault Nat} {gs : List CfcGroup}
    (hf : ∀ g ∈ gs, ∃ k, f g = .ok k) :
    ∃ keys, extremeKeys f gs = .ok keys ∧ keys.length = gs.length := by
  match gs, hf with
  | [], _ => exact ⟨[], rfl, rfl⟩
  | [_], _ => exact ⟨[0], rfl, rfl⟩
  | g :: g' :: gs, hf =>
      let key : CfcGroup → Nat := fun g => ((f g).toOption).getD 0
      have hkey : ∀ x ∈ g :: g' :: gs, f x = .ok (key x) := by
        intro x hx
        rcases hf x hx with ⟨k, hk⟩
        simp [key, hk, Except.toOption]
      exact ⟨(g :: g' :: gs).map key, mapM_eq_ok hkey, by simp⟩

theorem minElement_lt_length {keys : List Nat} (hne : keys ≠ []) :
    minElement keys < keys.length := by
  rcases List.exists_mem_of_ne_nil _ hne with ⟨k, hk⟩
  rcases Option.isSome_iff_exists.1 (List.isSome_min?_of_mem hk) with ⟨m, hm⟩
  rcases List.min?_eq_some_iff.1 hm with ⟨hmem, hle⟩
  refine List.findIdx_lt_length_of_exists ⟨m, hmem, ?_⟩
  simpa using hle

namespace CfcGroup.Sound

variable {g : CfcGroup}

theorem exists_getFirstInstance (h : g.Sound) : ∃ k, g.repetitions.getFirstInstance = .ok k := by
  rcases RepetitionPattern.exists_first h.ascending h.nonempty with ⟨m, -, -, hfirst⟩
  exact ⟨m, hfirst⟩

theorem exists_getLastInstance (h : g.Sound) : ∃ k, g.repetitions.getLastInstance = .ok k := by
  rcases RepetitionPattern.exists_last h.ascending h.nonempty with ⟨-, m, -, hlast⟩
  exact ⟨m, hlast⟩

/-- A group of several numbers is split in two. -/
theorem extractLast_eq (h : g.Sound) (hsingle : g.repetitions.isSingleton = false) :
    ∃ stays last, g.extractLast = .ok (stays, last) ∧ stays.Sound ∧
      ∀ controlFlow, CfcGroup.Sound { last with controlFlow } := by
  rcases RepetitionPattern.exists_last h.ascending h.nonempty with ⟨ns, m, hns, hlast⟩
  rcases RepetitionPattern.removeLastInstance_eq h.ascending hns with ⟨p', hp', hasc', rfl⟩
  have hne : numbers p' ≠ [] := by
    intro hnil
    simp [(RepetitionPattern.isSingleton_iff_last h.ascending hns).2 hnil] at hsingle
  refine ⟨{ g with repetitions := p' }, ⟨[(m, m)], g.controlFlow, ∅⟩,
    by simp only [extractLast, hlast, hp'], ?_, fun controlFlow => ?_⟩
  · exact ⟨hasc', RepetitionPattern.ne_nil_of_numbers rfl hne⟩
  · exact ⟨⟨Nat.le_refl m, by simp, trivial⟩, by simp⟩

/-- A group of several numbers loses the first of them. -/
theorem extractFirst_eq (h : g.Sound) (hsingle : g.repetitions.isSingleton = false) :
    ∃ left, g.extractFirst = .ok left ∧ left.Sound := by
  rcases RepetitionPattern.exists_first h.ascending h.nonempty with ⟨m, ms, hms, -⟩
  rcases RepetitionPattern.removeFirstInstance_eq h.ascending hms with ⟨p', hp', hasc', rfl⟩
  have hne : numbers p' ≠ [] := by
    intro hnil
    simp [(RepetitionPattern.isSingleton_iff_first h.ascending hms).2 hnil] at hsingle
  exact ⟨{ g with repetitions := p' }, by simp only [extractFirst, hp'], hasc',
    RepetitionPattern.ne_nil_of_numbers rfl hne⟩

end CfcGroup.Sound

/-! ## Merging -/

variable {existing new : List CfcGroup} {a b : CfcGroup}

theorem forall_mem_set {gs : List CfcGroup} (h : ∀ g ∈ gs, g.Sound) {g : CfcGroup} (hg : g.Sound)
    (i : Nat) : ∀ g' ∈ gs.set i g, g'.Sound := by
  intro g' hg'
  rcases List.mem_or_eq_of_mem_set hg' with hmem | rfl
  · exact h g' hmem
  · exact hg

theorem mergeIntoLast_sound (h : ∀ g ∈ existing, g.Sound) (ha : a.Sound) (i : Nat)
    (b : CfcGroup) : ∃ merged, mergeIntoLast existing i a b = .ok merged ∧
      ∀ g ∈ merged, g.Sound := by
  cases hsingle : a.repetitions.isSingleton with
  | true =>
      refine ⟨existing.set i { a with controlFlow := a.controlFlow ++ b.controlFlow },
        by rw [mergeIntoLast, if_pos hsingle], forall_mem_set h ?_ i⟩
      exact ⟨ha.ascending, ha.nonempty⟩
  | false =>
      rcases ha.extractLast_eq hsingle with ⟨stays, last, hextract, hstays, hlast⟩
      refine ⟨existing.set i stays ++ [{ last with controlFlow := last.controlFlow ++ b.controlFlow }],
        by simp [mergeIntoLast, hsingle, hextract], ?_⟩
      intro g hg
      rcases List.mem_append.1 hg with hg | hg
      · exact forall_mem_set h hstays i g hg
      · rcases List.mem_singleton.1 hg with rfl
        exact hlast _

theorem remainingGroups_sound (h : ∀ g ∈ new, g.Sound) (hb : b.Sound) (j : Nat) :
    ∃ rest left, remainingGroups new j b = .ok (rest, left) ∧ ∀ g ∈ rest, g.Sound := by
  cases hsingle : b.repetitions.isSingleton with
  | true =>
      refine ⟨new.eraseIdx j, new, by rw [remainingGroups, if_pos hsingle], ?_⟩
      exact fun g hg => h g (List.mem_of_mem_eraseIdx hg)
  | false =>
      rcases hb.extractFirst_eq hsingle with ⟨left, hextract, hleft⟩
      exact ⟨new.set j left, new.set j left, by simp [remainingGroups, hsingle, hextract],
        forall_mem_set h hleft j⟩

/-- Groups with ascending ranges are merged, whatever their numbers. -/
theorem mergeGroups_sound (h : ∀ g ∈ existing, g.Sound) (h' : ∀ g ∈ new, g.Sound)
    (hne : new ≠ []) :
    ∃ merged left, mergeGroups existing new = .ok (merged, left) ∧ ∀ g ∈ merged, g.Sound := by
  have happend : ∀ g ∈ existing ++ new, g.Sound := by
    intro g hg
    rcases List.mem_append.1 hg with hg | hg
    · exact h g hg
    · exact h' g hg
  rcases exists_extremeKeys fun g hg => (h g hg).exists_getLastInstance with ⟨lasts, hlasts, -⟩
  rcases exists_extremeKeys fun g hg => (h' g hg).exists_getFirstInstance with
    ⟨firsts, hfirsts, hlen⟩
  have hmin : minElement firsts < new.length := by
    rw [← hlen]
    refine minElement_lt_length ?_
    rintro rfl
    exact hne (List.eq_nil_of_length_eq_zero hlen.symm)
  have hnew := List.getElem?_eq_getElem hmin
  cases hmax : existing[maxElement lasts]? with
  | none => exact ⟨existing ++ new, new, by simp only [mergeGroups, hlasts, hfirsts, hmax], happend⟩
  | some maxExisting =>
      have hsound := h _ (List.mem_of_getElem? hmax)
      have hsound' := h' _ (List.getElem_mem hmin)
      rcases hsound.exists_getLastInstance with ⟨last, hlast⟩
      rcases hsound'.exists_getFirstInstance with ⟨first, hfirst⟩
      by_cases heq : last = first
      · rcases mergeIntoLast_sound h hsound (maxElement lasts) new[minElement firsts] with
          ⟨merged, hmerged, hall⟩
        rcases remainingGroups_sound h' hsound' (minElement firsts) with
          ⟨rest, left, hrest, hall'⟩
        refine ⟨merged ++ rest, left, ?_, ?_⟩
        · simp only [mergeGroups, hlasts, hfirsts, hmax, hnew, hlast, hfirst, heq, if_true, hmerged,
            hrest]
        · intro g hg
          rcases List.mem_append.1 hg with hg | hg
          · exact hall g hg
          · exact hall' g hg
      · refine ⟨existing ++ new, new, ?_, happend⟩
        simp only [mergeGroups, hlasts, hfirsts, hmax, hnew, hlast, hfirst, heq, if_false]

theorem CallTraceCall.addCallTraceCall_sound {call c : CallTraceCall}
    (h : ∀ g ∈ call.callInstances, g.Sound) (h' : ∀ g ∈ c.callInstances, g.Sound) :
    ∃ call' left, call.addCallTraceCall c = .ok (call', left) ∧
      ∀ g ∈ call'.callInstances, g.Sound := by
  by_cases hempty : (call.callInstances.isEmpty || c.callInstances.isEmpty) = true
  · refine ⟨_, c, by rw [addCallTraceCall, if_pos hempty], ?_⟩
    intro g hg
    rcases List.mem_append.1 hg with hg | hg
    · exact h g hg
    · exact h' g hg
  · have hne : c.callInstances ≠ [] := by
      intro hnil
      simp [hnil] at hempty
    rcases mergeGroups_sound h h' hne with ⟨merged, left, hok, hall⟩
    exact ⟨{ call with callInstances := merged }, { c with callInstances := left }, by
      rw [addCallTraceCall, if_neg hempty, hok], hall⟩

namespace CallTraceLoopInvocationGroup

/-- All instance groups of all calls have ascending ranges. -/
def SoundCalls (calls : CallMap) : Prop :=
  ∀ id, ∀ g ∈ instancesOf calls id, g.Sound

theorem SoundCalls.insert {calls : CallMap} (h : SoundCalls calls) {call : CallTraceCall}
    (hcall : ∀ g ∈ call.callInstances, g.Sound) (callID : UInt64) :
    SoundCalls (calls.insert callID call) := by
  intro id
  by_cases hid : callID = id
  · subst hid
    rw [instancesOf_insert_self]
    exact hcall
  · rw [instancesOf_insert_of_ne calls hid]
    exact h id

/-- Calls are merged one after the other. -/
theorem mergeCalls_sound : ∀ (rest : List (UInt64 × CallTraceCall)) (calls left : CallMap),
    SoundCalls calls → (∀ item ∈ rest, ∀ g ∈ item.2.callInstances, g.Sound) →
    ∃ calls' left', mergeCalls rest calls left = .ok (calls', left') ∧ SoundCalls calls' := by
  intro rest
  induction rest with
  | nil => exact fun calls left h _ => ⟨calls, left, rfl, h⟩
  | cons item rest ih =>
      rcases item with ⟨callID, c⟩
      intro calls left h hrest
      have hold : ∀ g ∈ (calls[callID]?.getD CallTraceCall.new).callInstances, g.Sound := h callID
      rcases CallTraceCall.addCallTraceCall_sound hold (hrest (callID, c) (by simp)) with
        ⟨call, c', hcall, hsound⟩
      rcases ih (calls.insert callID call) (left.insert callID c') (h.insert hsound callID)
        fun item hitem => hrest item (List.mem_cons_of_mem _ hitem) with
        ⟨calls', left', hmerge, hall⟩
      exact ⟨calls', left', by simp only [mergeCalls, hcall, hmerge], hall⟩

theorem mergeCallInfo_sound {clig : CallTraceLoopInvocationGroup} {other : CallMap}
    (h : SoundCalls clig.calls) (h' : SoundCalls other) :
    ∃ calls left, clig.mergeCallInfo other = .ok ({ clig with calls }, left) ∧
      SoundCalls calls := by
  have hitems : ∀ item ∈ other.toList, ∀ g ∈ item.2.callInstances, g.Sound := by
    intro item hitem
    have hget : other[item.1]? = some item.2 :=
      Std.ExtTreeMap.mem_toList_iff_getElem?_eq_some.1 hitem
    have hall := h' item.1
    simpa [instancesOf, hget] using hall
  rcases mergeCalls_sound other.toList clig.calls other h hitems with ⟨calls, left, hok, hall⟩
  exact ⟨calls, left, by rw [mergeCallInfo, hok]; rfl, hall⟩

end CallTraceLoopInvocationGroup
end CamAlias
