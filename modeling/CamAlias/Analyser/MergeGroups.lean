import CamAlias.Analyser.LoopRec
import CamAlias.Lib.Lookup

/-!
# MergeGroups — the two parts of a cut are rejoined

A dump cuts a running iteration (or call) in two.  `mergeGroups` rejoins the last group of the
first part with the first group of the second one.

* `mergeGroups_eq`: nothing is lost or counted twice in the first part, but the second one, which
  is changed in place, loses the cut number if other numbers share its group;
* `mergeGroups_nil`: without groups in the second part the code looks at a group that is not there;
* `Part.mergeGroups_eq`: the parts of one sequence are joined to the sequence.
-/

namespace CamAlias

open Lib

/-! ## Groups with separate ranges -/

/-- The numbers that the groups have. -/
def groupNumbers (gs : List CfcGroup) : List Nat :=
  gs.flatMap fun g => numbers g.repetitions

/-- The control flow that the groups have for a number. -/
def flowOf (gs : List CfcGroup) (k : Nat) : Option (List CompressionPattern) :=
  lookup (gs.map CfcGroup.group) k

/-- The ranges of each group are ascending, and no number is in two groups. -/
structure Separate (gs : List CfcGroup) : Prop where
  ascending : ∀ g ∈ gs, Ascending g.repetitions
  nonempty : ∀ g ∈ gs, g.repetitions ≠ []
  nodup : (groupNumbers gs).Nodup

section Separate

variable {gs hs : List CfcGroup} {g : CfcGroup} {k m : Nat}

@[simp] theorem groupNumbers_cons (g : CfcGroup) (gs : List CfcGroup) :
    groupNumbers (g :: gs) = numbers g.repetitions ++ groupNumbers gs := rfl

@[simp] theorem groupNumbers_append (gs hs : List CfcGroup) :
    groupNumbers (gs ++ hs) = groupNumbers gs ++ groupNumbers hs := by
  simp [groupNumbers]

theorem flatMap_group (gs : List CfcGroup) :
    (gs.map CfcGroup.group).flatMap Prod.fst = groupNumbers gs := by
  rw [List.flatMap_map]
  rfl

theorem flowOf_cons (g : CfcGroup) (gs : List CfcGroup) (k : Nat) :
    flowOf (g :: gs) k
      = if k ∈ numbers g.repetitions then some g.controlFlow else flowOf gs k := by
  rw [flowOf, List.map_cons, lookup_cons]
  rfl

theorem flowOf_append (gs hs : List CfcGroup) (k : Nat) :
    flowOf (gs ++ hs) k = (flowOf gs k).or (flowOf hs k) := by
  simp only [flowOf, List.map_append, lookup_append]

theorem flowOf_eq_none_iff : flowOf gs k = none ↔ k ∉ groupNumbers gs := by
  rw [flowOf, lookup_eq_none_iff, flatMap_group]

theorem flowOf_perm (h : Separate gs) (hp : gs.Perm hs) (k : Nat) : flowOf gs k = flowOf hs k :=
  lookup_perm (hp.map _) (by rw [flatMap_group]; exact h.nodup) k

theorem Separate.of_perm (h : Separate gs) (hp : gs.Perm hs) : Separate hs where
  ascending := fun g hg => h.ascending g (hp.mem_iff.2 hg)
  nonempty := fun g hg => h.nonempty g (hp.mem_iff.2 hg)
  nodup := (hp.flatMap_right _).nodup_iff.1 h.nodup

theorem Separate.nil : Separate [] where
  ascending := by simp
  nonempty := by simp
  nodup := List.nodup_nil

theorem Separate.tail (h : Separate (g :: gs)) : Separate gs where
  ascending := fun g' hg' => h.ascending g' (List.mem_cons_of_mem _ hg')
  nonempty := fun g' hg' => h.nonempty g' (List.mem_cons_of_mem _ hg')
  nodup := (List.nodup_append.1 h.nodup).2.1

theorem Separate.notMem_tail (h : Separate (g :: gs)) (hk : k ∈ numbers g.repetitions) :
    k ∉ groupNumbers gs := fun hmem =>
  (List.nodup_append.1 h.nodup).2.2 k hk k hmem rfl

theorem Separate.cons (h : Separate gs) (hasc : Ascending g.repetitions)
    (hne : g.repetitions ≠ []) (hdisj : ∀ k ∈ numbers g.repetitions, k ∉ groupNumbers gs) :
    Separate (g :: gs) where
  ascending := List.forall_mem_cons.2 ⟨hasc, h.ascending⟩
  nonempty := List.forall_mem_cons.2 ⟨hne, h.nonempty⟩
  nodup := by
    rw [groupNumbers_cons, List.nodup_append]
    refine ⟨hasc.nodup_numbers, h.nodup, ?_⟩
    rintro k hk _ hmem rfl
    exact hdisj k hk hmem

theorem Separate.append (h : Separate gs) (h' : Separate hs)
    (hdisj : ∀ k ∈ groupNumbers gs, k ∉ groupNumbers hs) : Separate (gs ++ hs) where
  ascending := List.forall_mem_append.2 ⟨h.ascending, h'.ascending⟩
  nonempty := List.forall_mem_append.2 ⟨h.nonempty, h'.nonempty⟩
  nodup := by
    rw [groupNumbers_append, List.nodup_append]
    refine ⟨h.nodup, h'.nodup, ?_⟩
    rintro k hk _ hmem rfl
    exact hdisj k hk hmem

theorem Separate.numbers_ne_nil (h : Separate gs) (hg : g ∈ gs) : numbers g.repetitions ≠ [] := by
  intro hnil
  rcases List.exists_mem_of_ne_nil _ (h.nonempty g hg) with ⟨r, hr⟩
  have hmem : r.1 ∈ numbers g.repetitions :=
    mem_numbers.2 ⟨r, hr, Nat.le_refl _, (h.ascending g hg).le hr⟩
  simp [hnil] at hmem

theorem mem_groupNumbers : k ∈ groupNumbers gs ↔ ∃ g ∈ gs, k ∈ numbers g.repetitions :=
  List.mem_flatMap

end Separate

/-! ## The first and the last number -/

/-- The largest number of the groups. -/
def lastNumber (gs : List CfcGroup) : Option Nat :=
  (groupNumbers gs).max?

/-- The smallest number of the groups. -/
def firstNumber (gs : List CfcGroup) : Option Nat :=
  (groupNumbers gs).min?

theorem mapM_eq_ok {f : CfcGroup → Except Fault Nat} {key : CfcGroup → Nat} {gs : List CfcGroup}
    (h : ∀ g ∈ gs, f g = .ok (key g)) : gs.mapM f = .ok (gs.map key) := by
  induction gs with
  | nil => rfl
  | cons g gs ih =>
      have hg := h g (by simp)
      have hgs := ih fun g' hg' => h g' (List.mem_cons_of_mem _ hg')
      rw [List.mapM_cons, hg, hgs]
      rfl

/-- The element at the index of an extreme key has the extreme key. -/
theorem exists_extreme {f : CfcGroup → Except Fault Nat} {key : CfcGroup → Nat}
    {gs : List CfcGroup} {extreme : Nat} (p : Nat → Nat → Bool)
    (hf : ∀ g ∈ gs, f g = .ok (key g)) (hmem : ∃ g ∈ gs, key g = extreme)
    (hp : ∀ g ∈ gs, p extreme (key g) = true)
    (hanti : ∀ g ∈ gs, p (key g) extreme = true → key g = extreme) (hrefl : p 0 0 = true) :
    ∃ keys as a bs, extremeKeys f gs = .ok keys ∧
      keys.findIdx (fun k => keys.all fun k' => p k k') = as.length ∧
      gs = as ++ a :: bs ∧ key a = extreme := by
  rcases hmem with ⟨g, hg, hkey⟩
  match gs, hf, hg, hp, hanti with
  | [g'], _, hg, _, _ =>
      rcases List.mem_singleton.1 hg with rfl
      exact ⟨[0], [], g, [], rfl, by simp [List.findIdx_cons, hrefl], rfl, hkey⟩
  | g1 :: g2 :: gs, hf, hg, hp, hanti =>
      let all := g1 :: g2 :: gs
      let keys := all.map key
      have hkeys : extremeKeys f all = .ok keys := mapM_eq_ok hf
      have hall : ∀ k, (keys.all fun k' => p k k') = true ↔ ∀ g ∈ all, p k (key g) = true := by
        intro k
        simp [keys]
      -- some key satisfies the test, so the search ends inside the list
      have hlt : keys.findIdx (fun k => keys.all fun k' => p k k') < keys.length := by
        refine List.findIdx_lt_length_of_exists ⟨key g, List.mem_map_of_mem hg, ?_⟩
        rw [hall, hkey]
        exact hp
      have hfound := List.findIdx_getElem (w := hlt)
      generalize hidx : keys.findIdx (fun k => keys.all fun k' => p k k') = i at hlt hfound
      have hi : i < all.length := by simpa [keys] using hlt
      refine ⟨keys, all.take i, all[i], all.drop (i + 1), hkeys, ?_, ?_, ?_⟩
      · rw [hidx, List.length_take]
        omega
      · rw [← List.drop_eq_getElem_cons hi, List.take_append_drop]
      · have hpi : p (key all[i]) (key g) = true := by
          have := (hall _).1 hfound g hg
          simpa [keys] using this
        rw [hkey] at hpi
        exact hanti _ (List.getElem_mem hi) hpi

namespace Separate

variable {gs : List CfcGroup} {m : Nat}

/-- `max_element` finds the group of the last number. -/
theorem exists_maxElement (h : Separate gs) (hm : lastNumber gs = some m) :
    ∃ keys as a bs ns, extremeKeys (·.repetitions.getLastInstance) gs = .ok keys ∧
      maxElement keys = as.length ∧ gs = as ++ a :: bs ∧ numbers a.repetitions = ns ++ [m] := by
  rcases List.max?_eq_some_iff.1 hm with ⟨hmem, hle⟩
  let key : CfcGroup → Nat := fun g => (numbers g.repetitions).getLast?.getD 0
  have hkey : ∀ g ∈ gs, numbers g.repetitions = (numbers g.repetitions).dropLast ++ [key g] := by
    intro g hg
    have hsome := List.getLast?_eq_some_getLast (h.numbers_ne_nil hg)
    simp only [key, hsome, Option.getD_some, List.dropLast_append_getLast]
  have hf : ∀ g ∈ gs, g.repetitions.getLastInstance = .ok (key g) := fun g hg =>
    RepetitionPattern.getLastInstance_eq (h.ascending g hg) (hkey g hg)
  have hlast : ∀ g ∈ gs, key g ∈ numbers g.repetitions := by
    intro g hg
    rw [hkey g hg]
    simp
  have hkeyle : ∀ g ∈ gs, key g ≤ m := fun g hg =>
    hle _ (mem_groupNumbers.2 ⟨g, hg, hlast g hg⟩)
  rcases mem_groupNumbers.1 hmem with ⟨g, hg, hgm⟩
  have htop : key g = m := by
    have hsorted := (h.ascending g hg).pairwise_numbers
    have hsplit := hkey g hg
    rw [hsplit, List.pairwise_append] at hsorted
    rw [hsplit, List.mem_append] at hgm
    have := hkeyle g hg
    rcases hgm with hgm | hgm
    · have := hsorted.2.2 _ hgm (key g) (by simp)
      omega
    · exact (List.mem_singleton.1 hgm).symm
  rcases exists_extreme (fun k k' => decide (k' ≤ k)) hf ⟨g, hg, htop⟩
      (fun g hg => by simpa using hkeyle g hg)
      (fun g' hg' hp => Nat.le_antisymm (hkeyle g' hg') (by simpa using hp))
      (by simp) with ⟨keys, as, a, bs, hkeys, hidx, hgs, ha⟩
  refine ⟨keys, as, a, bs, (numbers a.repetitions).dropLast, hkeys, hidx, hgs, ?_⟩
  rw [← ha]
  exact hkey a (by simp [hgs])

/-- `min_element` finds the group of the first number. -/
theorem exists_minElement (h : Separate gs) (hm : firstNumber gs = some m) :
    ∃ keys as b bs ms, extremeKeys (·.repetitions.getFirstInstance) gs = .ok keys ∧
      minElement keys = as.length ∧ gs = as ++ b :: bs ∧ numbers b.repetitions = m :: ms := by
  rcases List.min?_eq_some_iff.1 hm with ⟨hmem, hle⟩
  let key : CfcGroup → Nat := fun g => (numbers g.repetitions).head?.getD 0
  have hkey : ∀ g ∈ gs, numbers g.repetitions = key g :: (numbers g.repetitions).tail := by
    intro g hg
    have hsome := List.head?_eq_some_head (h.numbers_ne_nil hg)
    simp [key, hsome]
  have hf : ∀ g ∈ gs, g.repetitions.getFirstInstance = .ok (key g) := fun g hg =>
    RepetitionPattern.getFirstInstance_eq (h.ascending g hg) (hkey g hg)
  have hfirst : ∀ g ∈ gs, key g ∈ numbers g.repetitions := by
    intro g hg
    rw [hkey g hg]
    simp
  have hlekey : ∀ g ∈ gs, m ≤ key g := fun g hg =>
    hle _ (mem_groupNumbers.2 ⟨g, hg, hfirst g hg⟩)
  rcases mem_groupNumbers.1 hmem with ⟨g, hg, hgm⟩
  have hbottom : key g = m := by
    have hsorted := (h.ascending g hg).pairwise_numbers
    have hsplit := hkey g hg
    rw [hsplit, List.pairwise_cons] at hsorted
    rw [hsplit, List.mem_cons] at hgm
    have := hlekey g hg
    rcases hgm with hgm | hgm
    · exact hgm.symm
    · have := hsorted.1 _ hgm
      omega
  rcases exists_extreme (fun k k' => decide (k ≤ k')) hf ⟨g, hg, hbottom⟩
      (fun g hg => by simpa using hlekey g hg)
      (fun g' hg' hp => Nat.le_antisymm (by simpa using hp) (hlekey g' hg'))
      (by simp) with ⟨keys, as, b, bs, hkeys, hidx, hgs, hb⟩
  refine ⟨keys, as, b, bs, (numbers b.repetitions).tail, hkeys, hidx, hgs, ?_⟩
  rw [← hb]
  exact hkey b (by simp [hgs])

theorem lastNumber_isSome (h : Separate gs) (hne : gs ≠ []) : ∃ m, lastNumber gs = some m := by
  rcases List.exists_mem_of_ne_nil _ hne with ⟨g, hg⟩
  rcases List.exists_mem_of_ne_nil _ (h.numbers_ne_nil hg) with ⟨k, hk⟩
  refine Option.isSome_iff_exists.1 (List.isSome_max?_of_mem (mem_groupNumbers.2 ⟨g, hg, hk⟩))

theorem firstNumber_isSome (h : Separate gs) (hne : gs ≠ []) : ∃ m, firstNumber gs = some m := by
  rcases List.exists_mem_of_ne_nil _ hne with ⟨g, hg⟩
  rcases List.exists_mem_of_ne_nil _ (h.numbers_ne_nil hg) with ⟨k, hk⟩
  refine Option.isSome_iff_exists.1 (List.isSome_min?_of_mem (mem_groupNumbers.2 ⟨g, hg, hk⟩))

end Separate

/-! ## Merging -/

variable {as bs existing new : List CfcGroup} {a b : CfcGroup}

/-- What the first part becomes: the numbers of both parts, the control flow of a number of both
the one of the first part followed by the one of the second. -/
structure MergedGroups (existing new merged : List CfcGroup) : Prop where
  separate : Separate merged
  flow : ∀ k, flowOf merged k = Option.merge (· ++ ·) (flowOf existing k) (flowOf new k)

/-- The second part begins with the last number of the first one, or with the next. -/
def Adjoins (existing new : List CfcGroup) : Prop :=
  ∀ m n, lastNumber existing = some m → firstNumber new = some n → n = m ∨ n = m + 1

/-- The number that is in both parts shares its group in the second part with other numbers. -/
def SharesCut (existing new : List CfcGroup) : Prop :=
  ∃ m, lastNumber existing = some m ∧ firstNumber new = some m ∧
    ∃ g ∈ new, m ∈ numbers g.repetitions ∧ numbers g.repetitions ≠ [m]

/-- What the second part becomes: the number of both parts is lost if it shares its group. -/
structure LeftGroups (existing new left : List CfcGroup) : Prop where
  kept : ¬ SharesCut existing new → left = new
  lost : SharesCut existing new → ∃ k cf, flowOf new k = some cf ∧ flowOf left k = none

/-- The first part keeps its numbers, and its last one receives the control flow of the cut. -/
theorem mergeIntoLast_eq {ns : List Nat} {m : Nat} (h : Separate (as ++ a :: bs))
    (ha : numbers a.repetitions = ns ++ [m]) (b : CfcGroup) :
    ∃ merged, mergeIntoLast (as ++ a :: bs) as.length a b = .ok merged ∧ Separate merged ∧
      ∀ k, flowOf merged k
        = if k = m then some (a.controlFlow ++ b.controlFlow) else flowOf (as ++ a :: bs) k := by
  have hmid : Separate (a :: (as ++ bs)) := h.of_perm List.perm_middle
  have hasc : Ascending a.repetitions := hmid.ascending a (by simp)
  have hflow : ∀ k, flowOf (as ++ a :: bs) k = flowOf (a :: (as ++ bs)) k := fun k =>
    flowOf_perm h List.perm_middle k
  have hothers : ∀ k ∈ numbers a.repetitions, k ∉ groupNumbers (as ++ bs) := fun k hk =>
    hmid.notMem_tail hk
  by_cases hsingle : a.repetitions.isSingleton = true
  · -- the cut iteration is the only one of its group
    rcases (RepetitionPattern.isSingleton_iff hasc).1 hsingle with ⟨n, hn⟩
    have hns : ns = [] ∧ m = n := by
      have heq : ns ++ [m] = [] ++ [n] := by rw [← ha, hn, List.nil_append]
      have := List.append_inj' heq rfl
      exact ⟨this.1, List.singleton_inj.1 this.2⟩
    rcases hns with ⟨rfl, rfl⟩
    have hjoined : Separate ({ a with controlFlow := a.controlFlow ++ b.controlFlow }
        :: (as ++ bs)) :=
      hmid.tail.cons hasc (hmid.nonempty a (by simp)) hothers
    refine ⟨_, by rw [mergeIntoLast, if_pos hsingle], ?_, ?_⟩
    · simpa using hjoined.of_perm List.perm_middle.symm
    · intro k
      have hperm := flowOf_perm hjoined List.perm_middle.symm k
      simp only [List.set_append_right, Nat.le_refl, Nat.sub_self, List.set_cons_zero]
      rw [← hperm, hflow, flowOf_cons, flowOf_cons, hn]
      by_cases hk : k = m <;> simp [hk]
  · have hns : ns ≠ [] := by
      rintro rfl
      exact hsingle ((RepetitionPattern.isSingleton_iff hasc).2 ⟨_, by simpa using ha⟩)
    rcases RepetitionPattern.removeLastInstance_eq hasc ha with ⟨p', hp', hasc', hnum'⟩
    let stays : CfcGroup := { a with repetitions := p' }
    let last : CfcGroup :=
      { repetitions := [(m, m)], controlFlow := a.controlFlow ++ b.controlFlow
        numInstancesLut := ∅ }
    have hlastnum : numbers last.repetitions = [m] := by
      simp [last, rangeNumbers_singleton]
    have hnodup : m ∉ ns := by
      have := hasc.nodup_numbers
      rw [ha, List.nodup_append] at this
      exact fun hmem => this.2.2 m hmem m (by simp) rfl
    have hstays : Separate (stays :: (as ++ bs)) := by
      refine hmid.tail.cons hasc' ?_ ?_
      · rintro hnil
        have hp'nil : p' = [] := hnil
        exact hns (by rw [← hnum', hp'nil, numbers_nil])
      · intro k hk
        have hkns : k ∈ ns := hnum' ▸ hk
        exact hothers k (by rw [ha]; exact List.mem_append_left _ hkns)
    have hjoined : Separate (last :: stays :: (as ++ bs)) := by
      refine hstays.cons ⟨Nat.le_refl _, by simp, trivial⟩ (by simp [last]) ?_
      intro k hk
      rw [hlastnum, List.mem_singleton] at hk
      subst hk
      rw [groupNumbers_cons, List.mem_append, not_or]
      exact ⟨by simpa [stays, hnum'] using hnodup, hothers k (by simp [ha])⟩
    have hperm : (last :: stays :: (as ++ bs)).Perm (as ++ stays :: bs ++ [last]) :=
      (List.perm_append_singleton _ _).symm.trans (List.perm_middle.symm.append_right _)
    refine ⟨as ++ stays :: bs ++ [last], ?_, hjoined.of_perm hperm, ?_⟩
    · simp [mergeIntoLast, hsingle, CfcGroup.extractLast,
        RepetitionPattern.getLastInstance_eq hasc ha, hp', stays, last]
    · intro k
      rw [← flowOf_perm hjoined hperm, hflow, flowOf_cons, flowOf_cons, flowOf_cons, hlastnum, ha]
      by_cases hk : k = m
      · simp [hk, last]
      · simp [hk, stays, hnum']

/-- The second part loses its first number. -/
theorem remainingGroups_eq {ms : List Nat} {m : Nat} (h : Separate (as ++ b :: bs))
    (hb : numbers b.repetitions = m :: ms) :
    ∃ rest left, remainingGroups (as ++ b :: bs) as.length b = .ok (rest, left) ∧
      Separate rest ∧
      (∀ k, flowOf rest k = if k = m then none else flowOf (as ++ b :: bs) k) ∧
      left = if ms = [] then as ++ b :: bs else rest := by
  have hmid : Separate (b :: (as ++ bs)) := h.of_perm List.perm_middle
  have hasc : Ascending b.repetitions := hmid.ascending b (by simp)
  have hflow : ∀ k, flowOf (as ++ b :: bs) k = flowOf (b :: (as ++ bs)) k := fun k =>
    flowOf_perm h List.perm_middle k
  have hothers : ∀ k ∈ numbers b.repetitions, k ∉ groupNumbers (as ++ bs) := fun k hk =>
    hmid.notMem_tail hk
  have hm : flowOf (as ++ bs) m = none := flowOf_eq_none_iff.2 (hothers m (by simp [hb]))
  by_cases hsingle : b.repetitions.isSingleton = true
  · have hms : ms = [] := by
      rcases (RepetitionPattern.isSingleton_iff hasc).1 hsingle with ⟨n, hn⟩
      rw [hb] at hn
      exact (List.cons.inj hn).2
    subst hms
    have herase : (as ++ b :: bs).eraseIdx as.length = as ++ bs := by
      simp [List.eraseIdx_append_of_length_le]
    refine ⟨as ++ bs, as ++ b :: bs, by rw [remainingGroups, if_pos hsingle, herase], hmid.tail,
      ?_, by simp⟩
    intro k
    rw [hflow, flowOf_cons, hb]
    by_cases hk : k = m
    · rw [if_pos hk, hk, hm]
    · simp [hk]
  · have hms : ms ≠ [] := by
      rintro rfl
      exact hsingle ((RepetitionPattern.isSingleton_iff hasc).2 ⟨_, hb⟩)
    rcases RepetitionPattern.removeFirstInstance_eq hasc hb with ⟨p', hp', hasc', hnum'⟩
    let stays : CfcGroup := { b with repetitions := p' }
    have hnodup : m ∉ ms := by
      have := hasc.nodup_numbers
      rw [hb, List.nodup_cons] at this
      exact this.1
    have hstays : Separate (stays :: (as ++ bs)) := by
      refine hmid.tail.cons hasc' ?_ ?_
      · rintro hnil
        have hp'nil : p' = [] := hnil
        exact hms (by rw [← hnum', hp'nil, numbers_nil])
      · intro k hk
        have hkms : k ∈ ms := hnum' ▸ hk
        exact hothers k (by rw [hb]; exact List.mem_cons_of_mem _ hkms)
    refine ⟨as ++ stays :: bs, as ++ stays :: bs, ?_, hstays.of_perm List.perm_middle.symm, ?_,
      by rw [if_neg hms]⟩
    · simp [remainingGroups, hsingle, CfcGroup.extractFirst, hp', stays]
    · intro k
      rw [← flowOf_perm hstays List.perm_middle.symm, hflow, flowOf_cons, flowOf_cons, hb]
      by_cases hk : k = m
      · simp [hk, stays, hnum', hnodup, hm]
      · simp [hk, stays, hnum']

/-- Parts without a common number. -/
theorem mergedGroups_append (h : Separate existing) (h' : Separate new)
    (hdisj : ∀ k ∈ groupNumbers existing, k ∉ groupNumbers new) :
    MergedGroups existing new (existing ++ new) := by
  refine ⟨h.append h' hdisj, ?_⟩
  intro k
  rw [flowOf_append]
  by_cases hk : k ∈ groupNumbers existing
  · rw [flowOf_eq_none_iff.2 (hdisj k hk)]
    simp
  · rw [flowOf_eq_none_iff.2 hk]
    simp

theorem leftGroups_same (h : ¬ SharesCut existing new) : LeftGroups existing new new :=
  ⟨fun _ => rfl, fun h' => absurd h' h⟩

theorem mergedGroups_nil (h : Separate existing) : MergedGroups existing [] existing := by
  refine ⟨h, ?_⟩
  intro k
  simp [flowOf]

/-- What merging does to the two parts. -/
theorem mergeGroups_eq (h : Separate existing) (h' : Separate new) (hadj : Adjoins existing new)
    (hne : existing ≠ [] → new ≠ []) :
    ∃ merged left, mergeGroups existing new = .ok (merged, left) ∧
      MergedGroups existing new merged ∧ LeftGroups existing new left := by
  by_cases hexisting : existing = []
  · -- nothing is compared with the groups of the second part
    subst hexisting
    have hshares : ¬ SharesCut [] new := by
      rintro ⟨m, hm, -⟩
      simp [lastNumber, groupNumbers] at hm
    refine ⟨new, new, ?_, mergedGroups_append h h' (by simp [groupNumbers]),
      leftGroups_same hshares⟩
    have hnone : extremeKeys (·.repetitions.getLastInstance) [] = .ok [] := rfl
    by_cases hnew : new = []
    · subst hnew
      rfl
    · rcases h'.firstNumber_isSome hnew with ⟨n, hn⟩
      rcases h'.exists_minElement hn with ⟨firsts, -, -, -, -, hfirsts, -⟩
      simp only [mergeGroups, hnone, hfirsts, List.getElem?_nil, List.nil_append]
  rcases h.lastNumber_isSome hexisting with ⟨m, hm⟩
  rcases h'.firstNumber_isSome (hne hexisting) with ⟨n, hn⟩
  have hmax := (List.max?_eq_some_iff.1 hm).2
  have hmin := (List.min?_eq_some_iff.1 hn).2
  rcases h.exists_maxElement hm with ⟨lasts, as, a, bs, ns, hlasts, hi, rfl, ha⟩
  rcases h'.exists_minElement hn with ⟨firsts, as', b, bs', ms, hfirsts, hj, rfl, hb⟩
  have hlast := RepetitionPattern.getLastInstance_eq (h.ascending a (by simp)) ha
  have hfirst := RepetitionPattern.getFirstInstance_eq (h'.ascending b (by simp)) hb
  have hgeta : (as ++ a :: bs)[as.length]? = some a := by simp
  have hgetb : (as' ++ b :: bs')[as'.length]? = some b := by simp
  by_cases heq : m = n
  · subst heq
    rcases mergeIntoLast_eq h ha b with ⟨merged, hmerged, hsep, hflow⟩
    rcases remainingGroups_eq h' hb with ⟨rest, left, hrest, hsep', hflow', hleft⟩
    have hbflow : flowOf (as' ++ b :: bs') m = some b.controlFlow := by
      rw [flowOf_perm h' List.perm_middle, flowOf_cons, hb]
      simp
    have haflow : flowOf (as ++ a :: bs) m = some a.controlFlow := by
      rw [flowOf_perm h List.perm_middle, flowOf_cons, ha]
      simp
    refine ⟨merged ++ rest, left, ?_, ⟨hsep.append hsep' ?_, ?_⟩, ?_, ?_⟩
    · simp only [mergeGroups, hlasts, hfirsts, hi, hj, hgeta, hgetb, hlast, hfirst, if_true,
        hmerged, hrest]
    · intro k hk hk'
      have hsome := mt flowOf_eq_none_iff.1 (not_not.2 hk)
      have hsome' := mt flowOf_eq_none_iff.1 (not_not.2 hk')
      rw [hflow] at hsome
      rw [hflow'] at hsome'
      by_cases hkm : k = m
      · exact hsome' (if_pos hkm)
      · rw [if_neg hkm] at hsome hsome'
        have := hmax k (not_not.1 (mt flowOf_eq_none_iff.2 hsome))
        have := hmin k (not_not.1 (mt flowOf_eq_none_iff.2 hsome'))
        omega
    · intro k
      rw [flowOf_append, hflow, hflow']
      by_cases hkm : k = m
      · simp [hkm, haflow, hbflow]
      · rw [if_neg hkm, if_neg hkm]
        -- one of the two parts does not have the number
        refine (merge_lookup _ ?_).symm
        rw [flatMap_group, flatMap_group]
        by_contra hboth
        rw [not_or, not_not, not_not] at hboth
        have := hmax k hboth.1
        have := hmin k hboth.2
        omega
    · intro hshares
      refine hleft.trans (if_pos ?_)
      by_contra hms
      exact hshares ⟨m, hm, hn, b, by simp, by simp [hb], by simpa [hb] using hms⟩
    · rintro ⟨m', hm', -, g, hg, hmg, hne'⟩
      obtain rfl : m = m' := Option.some.inj (hm.symm.trans hm')
      have hgb : g = b := by
        have hperm : (as' ++ b :: bs').Perm (b :: (as' ++ bs')) := List.perm_middle
        rcases List.mem_cons.1 (hperm.mem_iff.1 hg) with hgb | hg
        · exact hgb
        · exact absurd (mem_groupNumbers.2 ⟨g, hg, hmg⟩)
            ((h'.of_perm hperm).notMem_tail (by simp [hb]))
      have hms : ms ≠ [] := by
        rintro rfl
        exact hne' (hgb ▸ hb)
      refine ⟨m, b.controlFlow, hbflow, ?_⟩
      rw [hleft, if_neg hms, hflow', if_pos rfl]
  · have hnext : n = m + 1 := (hadj m n hm hn).resolve_left (Ne.symm heq)
    refine ⟨_, _, ?_, mergedGroups_append h h' ?_, leftGroups_same ?_⟩
    · simp only [mergeGroups, hlasts, hfirsts, hi, hj, hgeta, hgetb, hlast, hfirst, if_neg heq]
    · intro k hk hk'
      have := hmax k hk
      have := hmin k hk'
      omega
    · rintro ⟨m', hm', hn', -⟩
      exact heq (Option.some.inj ((hm.symm.trans hm').trans (hn'.symm.trans hn)))

/-- Without groups in the second part the code compares with a group that is not there. -/
theorem mergeGroups_nil (h : Separate existing) (hne : existing ≠ []) :
    mergeGroups existing [] = .error .outOfRange := by
  rcases h.lastNumber_isSome hne with ⟨m, hm⟩
  rcases h.exists_maxElement hm with ⟨lasts, as, a, bs, ns, hlasts, hi, rfl, ha⟩
  have hnone : extremeKeys (·.repetitions.getFirstInstance) [] = .ok [] := rfl
  have hgeta : (as ++ a :: bs)[as.length]? = some a := by simp
  simp only [mergeGroups, hlasts, hnone, hi, hgeta, List.getElem?_nil]

/-! ## Groups that describe a sequence -/

namespace Describes

variable {first : Nat} {content : List (List UInt64)} {gs : List CfcGroup}

theorem separate (h : Describes first content gs) : Separate gs where
  ascending := h.ascending
  nonempty := by
    intro g hg hnil
    exact h.numbers_ne_nil hg (by simp [hnil])
  nodup := by
    rw [← flatMap_group]
    exact h.groups.nodup

theorem mem_groupNumbers_iff (h : Describes first content gs) {k : Nat} :
    k ∈ groupNumbers gs ↔ first ≤ k ∧ k < first + content.length := by
  rw [← flatMap_group, h.groups.perm.mem_iff, List.mem_range'_1]

/-- The control flow of a number stands for the element with that number. -/
theorem flowOf_rel (h : Describes first content gs) (k : Nat) :
    Option.Rel StandsFor (flowOf gs k) (if first ≤ k then content[k - first]? else none) := by
  by_cases hk : k ∈ groupNumbers gs
  · rcases mem_groupNumbers.1 hk with ⟨g, hg, hgk⟩
    rcases h.groups.value g.group (List.mem_map_of_mem hg) k hgk with ⟨c, hc, hstands⟩
    have hflow : flowOf gs k = some g.controlFlow :=
      (lookup_eq_some_iff h.groups.nodup).2 ⟨g.group, List.mem_map_of_mem hg, hgk, rfl⟩
    rw [hflow, if_pos (h.mem_groupNumbers_iff.1 hk).1, hc]
    exact Option.Rel.some hstands
  · rw [flowOf_eq_none_iff.2 hk]
    rw [h.mem_groupNumbers_iff] at hk
    split
    · rw [List.getElem?_eq_none (by omega)]
      exact Option.Rel.none
    · exact Option.Rel.none

theorem of_flowOf (h : Separate gs) (hflow : ∀ k, Option.Rel StandsFor (flowOf gs k)
      (if first ≤ k then content[k - first]? else none)) : Describes first content gs := by
  have hsome : ∀ k, k ∈ groupNumbers gs → ∃ cf c, flowOf gs k = some cf ∧ first ≤ k ∧
      content[k - first]? = some c ∧ StandsFor cf c := by
    intro k hk
    have hrel := hflow k
    cases hcf : flowOf gs k with
    | none => exact absurd hk (flowOf_eq_none_iff.1 hcf)
    | some cf =>
        rw [hcf] at hrel
        split at hrel
        · rename_i hle
          cases hc : content[k - first]? with
          | none =>
              rw [hc] at hrel
              cases hrel
          | some c =>
              rw [hc] at hrel
              cases hrel with
              | some hstands => exact ⟨cf, c, rfl, hle, rfl, hstands⟩
        · cases hrel
  refine ⟨⟨?_, ?_, ?_⟩, h.ascending⟩
  · rw [flatMap_group, List.perm_ext_iff_of_nodup h.nodup List.nodup_range']
    intro k
    rw [List.mem_range'_1]
    constructor
    · intro hk
      rcases hsome k hk with ⟨_, c, -, hle, hc, -⟩
      have hlt := (List.getElem?_eq_some_iff.1 hc).1
      omega
    · intro hk
      by_contra hmem
      have hrel := hflow k
      rw [flowOf_eq_none_iff.2 hmem, if_pos hk.1,
        List.getElem?_eq_getElem (by omega : k - first < content.length)] at hrel
      cases hrel
  · intro _ hgroup
    rcases List.mem_map.1 hgroup with ⟨g, hg, rfl⟩
    exact h.numbers_ne_nil hg
  · intro _ hgroup k hk
    rcases List.mem_map.1 hgroup with ⟨g, hg, rfl⟩
    rcases hsome k (mem_groupNumbers.2 ⟨g, hg, hk⟩) with ⟨cf, c, hcf, -, hc, hstands⟩
    have hgcf : flowOf gs k = some g.controlFlow :=
      (lookup_eq_some_iff (by rw [flatMap_group]; exact h.nodup)).2
        ⟨g.group, List.mem_map_of_mem hg, hk, rfl⟩
    obtain rfl : g.controlFlow = cf := Option.some.inj (hgcf.symm.trans hcf)
    exact ⟨c, hc, hstands⟩

theorem ne_nil_iff (h : Describes first content gs) : gs ≠ [] ↔ content ≠ [] := by
  constructor
  · rintro hne rfl
    rcases h.separate.lastNumber_isSome hne with ⟨m, hm⟩
    have := h.mem_groupNumbers_iff.1 (List.max?_eq_some_iff.1 hm).1
    simp at this
    omega
  · rintro hne rfl
    exact hne h.groups.eq_nil

theorem eq_of_lastNumber (h : Describes first content gs) {m : Nat}
    (hm : lastNumber gs = some m) : m + 1 = first + content.length := by
  rcases List.max?_eq_some_iff.1 hm with ⟨hmem, hle⟩
  have hb := h.mem_groupNumbers_iff.1 hmem
  have := hle (first + content.length - 1) (h.mem_groupNumbers_iff.2 (by omega))
  omega

theorem eq_of_firstNumber (h : Describes first content gs) {m : Nat}
    (hm : firstNumber gs = some m) : m = first := by
  rcases List.min?_eq_some_iff.1 hm with ⟨hmem, hle⟩
  have hb := h.mem_groupNumbers_iff.1 hmem
  have := hle first (h.mem_groupNumbers_iff.2 (by omega))
  omega

end Describes

theorem rel_merge {o o' : Option (List CompressionPattern)} {c c' : Option (List UInt64)}
    (h : Option.Rel StandsFor o c) (h' : Option.Rel StandsFor o' c') :
    Option.Rel StandsFor (Option.merge (· ++ ·) o o') (Option.merge (· ++ ·) c c') := by
  cases h with
  | none => simpa using h'
  | some hcf =>
      cases h' with
      | none => simpa using Option.Rel.some hcf
      | some hcf' => simpa using Option.Rel.some (hcf.append hcf')

namespace Part

theorem getElem?_join {xs : List (List UInt64)} {p : Part} (h : p.Continues xs) (k : Nat) :
    (p.join xs)[k]? = Option.merge (· ++ ·) xs[k]?
      (if p.first ≤ k then p.values[k - p.first]? else none) := by
  rcases p with ⟨first, values⟩
  rcases h with ⟨hlen, hvalues⟩ | hlen
  · rcases List.eq_nil_or_concat' xs with rfl | ⟨xs, x, rfl⟩
    · simp at hlen
    · cases values with
      | nil => exact absurd rfl hvalues
      | cons y ys =>
          have hfirst : first = xs.length := by simpa using hlen
          subst hfirst
          rw [join_cut]
          rcases Nat.lt_trichotomy k xs.length with hk | rfl | hk
          · simp [List.getElem?_append_left, hk, Nat.not_le.2 hk, Nat.lt_succ_of_lt hk]
          · simp
          · have hidx : k - xs.length = k - xs.length - 1 + 1 := by omega
            have hnone : (xs ++ [x])[k]? = none :=
              List.getElem?_eq_none (by simpa using Nat.succ_le_of_lt hk)
            rw [List.getElem?_append_right (Nat.le_of_lt hk), hidx, List.getElem?_cons_succ, hnone,
              if_pos (Nat.le_of_lt hk), hidx, List.getElem?_cons_succ]
            simp
  · have hfirst : first = xs.length := hlen
    subst hfirst
    rw [join_next]
    by_cases hk : k < xs.length
    · simp [List.getElem?_append_left, hk, Nat.not_le.2 hk]
    · simp [List.getElem?_append_right, Nat.not_lt.1 hk]

theorem adjoins {p : Part} {xs : List (List UInt64)} {existing new : List CfcGroup}
    (h : Describes 0 xs existing) (h' : Describes p.first p.values new)
    (hcont : p.Continues xs) : Adjoins existing new := by
  intro m n hm hn
  have hlast := h.eq_of_lastNumber hm
  have hfirst := h'.eq_of_firstNumber hn
  rcases hcont with ⟨hlen, -⟩ | hlen <;> omega

/-- The merged groups of a part follow `join`. -/
theorem describes_join {p : Part} {xs : List (List UInt64)} {existing new merged : List CfcGroup}
    (h : Describes 0 xs existing) (h' : Describes p.first p.values new) (hcont : p.Continues xs)
    (hmerged : MergedGroups existing new merged) : Describes 0 (p.join xs) merged := by
  refine Describes.of_flowOf hmerged.separate fun k => ?_
  rw [hmerged.flow, if_pos (Nat.zero_le k), Nat.sub_zero, getElem?_join hcont]
  exact rel_merge (by simpa using h.flowOf_rel k) (h'.flowOf_rel k)

/-- Merging the groups of a part follows `join`. -/
theorem mergeGroups_eq {p : Part} {xs : List (List UInt64)} {existing new : List CfcGroup}
    (h : Describes 0 xs existing) (h' : Describes p.first p.values new) (hcont : p.Continues xs)
    (hne : xs ≠ [] → p.values ≠ []) :
    ∃ merged left, mergeGroups existing new = .ok (merged, left) ∧
      Describes 0 (p.join xs) merged := by
  rcases CamAlias.mergeGroups_eq h.separate h'.separate (adjoins h h' hcont)
    (fun hex => h'.ne_nil_iff.2 (hne (h.ne_nil_iff.1 hex))) with ⟨merged, left, hok, hmerged, -⟩
  exact ⟨merged, left, hok, describes_join h h' hcont hmerged⟩

end Part

end CamAlias
