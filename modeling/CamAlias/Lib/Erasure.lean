import Mathlib.Data.List.Basic
import Mathlib.Tactic.Common

/-!
# Erasure — a worklist whose items leave it early

Every step of a run looks at the items that are still on the list, reports what it finds for them, and
may erase some of them.  An item that has been erased is not looked at again, so what a later step would
have found for it is not reported.

* `reported_cons`: one step;
* `reported_congr`, `reported_filterMap`: the same run in other terms;
* `reported_subset`: the same run on fewer items;
* `reported_iff_of_settled`: where nothing is lost.
-/

namespace CamAlias.Lib

variable {σ ι α : Type _} {found : σ → ι → α → Prop} {erases : σ → ι → Prop}

/-- `x` is found for some item by a step before which no step has erased the item. -/
def Reported (found : σ → ι → α → Prop) (erases : σ → ι → Prop) (steps : List σ) (items : List ι)
    (x : α) : Prop :=
  ∃ i ∈ items, ∃ (n : Nat) (s : σ), steps[n]? = some s ∧ found s i x ∧
    ∀ m < n, ∀ s', steps[m]? = some s' → ¬ erases s' i

@[simp] theorem reported_nil {items : List ι} {x : α} : ¬ Reported found erases [] items x := by
  rintro ⟨i, -, n, s, hs, -⟩
  cases hs

/-- A step reports what it finds for the items, and hands on those that it does not erase. -/
theorem reported_cons {s : σ} {steps : List σ} {items left : List ι} {x : α}
    (hleft : ∀ i, i ∈ left ↔ i ∈ items ∧ ¬ erases s i) :
    Reported found erases (s :: steps) items x ↔
      (∃ i ∈ items, found s i x) ∨ Reported found erases steps left x := by
  constructor
  · rintro ⟨i, hi, n, s', hs', hfound, hkept⟩
    cases n with
    | zero =>
        rcases Option.some.inj hs' with rfl
        exact Or.inl ⟨i, hi, hfound⟩
    | succ n =>
        refine Or.inr ⟨i, (hleft i).2 ⟨hi, hkept 0 (Nat.succ_pos n) s rfl⟩, n, s', hs', hfound, ?_⟩
        intro m hm s'' hs''
        exact hkept (m + 1) (Nat.succ_lt_succ hm) s'' hs''
  · rintro (⟨i, hi, hfound⟩ | ⟨i, hi, n, s', hs', hfound, hkept⟩)
    · exact ⟨i, hi, 0, s, rfl, hfound, fun m hm => absurd hm (Nat.not_lt_zero m)⟩
    · rcases (hleft i).1 hi with ⟨hmem, hnot⟩
      refine ⟨i, hmem, n + 1, s', hs', hfound, ?_⟩
      intro m hm s'' hs''
      cases m with
      | zero =>
          rcases Option.some.inj hs'' with rfl
          exact hnot
      | succ m => exact hkept m (Nat.lt_of_succ_lt_succ hm) s'' hs''

theorem reported_cons_self {s : σ} {steps : List σ} {items : List ι} {x : α}
    (hkept : ∀ i ∈ items, ¬ erases s i) :
    Reported found erases (s :: steps) items x ↔
      (∃ i ∈ items, found s i x) ∨ Reported found erases steps items x :=
  reported_cons fun i => ⟨fun hi => ⟨hi, hkept i hi⟩, And.left⟩

/-- A run in other terms. -/
theorem reported_congr {τ : Type _} {found' : τ → ι → α → Prop} {erases' : τ → ι → Prop}
    {steps : List σ} {steps' : List τ} {g : Nat → τ → σ} {items : List ι} {x : α}
    (hget : ∀ n, steps[n]? = steps'[n]?.map (g n))
    (hsame : ∀ n t, steps'[n]? = some t → ∀ i ∈ items,
      (found (g n t) i x ↔ found' t i x) ∧ (erases (g n t) i ↔ erases' t i)) :
    Reported found erases steps items x ↔ Reported found' erases' steps' items x := by
  constructor
  · rintro ⟨i, hi, n, s, hs, hfound, hkept⟩
    rw [hget] at hs
    rcases Option.map_eq_some_iff.1 hs with ⟨t, ht, rfl⟩
    refine ⟨i, hi, n, t, ht, (hsame n t ht i hi).1.1 hfound, fun m hm t' ht' herases => ?_⟩
    refine hkept m hm (g m t') ?_ ((hsame m t' ht' i hi).2.2 herases)
    rw [hget, ht', Option.map_some]
  · rintro ⟨i, hi, n, t, ht, hfound, hkept⟩
    refine ⟨i, hi, n, g n t, ?_, (hsame n t ht i hi).1.2 hfound, fun m hm s' hs' herases => ?_⟩
    · rw [hget, ht, Option.map_some]
    · rw [hget] at hs'
      rcases Option.map_eq_some_iff.1 hs' with ⟨t', ht', rfl⟩
      exact hkept m hm t' ht' ((hsame m t' ht' i hi).2.1 herases)

/-- A run in other terms, without the steps that find nothing and erase nothing. -/
theorem reported_filterMap {τ : Type _} {found' : τ → ι → α → Prop} {erases' : τ → ι → Prop} {x : α}
    (f : σ → Option τ) (steps : List σ) :
    ∀ {items : List ι}, (∀ s ∈ steps, f s = none → ∀ i ∈ items, ¬ found s i x ∧ ¬ erases s i) →
      (∀ s ∈ steps, ∀ t, f s = some t → ∀ i ∈ items,
        (found s i x ↔ found' t i x) ∧ (erases s i ↔ erases' t i)) →
      (Reported found erases steps items x ↔ Reported found' erases' (steps.filterMap f) items x) := by
  induction steps with
  | nil => simp
  | cons s steps ih =>
      intro items hidle hsame
      rcases List.forall_mem_cons.1 hidle with ⟨hidleFirst, hidle⟩
      rcases List.forall_mem_cons.1 hsame with ⟨hsameFirst, hsame⟩
      cases hf : f s with
      | none =>
          have hnone : ¬ ∃ i ∈ items, found s i x := by
            rintro ⟨i, hi, hfound⟩
            exact (hidleFirst hf i hi).1 hfound
          rw [List.filterMap_cons_none hf, reported_cons_self fun i hi => (hidleFirst hf i hi).2,
            ih hidle hsame, or_iff_right hnone]
      | some t =>
          have hfirst := hsameFirst t hf
          classical
          let left := items.filter fun i => ¬ erases s i
          have hleft : ∀ i, i ∈ left ↔ i ∈ items ∧ ¬ erases s i := fun i => by simp [left]
          have hleft' : ∀ i, i ∈ left ↔ i ∈ items ∧ ¬ erases' t i := fun i =>
            (hleft i).trans (and_congr_right fun hi => not_congr (hfirst i hi).2)
          have hrest := ih (fun s hs hf i hi => hidle s hs hf i ((hleft i).1 hi).1)
            (fun s hs t hf i hi => hsame s hs t hf i ((hleft i).1 hi).1)
          rw [List.filterMap_cons_some hf, reported_cons hleft, reported_cons hleft', hrest]
          refine or_congr_left ⟨?_, ?_⟩
          · rintro ⟨i, hi, hfound⟩
            exact ⟨i, hi, (hfirst i hi).1.1 hfound⟩
          · rintro ⟨i, hi, hfound⟩
            exact ⟨i, hi, (hfirst i hi).1.2 hfound⟩

/-- Items for which nothing is found may be left out. -/
theorem reported_subset {steps : List σ} {items items' : List ι} {x : α}
    (hsub : ∀ i ∈ items', i ∈ items)
    (hidle : ∀ i ∈ items, i ∉ items' → ∀ s ∈ steps, ¬ found s i x) :
    Reported found erases steps items' x ↔ Reported found erases steps items x := by
  constructor
  · rintro ⟨i, hi, h⟩
    exact ⟨i, hsub i hi, h⟩
  · rintro ⟨i, hi, n, s, hs, hfound, hkept⟩
    by_cases hmem : i ∈ items'
    · exact ⟨i, hmem, n, s, hs, hfound, hkept⟩
    · exact absurd hfound (hidle i hi hmem s (List.mem_of_getElem? hs))

/-- Nothing is lost if a step that erases an item finds all that any step finds for it. -/
theorem reported_iff_of_settled {steps : List σ} {items : List ι} {x : α}
    (hsettled : ∀ i ∈ items, ∀ s ∈ steps, ∀ s' ∈ steps, erases s i → found s' i x → found s i x) :
    Reported found erases steps items x ↔ ∃ i ∈ items, ∃ s ∈ steps, found s i x := by
  constructor
  · rintro ⟨i, hi, n, s, hs, hfound, -⟩
    exact ⟨i, hi, s, List.mem_of_getElem? hs, hfound⟩
  · rintro ⟨i, hi, s, hs, hfound⟩
    rcases List.mem_iff_getElem?.1 hs with ⟨n, hn⟩
    -- the first step that finds `x` for the item
    clear hs
    induction n using Nat.strongRecOn generalizing s with
    | ind n ih =>
        by_cases hkept : ∀ m < n, ∀ s', steps[m]? = some s' → ¬ erases s' i
        · exact ⟨i, hi, n, s, hn, hfound, hkept⟩
        · push Not at hkept
          rcases hkept with ⟨m, hm, s', hs', herases⟩
          exact ih m hm s' (hsettled i hi s' (List.mem_of_getElem? hs') s (List.mem_of_getElem? hn)
            herases hfound) hs'

end CamAlias.Lib
