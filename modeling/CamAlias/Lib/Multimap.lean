import CamAlias.Lib.Occurrence
import Mathlib.Data.List.Count
import Mathlib.Data.List.Perm.Basic

/-!
# Multimap — items with keys in the order they came in

An ordered multimap is a list of items with keys; what it holds under a key is `withKey`, the oldest
item first.  Two such lists with the same items under every key have the same items
(`perm_of_withKey`).

`Distributed` buckets hold each item in the bucket of its key, so one bucket shows all that there is
under a key (`withKey_flatten`).
-/

namespace CamAlias
namespace Lib

variable {κ α : Type _} [DecidableEq κ]

/-! ## Operations -/

/-- Give the oldest item with a key another value. -/
def replaceFirst (k : κ) (x : α) : List (κ × α) → List (κ × α)
  | [] => []
  | i :: items => if i.1 = k then (k, x) :: items else i :: replaceFirst k x items

/-- Take the item out that has `n` older ones with its key. -/
def eraseOccurrence (k : κ) : Nat → List (κ × α) → List (κ × α)
  | _, [] => []
  | n, i :: items =>
      if i.1 = k then
        match n with
        | 0 => items
        | n + 1 => i :: eraseOccurrence k n items
      else i :: eraseOccurrence k n items

theorem withKey_replaceFirst (k : κ) (x : α) (items : List (κ × α)) (k' : κ) :
    withKey k' (replaceFirst k x items)
      = if k' = k then (withKey k items).set 0 x else withKey k' items := by
  induction items with
  | nil => simp [replaceFirst, withKey]
  | cons i items ih =>
      by_cases hi : i.1 = k
      · by_cases hk : k' = k
        · subst hk
          simp [replaceFirst, withKey_cons, hi]
        · simp [replaceFirst, withKey_cons, hi, hk, Ne.symm hk]
      · by_cases hk : k' = k
        · subst hk
          simpa [replaceFirst, withKey_cons, hi] using ih
        · rw [if_neg hk] at ih ⊢
          simp only [replaceFirst, if_neg hi, withKey_cons, ih]

theorem length_replaceFirst (k : κ) (x : α) (items : List (κ × α)) :
    (replaceFirst k x items).length = items.length := by
  induction items with
  | nil => rfl
  | cons i items ih =>
      simp only [replaceFirst]
      split <;> simp [ih]

theorem withKey_eraseOccurrence (k : κ) (k' : κ) (items : List (κ × α)) : ∀ n : Nat,
    withKey k' (eraseOccurrence k n items)
      = if k' = k then (withKey k items).eraseIdx n else withKey k' items := by
  induction items with
  | nil => simp [eraseOccurrence, withKey]
  | cons i items ih =>
      intro n
      by_cases hi : i.1 = k
      · cases n with
        | zero =>
            by_cases hk : k' = k
            · simp [eraseOccurrence, withKey_cons, hi, hk]
            · simp [eraseOccurrence, withKey_cons, hi, hk, Ne.symm hk]
        | succ n =>
            by_cases hk : k' = k
            · subst hk
              have hrest := ih n
              rw [if_pos rfl] at hrest ⊢
              simp [eraseOccurrence, withKey_cons, hi, hrest]
            · have hrest := ih n
              rw [if_neg hk] at hrest ⊢
              simp [eraseOccurrence, withKey_cons, hi, hrest, Ne.symm hk]
      · have hrest := ih n
        by_cases hk : k' = k
        · subst hk
          rw [if_pos rfl] at hrest ⊢
          simp [eraseOccurrence, withKey_cons, hi, hrest]
        · rw [if_neg hk] at hrest ⊢
          simp only [eraseOccurrence, if_neg hi, withKey_cons, hrest]

theorem length_eraseOccurrence (k : κ) (items : List (κ × α)) : ∀ n : Nat,
    n < (withKey k items).length → (eraseOccurrence k n items).length + 1 = items.length := by
  induction items with
  | nil =>
      intro n hn
      cases hn
  | cons i items ih =>
      intro n hn
      rw [withKey_cons] at hn
      by_cases hi : i.1 = k
      · rw [if_pos hi] at hn
        cases n with
        | zero => simp [eraseOccurrence, hi]
        | succ n => simp [eraseOccurrence, hi, ih n (Nat.lt_of_succ_lt_succ hn)]
      · rw [if_neg hi] at hn
        simp [eraseOccurrence, hi, ih n hn]

/-- What is taken out, and what is left. -/
theorem perm_eraseOccurrence (k : κ) (x : α) (items : List (κ × α)) : ∀ {n : Nat},
    (withKey k items)[n]? = some x → items.Perm ((k, x) :: eraseOccurrence k n items) := by
  induction items with
  | nil =>
      intro n hn
      simp [withKey] at hn
  | cons i items ih =>
      intro n hn
      rw [withKey_cons] at hn
      by_cases hi : i.1 = k
      · rw [if_pos hi] at hn
        cases n with
        | zero =>
            rcases Option.some.inj hn with rfl
            rcases hi with rfl
            rw [eraseOccurrence, if_pos rfl]
        | succ n =>
            simp only [eraseOccurrence, if_pos hi]
            exact ((ih (by simpa using hn)).cons i).trans (List.Perm.swap _ _ _)
      · rw [if_neg hi] at hn
        simp only [eraseOccurrence, if_neg hi]
        exact ((ih hn).cons i).trans (List.Perm.swap _ _ _)

/-- Taking an item out of a list of items by its place. -/
theorem withKey_eraseIdx (k : κ) (items : List (κ × α)) : ∀ {j : Nat} {i : κ × α},
    items[j]? = some i →
    withKey k (items.eraseIdx j)
      = if k = i.1 then (withKey i.1 items).eraseIdx (withKey i.1 (items.take j)).length
        else withKey k items := by
  induction items with
  | nil =>
      intro j i hi
      simp at hi
  | cons head items ih =>
      intro j i hi
      cases j with
      | zero =>
          rcases Option.some.inj hi with rfl
          by_cases hk : k = head.1
          · simp [hk, withKey]
          · simp [withKey_cons, hk, Ne.symm hk]
      | succ j =>
          have hrest := ih (j := j) (i := i) (by simpa using hi)
          by_cases hk : k = i.1
          · subst hk
            rw [if_pos rfl] at hrest ⊢
            by_cases hhead : head.1 = i.1
            · simp [withKey_cons, hhead, hrest]
            · simp [withKey_cons, hhead, hrest]
          · rw [if_neg hk] at hrest ⊢
            simp only [List.eraseIdx_cons_succ, withKey_cons, hrest]

/-- The place of an item among those with its key. -/
theorem getElem?_withKey (items : List (κ × α)) : ∀ {j : Nat} {i : κ × α}, items[j]? = some i →
    (withKey i.1 items)[(withKey i.1 (items.take j)).length]? = some i.2 := by
  induction items with
  | nil =>
      intro j i hi
      simp at hi
  | cons head items ih =>
      intro j i hi
      cases j with
      | zero =>
          rcases Option.some.inj hi with rfl
          simp [withKey]
      | succ j =>
          have hrest := ih (j := j) (i := i) (by simpa using hi)
          by_cases hhead : head.1 = i.1
          · simpa [withKey_cons, hhead] using hrest
          · simpa [withKey_cons, hhead] using hrest

/-- Taking the first item with a key out. -/
theorem withKey_eraseP (k k' : κ) (items : List (κ × α)) :
    withKey k' (items.eraseP fun i => i.1 = k)
      = if k' = k then (withKey k items).eraseIdx 0 else withKey k' items := by
  induction items with
  | nil => simp [withKey]
  | cons i items ih =>
      by_cases hi : i.1 = k
      · by_cases hk : k' = k
        · simp [withKey_cons, hi, hk]
        · simp [withKey_cons, hi, hk, Ne.symm hk]
      · by_cases hk : k' = k
        · subst hk
          rw [if_pos rfl] at ih ⊢
          simp [withKey_cons, hi, ih]
        · rw [if_neg hk] at ih ⊢
          rw [List.eraseP_cons_of_neg (by simpa using hi), withKey_cons, withKey_cons, ih]

theorem head?_withKey (k : κ) (items : List (κ × α)) :
    (withKey k items).head? = (items.find? fun i => i.1 = k).map Prod.snd := by
  induction items with
  | nil => rfl
  | cons i items ih =>
      by_cases hi : i.1 = k
      · simp [withKey_cons, hi]
      · simpa [withKey_cons, hi] using ih

/-! ## What is under the keys -/

theorem count_withKey [DecidableEq α] (k : κ) (x : α) (items : List (κ × α)) :
    (withKey k items).count x = items.count (k, x) := by
  induction items with
  | nil => rfl
  | cons i items ih =>
      rcases i with ⟨k', x'⟩
      rw [withKey_cons, List.count_cons, ← ih]
      by_cases hk : k' = k
      · simp [hk, List.count_cons, Prod.ext_iff]
      · simp [hk, Prod.ext_iff]

/-- The same items under every key are the same items. -/
theorem perm_of_withKey {items items' : List (κ × α)}
    (h : ∀ k, withKey k items = withKey k items') : items.Perm items' := by
  classical
  rw [List.perm_iff_count]
  rintro ⟨k, x⟩
  rw [← count_withKey, ← count_withKey, h k]

theorem withKey_eq_nil {k : κ} {items : List (κ × α)} (h : ∀ i ∈ items, i.1 ≠ k) :
    withKey k items = [] := by
  rw [withKey, List.map_eq_nil_iff, List.filter_eq_nil_iff]
  intro i hi
  simpa using h i hi

/-! ## Buckets -/

/-- Every item is in the bucket of its key. -/
def Distributed (position : κ → Nat) (buckets : List (List (κ × α))) : Prop :=
  ∀ (i : Nat) (bucket : List (κ × α)), buckets[i]? = some bucket → ∀ x ∈ bucket, position x.1 = i

/-- What all buckets have under a key is what its bucket has. -/
theorem withKey_flatten {position : κ → Nat} {buckets : List (List (κ × α))}
    (h : Distributed position buckets) {k : κ} {bucket : List (κ × α)}
    (hbucket : buckets[position k]? = some bucket) :
    withKey k buckets.flatten = withKey k bucket := by
  rcases List.getElem?_eq_some_iff.1 hbucket with ⟨hlt, hget⟩
  have hsplit : buckets = buckets.take (position k) ++ bucket :: buckets.drop (position k + 1) := by
    rw [← hget, List.getElem_cons_drop, List.take_append_drop]
  have hnone : ∀ i b, buckets[i]? = some b → i ≠ position k → ∀ x ∈ b, x.1 ≠ k := by
    rintro i b hb hi x hx rfl
    exact hi (h i b hb x hx).symm
  have hbefore : withKey k (buckets.take (position k)).flatten = [] := by
    refine withKey_eq_nil fun x hx => ?_
    rcases List.mem_flatten.1 hx with ⟨b, hb, hx⟩
    rcases List.mem_iff_getElem?.1 hb with ⟨i, hi⟩
    rw [List.getElem?_take] at hi
    split at hi
    · rename_i hlt'
      exact hnone i b hi (Nat.ne_of_lt hlt') x hx
    · cases hi
  have hbehind : withKey k (buckets.drop (position k + 1)).flatten = [] := by
    refine withKey_eq_nil fun x hx => ?_
    rcases List.mem_flatten.1 hx with ⟨b, hb, hx⟩
    rcases List.mem_iff_getElem?.1 hb with ⟨i, hi⟩
    rw [List.getElem?_drop] at hi
    exact hnone _ b hi (by omega) x hx
  rw [hsplit, List.flatten_append, List.flatten_cons, withKey_append, withKey_append, hbefore,
    hbehind, List.nil_append, List.append_nil]

end Lib
end CamAlias
