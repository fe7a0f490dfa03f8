import Mathlib.Data.List.Basic
import Mathlib.Tactic.Common

/-!
# Gap — how far apart the separators of a list are

`gap sep limit k xs` counts the elements behind the last separator, `k` of them before `xs`, and gives
up at `limit` of them in a row.  `GapTo sep limit k xs m` bounds the count at the end by one at the
beginning, so it is known of a list if it is known of its pieces.

* `GapTo.append`, `GapTo.flatMap`: pieces one behind the other;
* `GapTo.exists_separator`: `limit` consecutive elements have a separator among them.
-/

namespace CamAlias
namespace Lib

variable {α β : Type _} (sep : α → Bool) (limit : Nat)

/-- The elements behind the last separator, `none` if there were `limit` of them in a row. -/
def gap : Nat → List α → Option Nat
  | k, [] => some k
  | k, x :: xs =>
      if sep x then gap 0 xs
      else if k + 1 < limit then gap (k + 1) xs
      else none

/-- At most `k` elements behind a separator in front of `xs`, and at most `m` at its end. -/
def GapTo (k : Nat) (xs : List α) (m : Nat) : Prop :=
  ∀ j ≤ k, ∃ n ≤ m, gap sep limit j xs = some n

variable {sep limit} {k m n : Nat} {xs ys : List α}

theorem gap_append (xs ys : List α) :
    ∀ k, gap sep limit k (xs ++ ys) = (gap sep limit k xs).bind fun m => gap sep limit m ys := by
  induction xs with
  | nil => exact fun _ => rfl
  | cons x xs ih =>
      intro k
      rw [List.cons_append, gap, gap]
      split
      · exact ih 0
      · split
        · exact ih (k + 1)
        · rfl

namespace GapTo

theorem nil : GapTo sep limit k ([] : List α) k :=
  fun j hj => ⟨j, hj, rfl⟩

theorem append (h : GapTo sep limit k xs m) (h' : GapTo sep limit m ys n) :
    GapTo sep limit k (xs ++ ys) n := by
  intro j hj
  rcases h j hj with ⟨i, hi, hxs⟩
  rcases h' i hi with ⟨l, hl, hys⟩
  refine ⟨l, hl, ?_⟩
  rw [gap_append, hxs, Option.bind_some, hys]

theorem mono {k' m' : Nat} (h : GapTo sep limit k xs m) (hk : k' ≤ k) (hm : m ≤ m') :
    GapTo sep limit k' xs m' := by
  intro j hj
  rcases h j (Nat.le_trans hj hk) with ⟨i, hi, hxs⟩
  exact ⟨i, Nat.le_trans hi hm, hxs⟩

theorem separator {x : α} (hx : sep x = true) : GapTo sep limit k [x] 0 := by
  intro j _
  exact ⟨0, Nat.le_refl 0, by rw [gap, if_pos hx, gap]⟩

/-- Few elements, whatever they are. -/
theorem of_length (hlimit : k + xs.length < limit) : GapTo sep limit k xs (k + xs.length) := by
  induction xs generalizing k with
  | nil => exact nil
  | cons x xs ih =>
      rw [List.length_cons] at hlimit ⊢
      intro j hj
      rw [gap]
      split
      · rcases ih (k := 0) (by omega) 0 (Nat.le_refl 0) with ⟨i, hi, hxs⟩
        exact ⟨i, by omega, hxs⟩
      · rw [if_pos (by omega)]
        rcases ih (k := k + 1) (by omega) (j + 1) (by omega) with ⟨i, hi, hxs⟩
        exact ⟨i, by omega, hxs⟩

/-- Few elements and a separator behind them. -/
theorem before_separator {l : List α} {x : α} (hx : sep x = true) (hlimit : k + l.length < limit) :
    GapTo sep limit k (l ++ [x]) 0 :=
  (of_length hlimit).append (separator hx)

theorem flatMap {f : β → List α} {bs : List β} (h : ∀ b ∈ bs, GapTo sep limit 0 (f b) 0) :
    GapTo sep limit 0 (bs.flatMap f) 0 := by
  induction bs with
  | nil => exact nil
  | cons b bs ih =>
      rw [List.flatMap_cons]
      exact (h b List.mem_cons_self).append (ih fun c hc => h c (List.mem_cons_of_mem b hc))

/-- Without a separator the count goes on. -/
theorem gap_eq_some (hno : ∀ x ∈ xs, sep x = false) :
    ∀ {k m : Nat}, gap sep limit k xs = some m → xs = [] ∨ k + xs.length < limit := by
  induction xs with
  | nil => exact fun _ => Or.inl rfl
  | cons x xs ih =>
      intro k m h
      have hx : ¬ sep x = true := by
        rw [hno x List.mem_cons_self]
        exact Bool.false_ne_true
      rw [gap, if_neg hx] at h
      split at h
      · rename_i hlt
        rcases ih (fun y hy => hno y (List.mem_cons_of_mem x hy)) h with rfl | hle
        · exact Or.inr hlt
        · exact Or.inr (by rw [List.length_cons]; omega)
      · cases h

/-- `limit` consecutive elements. -/
theorem exists_separator (h : GapTo sep limit k xs m) (hpos : 0 < limit) {window : List α}
    (hwithin : window <:+: xs) (hlength : window.length = limit) :
    ∃ x ∈ window, sep x = true := by
  by_contra hnone
  have hno : ∀ x ∈ window, sep x = false := fun x hx =>
    Bool.eq_false_iff.2 fun hsep => hnone ⟨x, hx, hsep⟩
  rcases hwithin with ⟨before, behind, rfl⟩
  rcases h 0 (Nat.zero_le k) with ⟨n, -, hgap⟩
  rw [gap_append, gap_append] at hgap
  rcases Option.bind_eq_some_iff.1 hgap with ⟨i, hi, -⟩
  rcases Option.bind_eq_some_iff.1 hi with ⟨j, -, hwindow⟩
  rcases gap_eq_some hno hwindow with rfl | hlt
  · rw [List.length_nil] at hlength
    omega
  · omega

end GapTo
end Lib
end CamAlias
