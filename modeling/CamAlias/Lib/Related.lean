import Mathlib.Data.List.Forall2

/-!
# Related — lists that are updated in step

Two lists of states are related entry by entry; updates at the same index by related functions keep
them so.  What exists entry by entry exists as a list.
-/

namespace CamAlias
namespace Lib

variable {α β : Type _} {R : α → β → Prop} {xs : List α} {ys : List β} {i : Nat}

/-- Replace the entry at an index; `none` where there is no entry. -/
def updateAt (xs : List α) (i : Nat) (f : α → α) : Option (List α) :=
  xs[i]?.map fun x => xs.set i (f x)

theorem related_getElem? (h : List.Forall₂ R xs ys) {x : α} (hx : xs[i]? = some x) :
    ∃ y, ys[i]? = some y ∧ R x y := by
  induction h generalizing i with
  | nil => simp at hx
  | cons hhead _ ih =>
      cases i with
      | zero => exact ⟨_, rfl, by simpa [← Option.some.inj hx] using hhead⟩
      | succ i => simpa using ih (by simpa using hx)

theorem related_set (h : List.Forall₂ R xs ys) {x : α} {y : β} (hxy : R x y) :
    List.Forall₂ R (xs.set i x) (ys.set i y) := by
  induction h generalizing i with
  | nil => exact List.Forall₂.nil
  | cons hhead hrest ih =>
      cases i with
      | zero => exact List.Forall₂.cons hxy hrest
      | succ i => exact List.Forall₂.cons hhead ih

/-- An update of one list is matched by an update of the other. -/
theorem related_updateAt (h : List.Forall₂ R xs ys) {f : α → α} {g : β → β} {xs' : List α}
    (hfg : ∀ x y, xs[i]? = some x → R x y → R (f x) (g y)) (hupdate : updateAt xs i f = some xs') :
    ∃ ys', updateAt ys i g = some ys' ∧ List.Forall₂ R xs' ys' := by
  rw [updateAt, Option.map_eq_some_iff] at hupdate
  rcases hupdate with ⟨x, hx, rfl⟩
  rcases related_getElem? h hx with ⟨y, hy, hxy⟩
  refine ⟨ys.set i (g y), ?_, related_set h (hfg x y hx hxy)⟩
  rw [updateAt, hy, Option.map_some]

/-- What exists for every two entries at one index makes up a list. -/
theorem exists_forall_getElem {γ : Type _} :
    ∀ {xs : List α} {ys : List β} {P : Nat → α → β → γ → Prop}, xs.length = ys.length →
      (∀ n (hx : n < xs.length) (hy : n < ys.length), ∃ z, P n xs[n] ys[n] z) →
      ∃ zs : List γ, zs.length = xs.length ∧
        ∀ n (hx : n < xs.length) (hy : n < ys.length) (hz : n < zs.length),
          P n xs[n] ys[n] zs[n] := by
  intro xs
  induction xs with
  | nil => exact fun _ _ => ⟨[], rfl, fun n hx => absurd hx (Nat.not_lt_zero n)⟩
  | cons x xs ih =>
      intro ys P hlength h
      cases ys with
      | nil => cases hlength
      | cons y ys =>
          rcases h 0 (Nat.succ_pos _) (Nat.succ_pos _) with ⟨z, hz⟩
          rcases ih (P := fun n => P (n + 1)) (Nat.succ.inj hlength) fun n hx hy =>
            h (n + 1) (Nat.succ_lt_succ hx) (Nat.succ_lt_succ hy) with ⟨zs, hzs, hall⟩
          refine ⟨z :: zs, congrArg Nat.succ hzs, fun n hx hy hz' => ?_⟩
          cases n with
          | zero => exact hz
          | succ n =>
              exact hall n (Nat.lt_of_succ_lt_succ hx) (Nat.lt_of_succ_lt_succ hy)
                (Nat.lt_of_succ_lt_succ hz')

end Lib
end CamAlias
