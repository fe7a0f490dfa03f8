import Mathlib.Algebra.BigOperators.Group.List.Basic
import Mathlib.Algebra.GroupWithZero.Nat
import Mathlib.Data.List.Induction
import Mathlib.Tactic.Common

/-!
# PrefixSum — positions counted through consecutive blocks

Block `k` holds `c k` items, and the items of all blocks are numbered in order.  `before c k` is
the number of items before block `k`, and `InBlock c k j` says that item `j` lies in block `k`.

* `InBlock.unique`: an item lies in one block only;
* `inBlock_of_run`: within a run of blocks of one size the block is found by a division;
* `inBlock_of_tagged`: with the number of its block beside it, an item of a list of lists.
-/

namespace CamAlias
namespace Lib

variable {c : Nat → Nat} {k k' j m n v : Nat}

/-- The number of items before block `k`. -/
def before (c : Nat → Nat) (k : Nat) : Nat :=
  ((List.range k).map c).sum

/-- Item `j` lies in block `k`. -/
structure InBlock (c : Nat → Nat) (k j : Nat) : Prop where
  le : before c k ≤ j
  lt : j < before c (k + 1)

@[simp] theorem before_zero : before c 0 = 0 := rfl

theorem before_succ (c : Nat → Nat) (k : Nat) : before c (k + 1) = before c k + c k := by
  simp [before, List.range_succ]

theorem before_mono (h : k ≤ k') : before c k ≤ before c k' := by
  induction h with
  | refl => exact Nat.le_refl _
  | step _ ih =>
      rw [Nat.succ_eq_add_one, before_succ]
      omega

/-- A run of `m` blocks of size `v`. -/
theorem before_run (h : ∀ i < m, c (k + i) = v) : before c (k + m) = before c k + v * m := by
  induction m with
  | zero => simp
  | succ m ih =>
      have hrun := ih fun i hi => h i (by omega)
      rw [← Nat.add_assoc, before_succ, hrun, h m (by omega), Nat.mul_succ]
      omega

theorem le_before (h : k < n) : c k ≤ before c n := by
  have hmono : before c (k + 1) ≤ before c n := before_mono h
  rw [before_succ] at hmono
  omega

/-- Smaller blocks have fewer items in front. -/
theorem before_le_before {c' : Nat → Nat} (h : ∀ i < k, c i ≤ c' i) : before c k ≤ before c' k := by
  induction k with
  | zero => exact Nat.le_refl _
  | succ k ih =>
      rw [before_succ, before_succ]
      exact Nat.add_le_add (ih fun i hi => h i (Nat.lt_succ_of_lt hi)) (h k (Nat.lt_succ_self k))

/-- Blocks that are no larger, but have as many items in all, have the same sizes. -/
theorem eq_of_before_eq {c' : Nat → Nat} (h : ∀ i < n, c i ≤ c' i)
    (heq : before c n = before c' n) : ∀ i < n, c i = c' i := by
  induction n with
  | zero => exact fun i hi => absurd hi (Nat.not_lt_zero i)
  | succ n ih =>
      have hrest : ∀ i < n, c i ≤ c' i := fun i hi => h i (Nat.lt_succ_of_lt hi)
      have hle := before_le_before hrest
      have hlast := h n (Nat.lt_succ_self n)
      rw [before_succ, before_succ] at heq
      intro i hi
      rcases Nat.lt_succ_iff_lt_or_eq.1 hi with hlt | rfl
      · exact ih hrest (by omega) i hlt
      · omega

theorem InBlock.unique (h : InBlock c k j) (h' : InBlock c k' j) : k' = k := by
  rcases Nat.lt_trichotomy k' k with hlt | heq | hlt
  · have hle : before c (k' + 1) ≤ before c k := before_mono hlt
    have := h.le
    have := h'.lt
    omega
  · exact heq
  · have hle : before c (k + 1) ≤ before c k' := before_mono hlt
    have := h'.le
    have := h.lt
    omega

/-- In a run of blocks of size `v` the block of an item is found by a division. -/
theorem inBlock_of_run (h : ∀ i < m, c (k + i) = v) (hle : before c k ≤ j)
    (hlt : j < before c (k + m)) :
    (j - before c k) / v < m ∧ InBlock c (k + (j - before c k) / v) j := by
  rw [before_run h] at hlt
  have hoff : j - before c k < v * m := by omega
  have hquot : (j - before c k) / v < m := Nat.div_lt_of_lt_mul hoff
  have hv : 0 < v := Nat.pos_of_ne_zero fun hzero => by simp [hzero] at hoff
  have hdiv := Nat.div_add_mod (j - before c k) v
  have hmod := Nat.mod_lt (j - before c k) hv
  have hbase : before c (k + (j - before c k) / v)
      = before c k + v * ((j - before c k) / v) := before_run fun i hi => h i (by omega)
  refine ⟨hquot, by omega, ?_⟩
  rw [before_succ, h _ hquot]
  omega

/-! ## The block of an item -/

/-- A later item lies in the same block or in a later one. -/
theorem InBlock.mono {j' : Nat} (h : InBlock c k j) (h' : InBlock c k' j') (hle : j ≤ j') :
    k ≤ k' := by
  by_contra hlt
  have hmono : before c (k' + 1) ≤ before c k := before_mono (by omega)
  have := h.le
  have := h'.lt
  omega

/-- The block among the first `n` that holds item `j`. -/
def blockOf (c : Nat → Nat) (n j : Nat) : Nat :=
  ((List.range n).find? fun k => j < before c (k + 1)).getD 0

theorem inBlock_blockOf (h : j < before c n) :
    blockOf c n j < n ∧ InBlock c (blockOf c n j) j := by
  cases hfind : (List.range n).find? fun k => j < before c (k + 1) with
  | none =>
      cases n with
      | zero => simp at h
      | succ n =>
          have hlast := List.find?_eq_none.1 hfind n (by simp)
          simp at hlast
          omega
  | some k =>
      rcases List.find?_range_eq_some.1 hfind with ⟨hlt, hk, hfirst⟩
      rw [blockOf, hfind, Option.getD_some]
      refine ⟨List.mem_range.1 hk, ?_, by simpa using hlt⟩
      cases k with
      | zero => simp
      | succ k => simpa using hfirst k (Nat.lt_succ_self k)

theorem InBlock.blockOf_eq (h : InBlock c k j) (hk : k < n) : blockOf c n j = k := by
  have hmono : before c (k + 1) ≤ before c n := before_mono hk
  exact h.unique (inBlock_blockOf (Nat.lt_of_lt_of_le h.lt hmono)).2

/-! ## Lists of lists -/

section Tagged

variable {α : Type _}

/-- The size of a list among lists. -/
def blockSize (blocks : List (List α)) (k : Nat) : Nat :=
  (blocks[k]?.getD []).length

/-- The items of all lists in order, each with the number of its list. -/
def tagged (blocks : List (List α)) : List (Nat × α) :=
  blocks.zipIdx.flatMap fun b => b.1.map (Prod.mk b.2)

theorem tagged_append (blocks : List (List α)) (b : List α) :
    tagged (blocks ++ [b]) = tagged blocks ++ b.map (Prod.mk blocks.length) := by
  simp [tagged, List.zipIdx_append]

theorem map_snd_tagged (blocks : List (List α)) : (tagged blocks).map Prod.snd = blocks.flatten := by
  induction blocks using List.reverseRecOn with
  | nil => rfl
  | append_singleton blocks b ih =>
      rw [tagged_append, List.map_append, ih]
      simp [Function.comp_def]

/-- The items of one list. -/
theorem map_snd_filter_tagged (blocks : List (List α)) (k : Nat) :
    ((tagged blocks).filter fun x => x.1 == k).map Prod.snd = blocks[k]?.getD [] := by
  induction blocks using List.reverseRecOn with
  | nil => rfl
  | append_singleton blocks b ih =>
      have hlast : (b.map (Prod.mk blocks.length)).filter (fun x => x.1 == k)
          = if blocks.length = k then b.map (Prod.mk blocks.length) else [] := by
        by_cases hk : blocks.length = k
        · simp [hk]
        · simp [hk]
      rw [tagged_append, List.filter_append, List.map_append, ih, hlast, List.getElem?_append]
      rcases Nat.lt_trichotomy k blocks.length with hlt | rfl | hlt
      · simp [hlt, Nat.ne_of_gt hlt]
      · simp [Function.comp_def]
      · simp [Nat.not_lt_of_gt hlt, Nat.ne_of_lt hlt, Nat.sub_ne_zero_of_lt hlt]

theorem before_blockSize_append (blocks : List (List α)) (b : List α) (h : k ≤ blocks.length) :
    before (blockSize (blocks ++ [b])) k = before (blockSize blocks) k := by
  refine congrArg List.sum (List.map_congr_left ?_)
  intro i hi
  have hlt : i < blocks.length := Nat.lt_of_lt_of_le (List.mem_range.1 hi) h
  rw [blockSize, blockSize, List.getElem?_append_left hlt]

theorem length_tagged (blocks : List (List α)) :
    (tagged blocks).length = before (blockSize blocks) blocks.length := by
  induction blocks using List.reverseRecOn with
  | nil => rfl
  | append_singleton blocks b ih =>
      rw [tagged_append, List.length_append, ih, List.length_append, List.length_singleton,
        before_succ, before_blockSize_append blocks b (Nat.le_refl _)]
      simp [blockSize]

/-- Induction on the lists, from the last on. -/
theorem inBlock_of_tagged (blocks : List (List α)) {x : α} (h : (tagged blocks)[j]? = some (k, x)) :
    k < blocks.length ∧ InBlock (blockSize blocks) k j := by
  induction blocks using List.reverseRecOn with
  | nil => simp [tagged] at h
  | append_singleton blocks b ih =>
      rw [tagged_append] at h
      by_cases hlt : j < (tagged blocks).length
      · rw [List.getElem?_append_left hlt] at h
        rcases ih h with ⟨hk, hle, hj⟩
        rw [List.length_append, List.length_singleton]
        refine ⟨Nat.lt_succ_of_lt hk, ?_, ?_⟩
        · rwa [before_blockSize_append blocks b (Nat.le_of_lt hk)]
        · rwa [before_blockSize_append blocks b hk]
      · rw [List.getElem?_append_right (Nat.le_of_not_lt hlt), List.getElem?_map] at h
        rcases Option.map_eq_some_iff.1 h with ⟨y, hy, heq⟩
        rcases Prod.mk.inj heq with ⟨rfl, rfl⟩
        have hend := (List.getElem?_eq_some_iff.1 hy).1
        rw [length_tagged] at hlt hend
        rw [List.length_append, List.length_singleton]
        refine ⟨Nat.lt_succ_self _, ?_, ?_⟩
        · rw [before_blockSize_append blocks b (Nat.le_refl _)]
          exact Nat.le_of_not_lt hlt
        · rw [before_succ, before_blockSize_append blocks b (Nat.le_refl _)]
          simp only [blockSize, List.getElem?_concat_length, Option.getD_some]
          omega

end Tagged

end Lib
end CamAlias
