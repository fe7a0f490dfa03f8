import Mathlib.Algebra.GroupWithZero.Nat
import Mathlib.Data.List.Basic
import Mathlib.Order.Lattice
import Mathlib.Order.Nat
import Mathlib.Tactic.Common

/-!
# IntervalTree — the tree of intervals and its recursive search

`IntervalTree.h` of the analyser.  A node holds the intervals around its center; those that end
before the center are in its left subtree, those that start behind it in its right one.  The key
type is a parameter, as in the source; it only has to be ordered and to have a 0.

`std::sort` is not stable, so the sort is a parameter: any function that returns its argument in
the order of the starts.

- `new_eq_some_iff`, `valid_new`: when the constructor returns, and what;
- `findOverlapping_eq`: the search returns exactly the overlapping intervals.
-/

namespace CamAlias

structure Interval (K T : Type) where
  start : K
  stop : K
  value : T

/-- `sort(ivals.begin(), ivals.end(), intervalStartSorter)`. -/
structure StartSort (K T : Type) [LinearOrder K] where
  sort : List (Interval K T) → List (Interval K T)
  perm : ∀ ivals, (sort ivals).Perm ivals
  sorted : ∀ ivals, (sort ivals).Pairwise fun i j => i.start ≤ j.start

/-- `null` is the null pointer. -/
inductive IntervalTree (K T : Type)
  | null
  | node (intervals : List (Interval K T)) (center maxstop : K) (left right : IntervalTree K T)

namespace IntervalTree

variable {K T : Type} [LinearOrder K]

section Construction

variable [Zero K]

/-! ## Construction -/

/-- `*max_element(stops.begin(), stops.end())` for the intervals `first :: rest`. -/
def maxElement (first : Interval K T) (rest : List (Interval K T)) : K :=
  rest.foldl (fun m i => max m i.stop) first.stop

/-- A node without children.  Its `center` is not initialised, and is not read. -/
def leaf (ivals : List (Interval K T)) : IntervalTree K T :=
  let maxstop := match ivals with
    | [] => 0
    | first :: rest => maxElement first rest
  .node ivals 0 maxstop .null .null

/-- The constructor after `--depth`; `none` where it reads the front of an empty vector. -/
def build (sorter : StartSort K T) (minbucket maxbucket : Nat) (depth : Nat)
    (ivals : List (Interval K T)) (leftextent rightextent : K) : Option (IntervalTree K T) :=
  -- the subtrees, which are given extents, get what is sorted already
  let ivals := if leftextent = 0 ∧ rightextent = 0 then sorter.sort ivals else ivals
  match depth with
  | 0 => some (leaf ivals)
  | depth + 1 =>
      if ivals.length < minbucket ∧ ivals.length < maxbucket then some (leaf ivals)
      else
        match ivals with
        -- `ivals.front()`
        | [] => none
        | first :: rest =>
            let leftp := if leftextent ≠ 0 ∨ rightextent ≠ 0 then leftextent else first.start
            let rightp :=
              if leftextent ≠ 0 ∨ rightextent ≠ 0 then rightextent else maxElement first rest
            let center := ((first :: rest).getD ((first :: rest).length / 2) first).start
            let lefts := (first :: rest).filter fun i => i.stop < center
            let rights := (first :: rest).filter fun i => ¬ i.stop < center ∧ center < i.start
            let here := (first :: rest).filter fun i => ¬ i.stop < center ∧ ¬ center < i.start
            let maxstop := here.foldl (fun m i => if m < i.stop then i.stop else m) 0
            let left :=
              if lefts.isEmpty then some .null
              else build sorter minbucket maxbucket depth lefts leftp center
            let right :=
              if rights.isEmpty then some .null
              else build sorter minbucket maxbucket depth rights center rightp
            match left, right with
            | some left, some right => some (.node here center maxstop left right)
            | _, _ => none

/-- `IntervalTree(ivals, depth, minbucket, 0, 0, maxbucket)`; `--depth` wraps around. -/
def new (sorter : StartSort K T) (ivals : List (Interval K T)) (depth : UInt32)
    (minbucket maxbucket : Nat) : Option (IntervalTree K T) :=
  build sorter minbucket maxbucket (depth - 1).toNat ivals 0 0

end Construction

/-! ## Search -/

/-- The condition of both searches. -/
def overlaps (start stop : K) (i : Interval K T) : Bool :=
  start ≤ i.stop ∧ i.start ≤ stop

/-- `!intervals.empty() && !(stop < intervals.front().start)`. -/
def mayOverlap (stop : K) : List (Interval K T) → Bool
  | [] => false
  | front :: _ => ¬ stop < front.start

/-- `findOverlapping`. -/
def findOverlapping (start stop : K) : IntervalTree K T → List (Interval K T)
  | .null => []
  | .node intervals center _ left right =>
      (if mayOverlap stop intervals then intervals.filter (overlaps start stop) else []) ++
        ((if start ≤ center then left.findOverlapping start stop else []) ++
          (if center ≤ stop then right.findOverlapping start stop else []))

/-! ## What the constructor builds -/

/-- The stored intervals. -/
def contents : IntervalTree K T → List (Interval K T)
  | .null => []
  | .node intervals _ _ left right => intervals ++ (left.contents ++ right.contents)

/-- In every node the intervals are sorted and end at the latest at `maxstop`, and the children
lie on their side of the center. -/
def Valid : IntervalTree K T → Prop
  | .null => True
  | .node intervals center maxstop left right =>
      intervals.Pairwise (fun i j => i.start ≤ j.start) ∧
      (∀ i ∈ intervals, i.stop ≤ maxstop) ∧
      (∀ i ∈ left.contents, i.stop < center) ∧ (∀ i ∈ right.contents, center < i.start) ∧
      left.Valid ∧ right.Valid

theorem le_foldl_max (ivals : List (Interval K T)) (m : K) :
    m ≤ ivals.foldl (fun m i => max m i.stop) m ∧
      ∀ i ∈ ivals, i.stop ≤ ivals.foldl (fun m i => max m i.stop) m := by
  induction ivals generalizing m with
  | nil => exact ⟨le_refl m, by simp⟩
  | cons i ivals ih =>
      rcases ih (max m i.stop) with ⟨hm, hivals⟩
      rw [List.foldl_cons]
      refine ⟨le_trans (le_max_left _ _) hm, ?_⟩
      intro j hj
      rcases List.mem_cons.1 hj with rfl | hj
      · exact le_trans (le_max_right _ _) hm
      · exact hivals j hj

/-- The fold that `maxstop` is computed with. -/
theorem le_foldl_maxstop (ivals : List (Interval K T)) (m : K) :
    m ≤ ivals.foldl (fun m i => if m < i.stop then i.stop else m) m ∧
      ∀ i ∈ ivals, i.stop ≤ ivals.foldl (fun m i => if m < i.stop then i.stop else m) m := by
  have hmax : (fun (m : K) (i : Interval K T) => if m < i.stop then i.stop else m)
      = fun m i => max m i.stop := by
    funext m i
    exact (max_def_lt m i.stop).symm
  rw [hmax]
  exact le_foldl_max ivals m

/-- The three vectors that the constructor fills from one. -/
theorem perm_filter_sides {α : Type} (p q : α → Prop) [DecidablePred p] [DecidablePred q]
    (ivals : List α) :
    (ivals.filter (fun i => ¬ p i ∧ ¬ q i) ++
      (ivals.filter (fun i => p i) ++ ivals.filter (fun i => ¬ p i ∧ q i))).Perm ivals := by
  have hrest : (ivals.filter (fun i => ¬ p i ∧ q i) ++
      ivals.filter (fun i => ¬ p i ∧ ¬ q i)).Perm (ivals.filter fun i => !decide (p i)) := by
    have h := List.filter_append_perm (fun i => decide (q i)) (ivals.filter fun i => !decide (p i))
    simpa only [List.filter_filter, Bool.decide_and, decide_not, Bool.and_comm] using h
  have hall := (hrest.append_left (ivals.filter fun i => p i)).trans
    (List.filter_append_perm (fun i => decide (p i)) ivals)
  rw [← List.append_assoc] at hall
  exact List.perm_append_comm.trans hall

section Constructor

variable [Zero K]

theorem valid_leaf {ivals : List (Interval K T)}
    (h : ivals.Pairwise fun i j => i.start ≤ j.start) : (leaf ivals).Valid := by
  refine ⟨h, ?_, by simp [contents], by simp [contents], trivial, trivial⟩
  intro i hi
  cases ivals with
  | nil => simp at hi
  | cons first rest =>
      rcases le_foldl_max rest first.stop with ⟨hfirst, hrest⟩
      rcases List.mem_cons.1 hi with rfl | hi
      · exact hfirst
      · exact hrest i hi

/-- The vector that the constructor works on is sorted, whether it was sorted before or not. -/
theorem sorted_ivals (sorter : StartSort K T) {ivals : List (Interval K T)}
    {leftextent rightextent : K}
    (h : leftextent = 0 ∧ rightextent = 0 ∨ ivals.Pairwise fun i j => i.start ≤ j.start) :
    ∃ sorted, (if leftextent = 0 ∧ rightextent = 0 then sorter.sort ivals else ivals) = sorted ∧
      sorted.Perm ivals ∧ sorted.Pairwise fun i j => i.start ≤ j.start := by
  by_cases hzero : leftextent = 0 ∧ rightextent = 0
  · exact ⟨_, if_pos hzero, sorter.perm ivals, sorter.sorted ivals⟩
  · exact ⟨_, if_neg hzero, List.Perm.refl _, h.resolve_left hzero⟩

/-- A node whose children are valid and hold what lies on either side of the center. -/
theorem valid_node {ivals : List (Interval K T)} {center : K} {left right : IntervalTree K T}
    (hsorted : ivals.Pairwise fun i j => i.start ≤ j.start)
    (hleft : left.Valid ∧ left.contents.Perm (ivals.filter fun i => i.stop < center))
    (hright : right.Valid ∧
      right.contents.Perm (ivals.filter fun i => ¬ i.stop < center ∧ center < i.start)) :
    let here := ivals.filter fun i => ¬ i.stop < center ∧ ¬ center < i.start
    let tree := IntervalTree.node here center
      (here.foldl (fun m i => if m < i.stop then i.stop else m) 0) left right
    tree.Valid ∧ tree.contents.Perm ivals := by
  intro here tree
  refine ⟨⟨hsorted.filter _, (le_foldl_maxstop here 0).2, ?_, ?_, hleft.1, hright.1⟩, ?_⟩
  · intro i hi
    have hmem := hleft.2.mem_iff.1 hi
    simpa using (List.mem_filter.1 hmem).2
  · intro i hi
    have hmem := hright.2.mem_iff.1 hi
    have hside : ¬ i.stop < center ∧ center < i.start := by
      simpa using (List.mem_filter.1 hmem).2
    exact hside.2
  · exact ((hleft.2.append hright.2).append_left here).trans (perm_filter_sides _ _ ivals)

/-- Every tree that the constructor returns is valid and holds the given intervals: induction on
the depth, the vectors stay sorted on the way down. -/
theorem valid_build (sorter : StartSort K T) (minbucket maxbucket : Nat) (depth : Nat) :
    ∀ (ivals : List (Interval K T)) (leftextent rightextent : K) (tree : IntervalTree K T),
      (leftextent = 0 ∧ rightextent = 0 ∨ ivals.Pairwise fun i j => i.start ≤ j.start) →
      build sorter minbucket maxbucket depth ivals leftextent rightextent = some tree →
      tree.Valid ∧ tree.contents.Perm ivals := by
  induction depth with
  | zero =>
      intro ivals leftextent rightextent tree hsorted hbuild
      rcases sorted_ivals sorter hsorted with ⟨sorted, hivals, hperm, hpairwise⟩
      simp only [build, hivals, Option.some.injEq] at hbuild
      subst hbuild
      exact ⟨valid_leaf hpairwise, by simpa [leaf, contents] using hperm⟩
  | succ depth ih =>
      intro ivals leftextent rightextent tree hsorted hbuild
      rcases sorted_ivals sorter hsorted with ⟨sorted, hivals, hperm, hpairwise⟩
      -- a child is empty or built from a vector that is sorted
      have hchild : ∀ (part : List (Interval K T)) (l r : K) (child : IntervalTree K T),
          (part.Pairwise fun i j => i.start ≤ j.start) →
          (if part.isEmpty then some .null
            else build sorter minbucket maxbucket depth part l r) = some child →
          child.Valid ∧ child.contents.Perm part := by
        intro part l r child hpart hbuilt
        by_cases hempty : part = []
        · subst hempty
          cases hbuilt
          exact ⟨trivial, List.Perm.refl _⟩
        · rw [if_neg (by simpa using hempty)] at hbuilt
          exact ih part l r child (Or.inr hpart) hbuilt
      simp only [build, hivals] at hbuild
      split at hbuild
      · cases hbuild
        exact ⟨valid_leaf hpairwise, by simpa [leaf, contents] using hperm⟩
      · split at hbuild
        · cases hbuild
        · split at hbuild
          · rename_i left right hleft hright
            cases hbuild
            have hnode := valid_node hpairwise
              (hchild _ _ _ left (hpairwise.filter _) hleft)
              (hchild _ _ _ right (hpairwise.filter _) hright)
            exact ⟨hnode.1, hnode.2.trans hperm⟩
          · cases hbuild

/-- The constructor returns unless it comes to the division of an empty vector: the children get
vectors that are not empty. -/
theorem isSome_build (sorter : StartSort K T) (minbucket maxbucket : Nat) (depth : Nat) :
    ∀ (ivals : List (Interval K T)) (leftextent rightextent : K),
      (build sorter minbucket maxbucket depth ivals leftextent rightextent).isSome = true ↔
        ivals ≠ [] ∨ depth = 0 ∨ 0 < minbucket ∧ 0 < maxbucket := by
  induction depth with
  | zero =>
      intro ivals leftextent rightextent
      simp [build]
  | succ depth ih =>
      intro ivals leftextent rightextent
      have hperm : (if leftextent = 0 ∧ rightextent = 0 then sorter.sort ivals else ivals).Perm
          ivals := by
        split
        · exact sorter.perm ivals
        · exact List.Perm.refl _
      have hchild : ∀ (part : List (Interval K T)) (l r : K),
          ∃ child, (if part.isEmpty then some .null
            else build sorter minbucket maxbucket depth part l r) = some child := by
        intro part l r
        by_cases hempty : part = []
        · exact ⟨.null, by rw [if_pos (by simpa using hempty)]⟩
        · rw [if_neg (by simpa using hempty)]
          exact Option.isSome_iff_exists.1 ((ih part l r).2 (Or.inl hempty))
      simp only [build]
      generalize (if leftextent = 0 ∧ rightextent = 0 then sorter.sort ivals else ivals) = sorted
        at hperm
      by_cases hsmall : sorted.length < minbucket ∧ sorted.length < maxbucket
      · rw [if_pos hsmall]
        simp only [Option.isSome_some, true_iff]
        exact Or.inr (Or.inr ⟨by omega, by omega⟩)
      · rw [if_neg hsmall]
        cases sorted with
        | nil =>
            have hnil : ivals = [] := hperm.symm.eq_nil
            simp only [List.length_nil] at hsmall
            simp [hnil, hsmall]
        | cons first rest =>
            have hne : ivals ≠ [] := by
              rintro rfl
              exact List.cons_ne_nil _ _ hperm.eq_nil
            simp only []
            rcases hchild _ _ _ with ⟨left, hleft⟩
            rcases hchild _ _ _ with ⟨right, hright⟩
            rw [hleft, hright]
            simp [hne]

theorem new_eq_some_iff (sorter : StartSort K T) (ivals : List (Interval K T)) (depth : UInt32)
    (minbucket maxbucket : Nat) :
    (∃ tree, new sorter ivals depth minbucket maxbucket = some tree) ↔
      ivals ≠ [] ∨ depth = 1 ∨ 0 < minbucket ∧ 0 < maxbucket := by
  have hdepth : (depth - 1).toNat = 0 ↔ depth = 1 := by
    rw [← UInt32.toNat_zero, UInt32.toNat_inj]
    constructor
    · intro h
      calc depth = depth - 1 + 1 := (UInt32.sub_add_cancel depth 1).symm
        _ = 1 := by rw [h]; rfl
    · rintro rfl
      rfl
  rw [← Option.isSome_iff_exists, new, isSome_build, hdepth]

theorem valid_new {sorter : StartSort K T} {ivals : List (Interval K T)} {depth : UInt32}
    {minbucket maxbucket : Nat} {tree : IntervalTree K T}
    (h : new sorter ivals depth minbucket maxbucket = some tree) :
    tree.Valid ∧ tree.contents.Perm ivals :=
  valid_build sorter minbucket maxbucket _ ivals 0 0 tree (Or.inl ⟨rfl, rfl⟩) h

end Constructor

/-! ## What the search finds -/

theorem filter_overlaps_eq_nil {start stop : K} {ivals : List (Interval K T)}
    (h : ∀ i ∈ ivals, i.stop < start ∨ stop < i.start) :
    ivals.filter (overlaps start stop) = [] := by
  rw [List.filter_eq_nil_iff]
  intro i hi
  simp only [overlaps, decide_eq_true_eq, not_and_or, not_le]
  exact h i hi

/-- The front has the smallest start. -/
theorem lt_start_of_mayOverlap {stop : K} {intervals : List (Interval K T)}
    (hsorted : intervals.Pairwise fun i j => i.start ≤ j.start)
    (h : mayOverlap stop intervals = false) : ∀ i ∈ intervals, stop < i.start := by
  cases intervals with
  | nil => simp
  | cons front rest =>
      have hfront : stop < front.start := by simpa [mayOverlap] using h
      intro i hi
      rcases List.mem_cons.1 hi with rfl | hi
      · exact hfront
      · exact lt_of_lt_of_le hfront ((List.pairwise_cons.1 hsorted).1 i hi)

/-- The search finds exactly the overlapping intervals, in the order in which they are stored. -/
theorem findOverlapping_eq {tree : IntervalTree K T} (h : tree.Valid) (start stop : K) :
    tree.findOverlapping start stop = tree.contents.filter (overlaps start stop) := by
  induction tree with
  | null => rfl
  | node intervals center maxstop left right ihleft ihright =>
      rcases h with ⟨hsorted, -, hlefts, hrights, hleft, hright⟩
      rw [findOverlapping, contents, List.filter_append, List.filter_append]
      have hhere : (if mayOverlap stop intervals then intervals.filter (overlaps start stop)
          else []) = intervals.filter (overlaps start stop) := by
        split
        · rfl
        · rename_i hmay
          refine (filter_overlaps_eq_nil fun i hi => Or.inr ?_).symm
          exact lt_start_of_mayOverlap hsorted (by simpa using hmay) i hi
      have hleft' : (if start ≤ center then left.findOverlapping start stop else [])
          = left.contents.filter (overlaps start stop) := by
        split
        · exact ihleft hleft
        · rename_i hcenter
          refine (filter_overlaps_eq_nil fun i hi => Or.inl ?_).symm
          exact lt_trans (hlefts i hi) (not_le.1 hcenter)
      have hright' : (if center ≤ stop then right.findOverlapping start stop else [])
          = right.contents.filter (overlaps start stop) := by
        split
        · exact ihright hright
        · rename_i hcenter
          refine (filter_overlaps_eq_nil fun i hi => Or.inr ?_).symm
          exact lt_trans (not_le.1 hcenter) (hrights i hi)
      rw [hhere, hleft', hright']

end IntervalTree
end CamAlias
