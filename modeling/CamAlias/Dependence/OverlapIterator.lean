import CamAlias.Dependence.IntervalTree

/-!
# OverlapIterator — the search as an iterator

`overlapIteratorNext` goes from one overlapping interval to the next without a stack: an iterator
is a pointer to a node and a position in its vector, and the way back leads over the parent
pointers.  A node pointer is a subtree here, with the parents above it; each of them is a node
with one child left open.

- `overlapIteratorNext_emits`: one call gives the first of what is left, and leaves the rest;
- `findOverlappingWithIterator_iff`: the loop over the iterator terminates with the result of
  `findOverlapping`, on every tree that the constructor returns.
-/

namespace CamAlias

namespace IntervalTree

variable {K T : Type} [LinearOrder K]

/-! ## Node pointers -/

def isNull : IntervalTree K T → Bool
  | .null => true
  | .node _ _ _ _ _ => false

/-- A parent of a node: the node is its left child or its right child, the other child is kept. -/
inductive Parent (K T : Type)
  | ofLeft (intervals : List (Interval K T)) (center maxstop : K) (right : IntervalTree K T)
  | ofRight (intervals : List (Interval K T)) (center maxstop : K) (left : IntervalTree K T)

/-- `OverlapIterator`: the node with the parents above it, nearest first, and the position in the
node's vector.  The end iterator is `none`. -/
structure OverlapIterator (K T : Type) where
  node : IntervalTree K T
  parents : List (Parent K T)
  position : Nat

/-- `*oiter.second`. -/
def OverlapIterator.interval? (oiter : OverlapIterator K T) : Option (Interval K T) :=
  match oiter.node with
  | .null => none
  | .node intervals _ _ _ _ => intervals[oiter.position]?

/-- The loop at the end of `overlapIteratorNext`: up to the first parent that is entered from the
left and whose right child is to be searched, and from there to that child. -/
def climb (stop : K) : IntervalTree K T → List (Parent K T) →
    Option (IntervalTree K T × List (Parent K T))
  | _, [] => none
  | current, .ofLeft intervals center maxstop right :: parents =>
      if right.isNull = false ∧ center ≤ stop then
        some (right, .ofRight intervals center maxstop current :: parents)
      else climb stop (.node intervals center maxstop current right) parents
  | current, .ofRight intervals center maxstop left :: parents =>
      climb stop (.node intervals center maxstop left current) parents

/-! ## The successor -/

/-- `while(oiter.second != node->intervals.end())`: the first overlapping interval from a position
on. -/
def nextPosition (start stop : K) (intervals : List (Interval K T)) (position : Nat) : Option Nat :=
  ((intervals.drop position).findIdx? (overlaps start stop)).map (position + ·)

/-- The part of `overlapIteratorNext` that stays in the node. -/
def searchNode (start stop maxstop : K) (intervals : List (Interval K T)) (position : Nat)
    (checkCurrent : Bool) : Option Nat :=
  if mayOverlap stop intervals ∧ ¬ maxstop < start then
    nextPosition start stop intervals (if checkCurrent then position else position + 1)
  else none

/-- The number of nodes. -/
def size : IntervalTree K T → Nat
  | .null => 0
  | .node _ _ _ left right => left.size + right.size + 1

/-- The nodes that can still be entered from below. -/
def sizeAbove : List (Parent K T) → Nat
  | [] => 0
  | .ofLeft _ _ _ right :: parents => right.size + sizeAbove parents
  | .ofRight _ _ _ _ :: parents => sizeAbove parents

theorem climb_size {stop : K} {parents : List (Parent K T)} :
    ∀ {current sibling : IntervalTree K T} {parents' : List (Parent K T)},
      climb stop current parents = some (sibling, parents') →
      sibling.size + sizeAbove parents' ≤ sizeAbove parents := by
  induction parents with
  | nil =>
      intro current sibling parents' h
      cases h
  | cons parent parents ih =>
      intro current sibling parents' h
      cases parent with
      | ofLeft intervals center maxstop right =>
          rw [climb] at h
          split at h
          · cases h
            simp [sizeAbove]
          · have := ih h
            simp only [sizeAbove]
            omega
      | ofRight intervals center maxstop left => exact ih h

/-- `overlapIteratorNext`.  Every recursive call enters a node for the first time. -/
def overlapIteratorNext (start stop : K) (current : IntervalTree K T)
    (parents : List (Parent K T)) (position : Nat) (checkCurrent : Bool) :
    Option (OverlapIterator K T) :=
  match current with
  | .null => none
  | .node intervals center maxstop left right =>
      match searchNode start stop maxstop intervals position checkCurrent with
      | some position =>
          some { node := .node intervals center maxstop left right, parents, position }
      -- this node is done: its left subtree, its right one, or up
      | none =>
          if left.isNull = false ∧ start ≤ center then
            overlapIteratorNext start stop left
              (.ofLeft intervals center maxstop right :: parents) 0 true
          else if right.isNull = false ∧ center ≤ stop then
            overlapIteratorNext start stop right
              (.ofRight intervals center maxstop left :: parents) 0 true
          else
            match _hclimb : climb stop (.node intervals center maxstop left right) parents with
            | none => none
            | some (sibling, parents') =>
                overlapIteratorNext start stop sibling parents' 0 true
termination_by current.size + sizeAbove parents
decreasing_by
  · simp only [size, sizeAbove]
    omega
  · simp only [size, sizeAbove]
    omega
  · have := climb_size _hclimb
    simp only [size]
    omega

/-- `overlapIteratorBegin`. -/
def overlapIteratorBegin (tree : IntervalTree K T) (start stop : K) :
    Option (OverlapIterator K T) :=
  overlapIteratorNext start stop tree [] 0 true

/-- The loop of `findOverlappingWithIterator`; `none` when the rounds do not suffice. -/
def collect (start stop : K) : Nat → Option (OverlapIterator K T) → Option (List (Interval K T))
  | _, none => some []
  | 0, some _ => none
  | rounds + 1, some oiter =>
      match oiter.interval? with
      | none => none
      | some i =>
          (collect start stop rounds (overlapIteratorNext start stop oiter.node oiter.parents
            oiter.position false)).map (i :: ·)

/-- `findOverlappingWithIterator`. -/
def findOverlappingWithIterator (tree : IntervalTree K T) (rounds : Nat) (start stop : K) :
    Option (List (Interval K T)) :=
  collect start stop rounds (tree.overlapIteratorBegin start stop)

/-! ## What is left -/

/-- What the search returns from a position of a node on. -/
def foundFrom (start stop : K) (position : Nat) : IntervalTree K T → List (Interval K T)
  | .null => []
  | .node intervals center _ left right =>
      (intervals.drop position).filter (overlaps start stop) ++
        ((if start ≤ center then left.findOverlapping start stop else []) ++
          (if center ≤ stop then right.findOverlapping start stop else []))

/-- What the search returns after it comes back to the parents. -/
def foundAbove (start stop : K) : List (Parent K T) → List (Interval K T)
  | [] => []
  | .ofLeft _ center _ right :: parents =>
      (if center ≤ stop then right.findOverlapping start stop else []) ++
        foundAbove start stop parents
  | .ofRight _ _ _ _ :: parents => foundAbove start stop parents

/-- The children that can still be entered are valid. -/
def ValidAbove : List (Parent K T) → Prop
  | [] => True
  | .ofLeft _ _ _ right :: parents => right.Valid ∧ ValidAbove parents
  | .ofRight _ _ _ _ :: parents => ValidAbove parents

theorem foundFrom_zero {tree : IntervalTree K T} (h : tree.Valid) (start stop : K) :
    tree.foundFrom start stop 0 = tree.findOverlapping start stop := by
  cases tree with
  | null => rfl
  | node intervals center maxstop left right =>
      rw [foundFrom, findOverlapping, List.drop_zero]
      by_cases hmay : mayOverlap stop intervals = true
      · rw [if_pos hmay]
      · rw [if_neg hmay, filter_overlaps_eq_nil fun i hi =>
          Or.inr (lt_start_of_mayOverlap h.1 (by simpa using hmay) i hi)]

/-- The iterator `oiter` stands at the first of the intervals `found`. -/
def Emits (start stop : K) (found : List (Interval K T)) : Option (OverlapIterator K T) → Prop
  | none => found = []
  | some oiter =>
      oiter.node.Valid ∧ ValidAbove oiter.parents ∧
        ∃ i, oiter.interval? = some i ∧
          found = i :: (oiter.node.foundFrom start stop (oiter.position + 1) ++
            foundAbove start stop oiter.parents)

theorem filter_of_findIdx? {α : Type} {p : α → Bool} {xs : List α} {k : Nat}
    (h : xs.findIdx? p = some k) :
    ∃ x, xs[k]? = some x ∧ xs.filter p = x :: (xs.drop (k + 1)).filter p := by
  induction xs generalizing k with
  | nil => simp at h
  | cons x xs ih =>
      rw [List.findIdx?_cons] at h
      by_cases hx : p x = true
      · rw [if_pos hx] at h
        cases h
        exact ⟨x, rfl, by simp [hx]⟩
      · rw [if_neg hx] at h
        rcases Option.map_eq_some_iff.1 h with ⟨j, hj, rfl⟩
        rcases ih hj with ⟨y, hy, hfilter⟩
        exact ⟨y, by simpa using hy, by simpa [hx] using hfilter⟩

/-- The search in a vector stops at the first overlapping interval. -/
theorem nextPosition_spec (start stop : K) (intervals : List (Interval K T)) (position : Nat) :
    match nextPosition start stop intervals position with
    | none => (intervals.drop position).filter (overlaps start stop) = []
    | some position' =>
        ∃ i, intervals[position']? = some i ∧
          (intervals.drop position).filter (overlaps start stop)
            = i :: (intervals.drop (position' + 1)).filter (overlaps start stop) := by
  cases hfind : (intervals.drop position).findIdx? (overlaps start stop) with
  | none =>
      have hnone := List.findIdx?_eq_none_iff.1 hfind
      simp only [nextPosition, hfind, Option.map_none, List.filter_eq_nil_iff]
      intro i hi
      simp [hnone i hi]
  | some offset =>
      simp only [nextPosition, hfind, Option.map_some]
      rcases filter_of_findIdx? hfind with ⟨i, hi, hfilter⟩
      rw [List.getElem?_drop] at hi
      rw [List.drop_drop, ← Nat.add_assoc] at hfilter
      exact ⟨i, hi, hfilter⟩

/-- The same for a whole node: what is skipped because of `maxstop` or of the front does not
overlap. -/
theorem searchNode_spec (start stop : K) {maxstop : K} {intervals : List (Interval K T)}
    (hsorted : intervals.Pairwise fun i j => i.start ≤ j.start)
    (hmaxstop : ∀ i ∈ intervals, i.stop ≤ maxstop) (position : Nat) (checkCurrent : Bool) :
    match searchNode start stop maxstop intervals position checkCurrent with
    | none =>
        (intervals.drop (if checkCurrent then position else position + 1)).filter
          (overlaps start stop) = []
    | some position' =>
        ∃ i, intervals[position']? = some i ∧
          (intervals.drop (if checkCurrent then position else position + 1)).filter
              (overlaps start stop)
            = i :: (intervals.drop (position' + 1)).filter (overlaps start stop) := by
  by_cases hmay : mayOverlap stop intervals = true ∧ ¬ maxstop < start
  · rw [searchNode, if_pos hmay]
    exact nextPosition_spec start stop intervals _
  · rw [searchNode, if_neg hmay]
    refine filter_overlaps_eq_nil fun i hi => ?_
    have hmem : i ∈ intervals := List.mem_of_mem_drop hi
    by_cases hfront : mayOverlap stop intervals = true
    · have hlt : maxstop < start := by
        by_contra hge
        exact hmay ⟨hfront, hge⟩
      exact Or.inl (lt_of_le_of_lt (hmaxstop i hmem) hlt)
    · exact Or.inr (lt_start_of_mayOverlap hsorted (by simpa using hfront) i hmem)

/-- A child that is not entered has nothing to find. -/
theorem found_of_not_entered {start stop : K} {child : IntervalTree K T} {side : Prop}
    [Decidable side] (h : ¬ (child.isNull = false ∧ side)) :
    (if side then child.findOverlapping start stop else []) = [] := by
  cases child with
  | null => simp [findOverlapping]
  | node _ _ _ _ _ => exact if_neg fun hside => h ⟨rfl, hside⟩

/-- The parents hand the search on to the first child that can still be entered. -/
theorem climb_spec (start stop : K) (parents : List (Parent K T)) :
    ∀ current : IntervalTree K T, ValidAbove parents →
      match climb stop current parents with
      | none => foundAbove start stop parents = []
      | some (sibling, parents') =>
          sibling.isNull = false ∧ sibling.Valid ∧ ValidAbove parents' ∧
            foundAbove start stop parents
              = sibling.findOverlapping start stop ++ foundAbove start stop parents' := by
  induction parents with
  | nil =>
      intro current _
      rfl
  | cons parent parents ih =>
      intro current hvalid
      cases parent with
      | ofLeft intervals center maxstop right =>
          by_cases henter : right.isNull = false ∧ center ≤ stop
          · simp only [climb, if_pos henter]
            exact ⟨henter.1, hvalid.1, hvalid.2, by rw [foundAbove, if_pos henter.2, foundAbove]⟩
          · simp only [climb, if_neg henter, foundAbove, found_of_not_entered henter,
              List.nil_append]
            exact ih _ hvalid.2
      | ofRight intervals center maxstop left =>
          simp only [climb, foundAbove]
          exact ih _ hvalid

/-- One call of `overlapIteratorNext`: it stops at the first interval that is left, in the node, in
its children or above.  The induction is that of the function; every recursive call starts at the
front of a node. -/
theorem overlapIteratorNext_emits (start stop : K) (current : IntervalTree K T)
    (parents : List (Parent K T)) (position : Nat) (checkCurrent : Bool)
    (hnull : current.isNull = false) (hvalid : current.Valid) (habove : ValidAbove parents) :
    Emits start stop
      (current.foundFrom start stop (if checkCurrent then position else position + 1) ++
        foundAbove start stop parents)
      (overlapIteratorNext start stop current parents position checkCurrent) := by
  -- once the vector is searched through, only the children and the parents are left
  have hchildren : ∀ {intervals : List (Interval K T)} {center maxstop : K}
      {left right : IntervalTree K T} {position : Nat} {checkCurrent : Bool},
      (IntervalTree.node intervals center maxstop left right).Valid →
      searchNode start stop maxstop intervals position checkCurrent = none →
      (IntervalTree.node intervals center maxstop left right).foundFrom start stop
          (if checkCurrent then position else position + 1)
        = (if start ≤ center then left.findOverlapping start stop else []) ++
          (if center ≤ stop then right.findOverlapping start stop else []) := by
    intro intervals center maxstop left right position checkCurrent hvalid hsearch
    have hspec := searchNode_spec start stop hvalid.1 hvalid.2.1 position checkCurrent
    rw [hsearch] at hspec
    rw [foundFrom, hspec, List.nil_append]
  induction current, parents, position, checkCurrent using overlapIteratorNext.induct start stop with
  | case1 parents position checkCurrent => cases hnull
  | case2 parents position checkCurrent intervals center maxstop left right position' hsearch =>
      have hspec := searchNode_spec start stop hvalid.1 hvalid.2.1 position checkCurrent
      rw [hsearch] at hspec
      rcases hspec with ⟨i, hi, hfilter⟩
      rw [overlapIteratorNext, hsearch]
      refine ⟨hvalid, habove, i, hi, ?_⟩
      rw [foundFrom, foundFrom, hfilter]
      simp
  | case3 parents position checkCurrent intervals center maxstop left right hsearch hleft ih =>
      have hnext := ih hleft.1 hvalid.2.2.2.2.1 ⟨hvalid.2.2.2.2.2, habove⟩
      rw [if_pos rfl, foundFrom_zero hvalid.2.2.2.2.1, foundAbove] at hnext
      rw [hchildren hvalid hsearch, overlapIteratorNext, hsearch]
      simpa only [if_pos hleft, if_pos hleft.2, List.append_assoc] using hnext
  | case4 parents position checkCurrent intervals center maxstop left right hsearch hleft hright
      ih =>
      have hnext := ih hright.1 hvalid.2.2.2.2.2 habove
      rw [if_pos rfl, foundFrom_zero hvalid.2.2.2.2.2, foundAbove] at hnext
      rw [hchildren hvalid hsearch, found_of_not_entered hleft, overlapIteratorNext, hsearch]
      simpa only [if_neg hleft, if_pos hright, if_pos hright.2, List.nil_append] using hnext
  | case5 parents position checkCurrent intervals center maxstop left right hsearch hleft hright
      hclimb =>
      have habove' := climb_spec start stop parents
        (.node intervals center maxstop left right) habove
      rw [hclimb] at habove'
      rw [hchildren hvalid hsearch, found_of_not_entered hleft, found_of_not_entered hright,
        habove', overlapIteratorNext, hsearch]
      simp only [if_neg hleft, if_neg hright]
      rw [hclimb]
      rfl
  | case6 parents position checkCurrent intervals center maxstop left right hsearch hleft hright
      sibling parents' hclimb ih =>
      have habove' := climb_spec start stop parents
        (.node intervals center maxstop left right) habove
      rw [hclimb] at habove'
      rcases habove' with ⟨hsibling, hvalid', habove', hfound⟩
      have hnext := ih hsibling hvalid' habove'
      rw [if_pos rfl, foundFrom_zero hvalid', ← hfound] at hnext
      rw [hchildren hvalid hsearch, found_of_not_entered hleft, found_of_not_entered hright,
        overlapIteratorNext, hsearch]
      simp only [if_neg hleft, if_neg hright]
      rw [hclimb]
      exact hnext

/-- The loop over the iterator collects what is left, with a round for each interval. -/
theorem collect_eq (start stop : K) (found : List (Interval K T)) :
    ∀ {oiter : Option (OverlapIterator K T)} {rounds : Nat}, Emits start stop found oiter →
      found.length ≤ rounds → collect start stop rounds oiter = some found := by
  induction found with
  | nil =>
      intro oiter rounds hemits _
      cases oiter with
      | none => simp [collect]
      | some oiter =>
          rcases hemits with ⟨-, -, i, -, hfound⟩
          cases hfound
  | cons i found ih =>
      intro oiter rounds hemits hrounds
      cases oiter with
      | none => cases hemits
      | some oiter =>
          rcases hemits with ⟨hvalid, habove, i', hi', hfound⟩
          rcases List.cons.inj hfound with ⟨rfl, htail⟩
          cases rounds with
          | zero => exact absurd hrounds (Nat.not_succ_le_zero _)
          | succ rounds =>
              have hnull : oiter.node.isNull = false := by
                cases hnode : oiter.node with
                | null => simp [OverlapIterator.interval?, hnode] at hi'
                | node _ _ _ _ _ => rfl
              have hnext := overlapIteratorNext_emits start stop oiter.node oiter.parents
                oiter.position false hnull hvalid habove
              rw [if_neg (by decide), ← htail] at hnext
              have hrest := ih hnext (Nat.le_of_succ_le_succ hrounds)
              simp only [collect, hi', hrest, Option.map_some]

theorem findOverlappingWithIterator_eq {tree : IntervalTree K T} (h : tree.Valid) (start stop : K)
    {rounds : Nat} (hrounds : (tree.findOverlapping start stop).length ≤ rounds) :
    tree.findOverlappingWithIterator rounds start stop
      = some (tree.findOverlapping start stop) := by
  refine collect_eq start stop _ ?_ hrounds
  cases tree with
  | null => simp [overlapIteratorBegin, overlapIteratorNext, Emits, findOverlapping]
  | node intervals center maxstop left right =>
      have hnext := overlapIteratorNext_emits start stop (.node intervals center maxstop left right)
        [] 0 true rfl h trivial
      rw [if_pos rfl, foundFrom_zero h, foundAbove, List.append_nil] at hnext
      exact hnext

section Constructor

variable [Zero K]

/-- The constructor returns a tree on which the iterator enumerates exactly the overlapping
intervals, each once and in the order of `findOverlapping`, unless it has to divide an empty
vector. -/
theorem findOverlappingWithIterator_iff (sorter : StartSort K T) (ivals : List (Interval K T))
    (depth : UInt32) (minbucket maxbucket : Nat) :
    (∃ tree, new sorter ivals depth minbucket maxbucket = some tree ∧
        ∀ start stop rounds, ivals.length ≤ rounds →
          tree.findOverlappingWithIterator rounds start stop
              = some (tree.findOverlapping start stop) ∧
            (tree.findOverlapping start stop).Perm (ivals.filter (overlaps start stop))) ↔
      ivals ≠ [] ∨ depth = 1 ∨ 0 < minbucket ∧ 0 < maxbucket := by
  rw [← new_eq_some_iff sorter]
  constructor
  · rintro ⟨tree, hnew, -⟩
    exact ⟨tree, hnew⟩
  · rintro ⟨tree, hnew⟩
    rcases valid_new hnew with ⟨hvalid, hperm⟩
    refine ⟨tree, hnew, fun start stop rounds hrounds => ?_⟩
    have hfound : (tree.findOverlapping start stop).Perm
        (ivals.filter (overlaps start stop)) := by
      rw [findOverlapping_eq hvalid]
      exact hperm.filter _
    refine ⟨findOverlappingWithIterator_eq hvalid start stop ?_, hfound⟩
    calc (tree.findOverlapping start stop).length
        = (ivals.filter (overlaps start stop)).length := hfound.length_eq
      _ ≤ ivals.length := List.length_filter_le _ _
      _ ≤ rounds := hrounds

end Constructor

/-- A sort of intervals by their start. -/
def mergeByStart : StartSort K T where
  sort ivals := ivals.mergeSort fun i j => decide (i.start ≤ j.start)
  perm ivals := List.mergeSort_perm ivals _
  sorted ivals := by
    let le : Interval K T → Interval K T → Bool := fun i j => decide (i.start ≤ j.start)
    have htrans : ∀ i j k, le i j = true → le j k = true → le i k = true := by
      intro i j k hij hjk
      simp only [le, decide_eq_true_eq] at hij hjk ⊢
      exact le_trans hij hjk
    have htotal : ∀ i j, (le i j || le j i) = true := fun i j => by
      simpa [le] using le_total i.start j.start
    exact (List.pairwise_mergeSort htrans htotal ivals).imp fun h => by simpa [le] using h

/-- With a bucket size of 0 the constructor reads the front of an empty list of intervals. -/
theorem findOverlappingWithIterator_empty :
    ¬ ∀ (ivals : List (Interval Nat Unit)) (depth : UInt32) (minbucket maxbucket : Nat),
      (∀ i ∈ ivals, i.start ≤ i.stop) →
      ∃ tree, new mergeByStart ivals depth minbucket maxbucket = some tree ∧
        ∀ start stop rounds, start ≤ stop → ivals.length ≤ rounds →
          tree.findOverlappingWithIterator rounds start stop
              = some (tree.findOverlapping start stop) ∧
            (tree.findOverlapping start stop).Perm (ivals.filter (overlaps start stop)) := by
  intro hall
  rcases hall [] 16 0 512 (by simp) with ⟨tree, hnew, -⟩
  have hcondition := (new_eq_some_iff mergeByStart [] 16 0 512).1 ⟨tree, hnew⟩
  exact absurd hcondition (by decide)

end IntervalTree
end CamAlias
