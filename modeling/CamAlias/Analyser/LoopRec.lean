import CamAlias.Analyser.RepetitionPattern
import CamAlias.Lib.Grouping

/-!
# LoopRec — iterations and invocations as the analyser holds them

`IterationGroupCfc`, `InvocationGroupCfc` and `LoopTraceEntry` of `StaticLoopRec.cpp`, and
`CallTraceInstanceGroup` of `CallTrace.cpp`, which has the same members as `IterationGroupCfc` and
is merged by the same code.

A dump cuts a running iteration (or call) in two, and `mergeGroups` rejoins the last group of the
first part with the first group of the second one.
-/

namespace CamAlias

open Lib

/-! ## Groups of iterations and of call instances -/

/-- `IterationGroupCfc` and `CallTraceInstanceGroup`. -/
structure CfcGroup where
  repetitions : RepetitionPattern
  controlFlow : List CompressionPattern
  numInstancesLut : InstancesMap

abbrev IterationGroupCfc := CfcGroup

abbrev CallTraceInstanceGroup := CfcGroup

namespace CfcGroup

/-- `IterationGroupCfc::IterationGroupCfc`. -/
def new : CfcGroup where
  repetitions := []
  controlFlow := []
  numInstancesLut := ∅

/-- `IterationGroupCfc::addIterationPattern`, `CallTraceInstanceGroup::addPattern`. -/
def addPattern (g : CfcGroup) (start «end» : Nat) : CfcGroup :=
  { g with repetitions := g.repetitions.addPair start «end» }

/-- `addIntoControlFlow`, `addControlFlow`. -/
def addIntoControlFlow (g : CfcGroup) (cp : CompressionPattern) : CfcGroup :=
  { g with controlFlow := g.controlFlow ++ [cp] }

/-- `IterationGroupCfc::buildNumberOfInstancesLut`, which discards the control flow. -/
def buildNumberOfInstancesLut (g : CfcGroup) : CfcGroup :=
  { g with
    numInstancesLut := CompressionPattern.sumInstances g.controlFlow
    controlFlow := [] }

/-- `getNumberOfInstancesInSingleIteration`. -/
def getNumberOfInstancesInSingleIteration (g : CfcGroup) (instrID : UInt64) : Nat :=
  g.numInstancesLut[instrID]?.getD 0

/-- `getNumberOfIterations_slow`. -/
def getNumberOfIterations_slow (g : CfcGroup) : Nat :=
  (g.repetitions.map fun r => r.2 - r.1 + 1).sum

/-- `IterationGroupCfc::isEmpty`. -/
def isEmpty (g : CfcGroup) : Bool :=
  g.controlFlow.isEmpty && g.numInstancesLut.isEmpty

/-- `extractLastIteration`, `extractLastInstance`: what stays, and the group split off. -/
def extractLast (g : CfcGroup) : Except Fault (CfcGroup × CfcGroup) :=
  match g.repetitions.getLastInstance, g.repetitions.removeLastInstance with
  | .ok last, .ok repetitions =>
      .ok ({ g with repetitions },
        { repetitions := [(last, last)], controlFlow := g.controlFlow, numInstancesLut := ∅ })
  | .error e, _ => .error e
  | _, .error e => .error e

/-- What `extractFirstIteration`, `extractFirstInstance` leave. -/
def extractFirst (g : CfcGroup) : Except Fault CfcGroup :=
  match g.repetitions.removeFirstInstance with
  | .ok repetitions => .ok { g with repetitions }
  | .error e => .error e

/-- The numbers of a group and its control flow. -/
def group (g : CfcGroup) : List Nat × List CompressionPattern :=
  (numbers g.repetitions, g.controlFlow)

@[simp] theorem group_fst (g : CfcGroup) : g.group.1 = numbers g.repetitions := rfl

@[simp] theorem group_snd (g : CfcGroup) : g.group.2 = g.controlFlow := rfl

end CfcGroup

/-! ## Merging -/

/-- Two numbers that may not be there, compared. -/
def sameNumber : Except Fault Nat → Except Fault Nat → Except Fault Bool
  | .ok m, .ok n => .ok (m == n)
  | .error e, _ => .error e
  | _, .error e => .error e

/-- The keys that `max_element` and `min_element` compare; with one element nothing is compared. -/
def extremeKeys (key : CfcGroup → Except Fault Nat) : List CfcGroup → Except Fault (List Nat)
  | [] => .ok []
  | [_] => .ok [0]
  | gs => gs.mapM key

/-- `max_element`: the index of the first largest element. -/
def maxElement (keys : List Nat) : Nat :=
  keys.findIdx fun k => keys.all fun k' => k' ≤ k

/-- `min_element`: the index of the first smallest element. -/
def minElement (keys : List Nat) : Nat :=
  keys.findIdx fun k => keys.all fun k' => k ≤ k'

/-- The last group of the first part receives the control flow of the cut iteration; a group of
several iterations is split first. -/
def mergeIntoLast (existing : List CfcGroup) (i : Nat) (a b : CfcGroup) :
    Except Fault (List CfcGroup) :=
  if a.repetitions.isSingleton then
    .ok (existing.set i { a with controlFlow := a.controlFlow ++ b.controlFlow })
  else
    match a.extractLast with
    | .error e => .error e
    | .ok (stays, last) =>
        .ok (existing.set i stays ++ [{ last with controlFlow := last.controlFlow ++ b.controlFlow }])

/-- The second part without the iteration that has been merged: what is added to the first part, and
what is left in the second one, whose group of several iterations is changed in place. -/
def remainingGroups (new : List CfcGroup) (j : Nat) (b : CfcGroup) :
    Except Fault (List CfcGroup × List CfcGroup) :=
  if b.repetitions.isSingleton then .ok (new.eraseIdx j, new)
  else
    match b.extractFirst with
    | .error e => .error e
    | .ok b' => .ok (new.set j b', new.set j b')

/-- The common part of `InvocationGroupCfc::mergeIterationInfo` and
`CallTraceCall::addCallTraceCall`: both parts afterwards, since the second one is passed by
reference. -/
def mergeGroups (existing new : List CfcGroup) : Except Fault (List CfcGroup × List CfcGroup) :=
  match extremeKeys (·.repetitions.getLastInstance) existing,
      extremeKeys (·.repetitions.getFirstInstance) new with
  | .ok lasts, .ok firsts =>
      let i := maxElement lasts
      let j := minElement firsts
      match existing[i]?, new[j]? with
      -- nothing to merge with
      | none, _ => .ok (existing ++ new, new)
      | some _, none => .error .outOfRange
      | some maxExisting, some minNew =>
          match maxExisting.repetitions.getLastInstance, minNew.repetitions.getFirstInstance with
          | .ok last, .ok first =>
              -- only the group with the last number and the one with the first number are compared
              if last = first then
                match mergeIntoLast existing i maxExisting minNew, remainingGroups new j minNew with
                | .ok merged, .ok (rest, left) => .ok (merged ++ rest, left)
                | .error e, _ => .error e
                | _, .error e => .error e
              else .ok (existing ++ new, new)
          | .error e, _ => .error e
          | _, .error e => .error e
  | .error e, _ => .error e
  | _, .error e => .error e

/-! ## What merged groups stand for -/

/-- A control flow stands for the symbols it expands to. -/
def StandsFor (controlFlow : List CompressionPattern) (symbols : List UInt64) : Prop :=
  CompressionPattern.expandAll controlFlow = symbols ∧ CompressionPattern.PositiveAll controlFlow

theorem StandsFor.append {cf cf' : List CompressionPattern} {xs ys : List UInt64}
    (h : StandsFor cf xs) (h' : StandsFor cf' ys) : StandsFor (cf ++ cf') (xs ++ ys) := by
  refine ⟨by simp [h.1, h'.1], ?_⟩
  have hcf := (CompressionPattern.positiveAll_iff cf).1 h.2
  have hcf' := (CompressionPattern.positiveAll_iff cf').1 h'.2
  rw [CompressionPattern.positiveAll_iff]
  intro p hp
  rcases List.mem_append.1 hp with hp | hp
  · exact hcf p hp
  · exact hcf' p hp

/-- The groups stand for `content`, numbered from `first` on, and their patterns are ascending. -/
structure Describes (first : Nat) (content : List (List UInt64)) (gs : List CfcGroup) : Prop where
  groups : Groups StandsFor first content (gs.map CfcGroup.group)
  ascending : ∀ g ∈ gs, Ascending g.repetitions

namespace Describes

variable {first : Nat} {content : List (List UInt64)} {gs : List CfcGroup}

/-- The groups settle what they stand for. -/
theorem content_unique {content' : List (List UInt64)} (h : Describes first content gs)
    (h' : Describes first content' gs) : content = content' :=
  Groups.content_unique (fun _ _ _ hx hx' => hx.1.symm.trans hx'.1) h.groups h'.groups

theorem of_perm {gs' : List CfcGroup} (h : Describes first content gs) (hp : gs.Perm gs') :
    Describes first content gs' :=
  ⟨h.groups.of_perm (hp.map _), fun g hg => h.ascending g (hp.mem_iff.2 hg)⟩

theorem numbers_ne_nil (h : Describes first content gs) {g : CfcGroup} (hg : g ∈ gs) :
    numbers g.repetitions ≠ [] :=
  h.groups.nonempty _ (List.mem_map_of_mem hg)

theorem append {content' : List (List UInt64)} {hs : List CfcGroup}
    (h : Describes first content gs) (h' : Describes (first + content.length) content' hs) :
    Describes first (content ++ content') (gs ++ hs) := by
  refine ⟨?_, ?_⟩
  · rw [List.map_append]
    exact h.groups.append h'.groups
  · intro g hg
    rcases List.mem_append.1 hg with hg | hg
    · exact h.ascending g hg
    · exact h'.ascending g hg

theorem singleton {n : Nat} {g : CfcGroup} {symbols : List UInt64}
    (hg : g.repetitions = [(n, n)]) (hcf : StandsFor g.controlFlow symbols) :
    Describes n [symbols] [g] := by
  refine ⟨?_, ?_⟩
  · have hgroup : g.group = ([n], g.controlFlow) := by
      simp [CfcGroup.group, hg, rangeNumbers_singleton]
    simp only [List.map_cons, List.map_nil, hgroup]
    exact Groups.singleton hcf
  · intro g' hg'
    rcases List.mem_singleton.1 hg' with rfl
    rw [hg]
    exact ⟨Nat.le_refl _, by simp, trivial⟩

end Describes

/-! ## Parts of a sequence -/

/-- What has been recorded of a sequence of iterations or call instances between two writes: some
of its elements, the first of them perhaps only the rest of an element begun before. -/
structure Part where
  first : Nat
  values : List (List UInt64)

namespace Part

/-- The part begins inside the last element recorded so far, or behind it. -/
def Continues (xs : List (List UInt64)) (p : Part) : Prop :=
  (p.first + 1 = xs.length ∧ p.values ≠ []) ∨ p.first = xs.length

/-- What has been recorded, with the part. -/
def join (xs : List (List UInt64)) (p : Part) : List (List UInt64) :=
  match xs[p.first]?, p.values with
  | some x, y :: ys => xs.take p.first ++ (x ++ y) :: ys
  | _, ys => xs ++ ys

theorem join_cut (xs : List (List UInt64)) (x y : List UInt64) (ys : List (List UInt64)) :
    join (xs ++ [x]) { first := xs.length, values := y :: ys } = xs ++ (x ++ y) :: ys := by
  simp [join]

theorem join_next (xs ys : List (List UInt64)) :
    join xs { first := xs.length, values := ys } = xs ++ ys := by
  simp [join]

@[simp] theorem join_nil (p : Part) : join [] p = p.values := by
  simp [join]

/-- The elements of the part, behind or inside the last element written. -/
theorem join_append {xs : List (List UInt64)} {p : Part} (h : p.Continues xs)
    (ys : List (List UInt64)) :
    join xs { p with values := p.values ++ ys } = p.join xs ++ ys := by
  rcases p with ⟨first, values⟩
  rcases h with ⟨hlen, hne⟩ | hlen
  · rcases List.eq_nil_or_concat' xs with rfl | ⟨xs, x, rfl⟩
    · simp at hlen
    · have hfirst : first = xs.length := by simpa using hlen
      subst hfirst
      cases values with
      | nil => exact absurd rfl hne
      | cons v vs =>
          rw [join_cut]
          simp [join_cut]
  · have hfirst : first = xs.length := hlen
    subst hfirst
    simp [join_next]

theorem length_join {xs : List (List UInt64)} {p : Part} (h : p.Continues xs) :
    (p.join xs).length = p.first + p.values.length := by
  rcases p with ⟨first, values⟩
  rcases h with ⟨hlen, hne⟩ | hlen
  · rcases List.eq_nil_or_concat' xs with rfl | ⟨xs, x, rfl⟩
    · simp at hlen
    · have hfirst : first = xs.length := by simpa using hlen
      subst hfirst
      cases values with
      | nil => exact absurd rfl hne
      | cons v vs =>
          rw [join_cut]
          simp
  · have hfirst : first = xs.length := hlen
    subst hfirst
    simp [join_next]

end Part

end CamAlias
