import CamAlias.Lib.MapFold
import Mathlib.Algebra.GroupWithZero.Nat

/-!
# CompressionPattern — the analyser's patterns and their instance counts

`CompressionPattern.cpp`.  A pattern has a symbol and, when its `child` pointer is not null, a
vector of patterns with a repetition count.  `getNumberOfInstancesMap` multiplies counts through
the tree in 64-bit arithmetic.

* `expand` is what a pattern stands for;
* `getElem?_getNumberOfInstancesMap`: the map counts each symbol of `expand`, and has no other key.
-/

namespace CamAlias

open Lib

/-- How the reading side can fail: a call of `abort()`, a failed `assert`, the first or last
element of an empty repetition pattern, another access outside a container, or a division by zero.
`noFuel` is a loop that did not end within the rounds given to it. -/
inductive Fault
  | abort
  | assertFailed
  | emptyPattern
  | outOfRange
  | divisionByZero
  | noFuel
  deriving DecidableEq, Repr

/-- `typedef uintptr_t c_symbol`. -/
abbrev CSymbol := UInt64

/-- `CompressionPattern`: `leaf` where `child == NULL`. -/
inductive CompressionPattern
  | leaf (sym : CSymbol)
  | node (sym : CSymbol) (pattern : List CompressionPattern) (numRepetitions : Nat)

/-- `map<uintptr_t, uint64_t>`. -/
abbrev InstancesMap := Std.TreeMap UInt64 Nat

/-- `m[k] += d` on a `map<uintptr_t, uint64_t>`. -/
def addInstances (m : InstancesMap) (k : UInt64) (d : Nat) : InstancesMap :=
  m.alter k fun v => some ((v.getD 0 + d) % 2 ^ 64)

/-- `for (inner : innerNumInstances) numInstances[inner.first] += n * inner.second`. -/
def addScaled (n : Nat) (numInstances inner : InstancesMap) : InstancesMap :=
  inner.foldl (fun m k v => addInstances m k (n * v)) numInstances

namespace CompressionPattern

/-- `CompressionPattern::CompressionPattern()`. -/
def new : CompressionPattern := .leaf 0

/-- `CompressionPattern::addPattern`.  A new child has no repetition count yet: the count is
written by `setNumRepetitions` before it is read. -/
def addPattern : CompressionPattern → CompressionPattern → CompressionPattern
  | .leaf s, cp => .node s [cp] 0
  | .node s ps n, cp => .node s (ps ++ [cp]) n

/-- `CompressionPattern::setNumRepetitions`, with its `assert(hasChild())`. -/
def setNumRepetitions (n : Nat) : CompressionPattern → Except Fault CompressionPattern
  | .leaf _ => .error .assertFailed
  | .node s ps _ => .ok (.node s ps n)

/-- `CompressionPattern::setSymbol`. -/
def setSymbol (s : CSymbol) : CompressionPattern → CompressionPattern
  | .leaf _ => .leaf s
  | .node _ ps n => .node s ps n

mutual

/-- `CompressionPattern::getNumberOfInstancesMap`. -/
def getNumberOfInstancesMap : CompressionPattern → InstancesMap
  | .leaf s => (∅ : InstancesMap).insert s 1
  | .node _ ps n => childInstances n ps ∅

/-- The loop of `CompressionPatternChild::getNumberOfInstancesMap`. -/
def childInstances (n : Nat) : List CompressionPattern → InstancesMap → InstancesMap
  | [], numInstances => numInstances
  | cp :: cps, numInstances =>
      childInstances n cps (addScaled n numInstances (getNumberOfInstancesMap cp))

end

/-- `buildNumberOfInstancesLut` of `IterationGroupCfc` and `CallTraceInstanceGroup`: the sum of
the maps of a control flow. -/
def sumInstances (controlFlow : List CompressionPattern) : InstancesMap :=
  controlFlow.foldl (fun m cp => addScaled 1 m (getNumberOfInstancesMap cp)) ∅

/-! ## What a pattern stands for -/

mutual

def expand : CompressionPattern → List CSymbol
  | .leaf s => [s]
  | .node _ ps n => (List.replicate n (expandAll ps)).flatten

def expandAll : List CompressionPattern → List CSymbol
  | [] => []
  | p :: ps => expand p ++ expandAll ps

end

@[simp] theorem expandAll_nil : expandAll [] = [] := by
  simp [expandAll]

@[simp] theorem expandAll_cons (p : CompressionPattern) (ps : List CompressionPattern) :
    expandAll (p :: ps) = expand p ++ expandAll ps := by
  simp [expandAll]

@[simp] theorem expandAll_append (ps qs : List CompressionPattern) :
    expandAll (ps ++ qs) = expandAll ps ++ expandAll qs := by
  induction ps with
  | nil => simp
  | cons p ps ih => simp [ih]

theorem count_expand_node (s id : CSymbol) (ps : List CompressionPattern) (n : Nat) :
    (expand (.node s ps n)).count id = n * (expandAll ps).count id := by
  simp [expand, List.count_flatten]

mutual

/-- No child is repeated zero times. -/
def Positive : CompressionPattern → Prop
  | .leaf _ => True
  | .node _ ps n => 0 < n ∧ PositiveAll ps

def PositiveAll : List CompressionPattern → Prop
  | [] => True
  | p :: ps => Positive p ∧ PositiveAll ps

end

theorem positiveAll_iff (ps : List CompressionPattern) :
    PositiveAll ps ↔ ∀ p ∈ ps, Positive p := by
  induction ps with
  | nil => simp [PositiveAll]
  | cons p ps ih => simp [PositiveAll, ih]

end CompressionPattern

/-! ## Instance maps as counts -/

/-- The map holds `count k` modulo `2 ^ 64` at the symbols of `xs`, and no other key. -/
def Counts (m : InstancesMap) (xs : List UInt64) : Prop :=
  ∀ k, m[k]? = if k ∈ xs then some (xs.count k % 2 ^ 64) else none

theorem Counts.empty : Counts ∅ [] := by
  intro k
  simp

theorem Counts.getD_eq {m : InstancesMap} {xs : List UInt64} (h : Counts m xs)
    (hlen : xs.length < 2 ^ 64) (k : UInt64) : m[k]?.getD 0 = xs.count k := by
  have hle := List.count_le_length (a := k) (l := xs)
  rw [h k]
  by_cases hk : k ∈ xs
  · rw [if_pos hk, Option.getD_some, Nat.mod_eq_of_lt (by omega)]
  · rw [if_neg hk, Option.getD_none, List.count_eq_zero_of_not_mem hk]

theorem Counts.getElem?_eq {m : InstancesMap} {xs : List UInt64} (h : Counts m xs) {k : UInt64}
    (hlt : xs.count k < 2 ^ 64) : m[k]? = if 0 < xs.count k then some (xs.count k) else none := by
  rw [h k]
  simp only [List.count_pos_iff, Nat.mod_eq_of_lt hlt]

theorem Counts.mem_iff {m : InstancesMap} {xs : List UInt64} (h : Counts m xs) (k : UInt64) :
    m[k]?.isSome ↔ k ∈ xs := by
  rw [h k]
  split <;> simp_all

section Alter

variable {β : Type _} (f : UInt64 → Nat → Option β → Option β)

theorem getElem?_alter' (m : Std.TreeMap UInt64 β) (k j : UInt64) (g : Option β → Option β) :
    (m.alter k g)[j]? = if k = j then g m[j]? else m[j]? := by
  simp only [Std.TreeMap.getElem?_alter, Std.LawfulEqOrd.compare_eq_iff_eq]
  split
  · rename_i hkj
    rw [hkj]
  · rfl

/-- A loop over the entries of one map that changes the same keys of another one. -/
theorem getElem?_foldl_alter (m : Std.TreeMap UInt64 β) (inner : InstancesMap) (j : UInt64) :
    (inner.foldl (fun m k v => m.alter k (f k v)) m)[j]? = match inner[j]? with
      | some v => f j v m[j]?
      | none => m[j]? := by
  have hself : ∀ (m : Std.TreeMap UInt64 β) v, (m.alter j (f j v))[j]? = f j v m[j]? := by
    intro m v
    rw [getElem?_alter', if_pos rfl]
  have hother : ∀ (m : Std.TreeMap UInt64 β) k v, k ≠ j → (m.alter k (f k v))[j]? = m[j]? := by
    intro m k v hne
    rw [getElem?_alter', if_neg hne]
  rw [foldl_proj (fun m k v => m.alter k (f k v)) (fun m => m[j]?) (fun o v => f j v o) j hself
    hother inner m]
  cases inner[j]? <;> rfl

end Alter

theorem getElem?_addScaled (n : Nat) (m inner : InstancesMap) (j : UInt64) :
    (addScaled n m inner)[j]? = match inner[j]? with
      | some v => some ((m[j]?.getD 0 + n * v) % 2 ^ 64)
      | none => m[j]? :=
  getElem?_foldl_alter (fun _ v old => some ((old.getD 0 + n * v) % 2 ^ 64)) m inner j

/-- One count of an instance map after `addScaled`. -/
theorem getD_addScaled (n : Nat) {m inner : InstancesMap} {id : UInt64} {count : Nat}
    (hm : m[id]?.getD 0 < 2 ^ 64) (hinner : inner[id]?.getD 0 = count % 2 ^ 64) :
    (addScaled n m inner)[id]?.getD 0 = (m[id]?.getD 0 + n * count) % 2 ^ 64 := by
  rw [getElem?_addScaled]
  cases hv : inner[id]? with
  | some v =>
      have hv' : v = count % 2 ^ 64 := by simpa [hv] using hinner
      simp [hv', Nat.add_mod, Nat.mul_mod]
  | none =>
      have hzero : count % 2 ^ 64 = 0 := by simpa [hv] using hinner.symm
      have hmul : n * count % 2 ^ 64 = 0 := by rw [Nat.mul_mod, hzero, Nat.mul_zero, Nat.zero_mod]
      simp only
      omega

/-- Adding `n` times the counts of `ys` appends `n` copies of `ys`. -/
theorem Counts.addScaled {n : Nat} {m inner : InstancesMap} {xs ys : List UInt64} (hn : 0 < n)
    (hm : Counts m xs) (hinner : Counts inner ys) :
    Counts (addScaled n m inner) (xs ++ (List.replicate n ys).flatten) := by
  intro k
  have hmem : k ∈ (List.replicate n ys).flatten ↔ k ∈ ys := by
    simp [List.mem_flatten, List.mem_replicate]
    omega
  have hcount : ((List.replicate n ys).flatten).count k = n * ys.count k := by
    simp [List.count_flatten]
  rw [getElem?_addScaled, hinner k, hm k]
  simp only [List.mem_append, hmem, List.count_append, hcount]
  by_cases hy : k ∈ ys
  · by_cases hx : k ∈ xs
    · simp [hx, hy, Nat.add_mod, Nat.mul_mod]
    · simp [hx, hy, List.count_eq_zero_of_not_mem hx, Nat.mul_mod]
  · simp [hy, List.count_eq_zero_of_not_mem hy]

namespace CompressionPattern

mutual

theorem counts_getNumberOfInstancesMap : ∀ p : CompressionPattern, Positive p →
    Counts (getNumberOfInstancesMap p) (expand p)
  | .leaf s, _ => by
      intro k
      by_cases hk : s = k
      · simp [getNumberOfInstancesMap, expand, hk]
      · simp [getNumberOfInstancesMap, expand, hk, Ne.symm hk]
  | .node s ps n, h => by
      rcases (by simpa only [Positive] using h) with ⟨hn, hps⟩
      have hchild := counts_childInstances n hn ps hps ∅ [] Counts.empty
      intro k
      -- the loop appends `n` copies of each child in turn; only the counts agree with `expand`
      have hmem : k ∈ ps.flatMap (fun p => (List.replicate n (expand p)).flatten)
          ↔ k ∈ (List.replicate n (expandAll ps)).flatten := by
        have hall : k ∈ expandAll ps ↔ ∃ p ∈ ps, k ∈ expand p := by
          clear hchild h hps
          induction ps with
          | nil => simp
          | cons p ps ih => simp [ih]
        simp [List.mem_flatMap, List.mem_flatten, List.mem_replicate, hall, Nat.ne_of_gt hn]
      have hcount : (ps.flatMap (fun p => (List.replicate n (expand p)).flatten)).count k
          = ((List.replicate n (expandAll ps)).flatten).count k := by
        clear hmem hchild h hps
        induction ps with
        | nil => simp
        | cons p ps ih =>
            simp only [List.flatMap_cons, List.count_append, ih, expandAll_cons]
            simp [List.count_flatten, Nat.mul_add]
      have hk := hchild k
      simp only [List.nil_append] at hk
      simpa [getNumberOfInstancesMap, expand, ← hmem, ← hcount] using hk

theorem counts_childInstances (n : Nat) (hn : 0 < n) : ∀ ps : List CompressionPattern,
    PositiveAll ps → ∀ (m : InstancesMap) (xs : List UInt64), Counts m xs →
    Counts (childInstances n ps m)
      (xs ++ ps.flatMap (fun p => (List.replicate n (expand p)).flatten))
  | [], _, m, xs, hm => by simpa [childInstances] using hm
  | p :: ps, h, m, xs, hm => by
      rcases (by simpa only [PositiveAll] using h) with ⟨hp, hps⟩
      have hone := hm.addScaled hn (counts_getNumberOfInstancesMap p hp)
      have hrest := counts_childInstances n hn ps hps _ _ hone
      simpa [childInstances] using hrest

end

theorem counts_sumInstances {controlFlow : List CompressionPattern} (h : PositiveAll controlFlow) :
    Counts (sumInstances controlFlow) (expandAll controlFlow) := by
  have hgen : ∀ (cps : List CompressionPattern) (m : InstancesMap) (xs : List UInt64),
      PositiveAll cps → Counts m xs →
      Counts (cps.foldl (fun m cp => addScaled 1 m (getNumberOfInstancesMap cp)) m)
        (xs ++ expandAll cps) := by
    intro cps
    induction cps with
    | nil =>
        intro m xs _ hm
        simpa using hm
    | cons cp cps ih =>
        intro m xs hpos hm
        rcases (by simpa only [PositiveAll] using hpos) with ⟨hcp, hcps⟩
        have hone := hm.addScaled Nat.one_pos (counts_getNumberOfInstancesMap cp hcp)
        simpa using ih _ _ hcps hone
  simpa [sumInstances] using hgen controlFlow ∅ [] h Counts.empty

/-! Without a condition on the patterns a map may also hold a count of 0; read with 0 for a missing
key it still counts. -/

mutual

theorem getD_getNumberOfInstancesMap (id : UInt64) : ∀ p : CompressionPattern,
    (getNumberOfInstancesMap p)[id]?.getD 0 = (expand p).count id % 2 ^ 64
  | .leaf s => by
      by_cases hs : s = id
      · simp [getNumberOfInstancesMap, expand, hs]
      · simp [getNumberOfInstancesMap, expand, hs]
  | .node s ps n => by
      have hchild := getD_childInstances id n ps ∅ (by simp)
      rw [count_expand_node]
      simpa [getNumberOfInstancesMap] using hchild

theorem getD_childInstances (id : UInt64) (n : Nat) : ∀ (ps : List CompressionPattern)
    (m : InstancesMap), m[id]?.getD 0 < 2 ^ 64 →
    (childInstances n ps m)[id]?.getD 0
      = (m[id]?.getD 0 + n * (expandAll ps).count id) % 2 ^ 64
  | [], m, hm => by simpa [childInstances] using (Nat.mod_eq_of_lt hm).symm
  | p :: ps, m, hm => by
      have hone := getD_addScaled n hm (getD_getNumberOfInstancesMap id p)
      have hlt := Nat.mod_lt (m[id]?.getD 0 + n * (expand p).count id) (Nat.two_pow_pos 64)
      rw [← hone] at hlt
      have hrest := getD_childInstances id n ps _ hlt
      rw [childInstances, hrest, hone, Nat.mod_add_mod, expandAll_cons, List.count_append,
        Nat.mul_add, Nat.add_assoc]

end

theorem getD_sumInstances (id : UInt64) (controlFlow : List CompressionPattern) :
    (sumInstances controlFlow)[id]?.getD 0 = (expandAll controlFlow).count id % 2 ^ 64 := by
  have hgen : ∀ (cps : List CompressionPattern) (m : InstancesMap), m[id]?.getD 0 < 2 ^ 64 →
      (cps.foldl (fun m cp => addScaled 1 m (getNumberOfInstancesMap cp)) m)[id]?.getD 0
        = (m[id]?.getD 0 + (expandAll cps).count id) % 2 ^ 64 := by
    intro cps
    induction cps with
    | nil =>
        intro m hm
        simpa using (Nat.mod_eq_of_lt hm).symm
    | cons cp cps ih =>
        intro m hm
        have hone := getD_addScaled 1 hm (getD_getNumberOfInstancesMap id cp)
        have hlt := Nat.mod_lt (m[id]?.getD 0 + 1 * (expand cp).count id) (Nat.two_pow_pos 64)
        rw [← hone] at hlt
        rw [List.foldl_cons, ih _ hlt, hone, Nat.mod_add_mod, Nat.one_mul, expandAll_cons,
          List.count_append, Nat.add_assoc]
  simpa [sumInstances] using hgen controlFlow ∅ (by simp)

end CompressionPattern
end CamAlias
