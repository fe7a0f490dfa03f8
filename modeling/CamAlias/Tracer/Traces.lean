import CamAlias.Compressor.Equality
import CamAlias.Storage.HashTableRuns
import CamAlias.Tracer.ShareTable

/-!
# Traces — what the tracer keeps in memory, and when two pieces of it are equal

`IterationInfo`, `ExecTrace`, `LoopTrace`, `CallTrace` and `LoopInvocationCallInfo` of
`loop_trace.cpp`.  The tracer inserts keys, looks them up and walks all items: a table is the list of
its items in the order in which they came in, and only a walk goes through the buckets.
-/

namespace CamAlias

/-- `XanHashTable` with IDs as keys. -/
abbrev HashTable (α : Type) := List (UInt64 × α)

/-- The hash of an ID is the pointer itself. -/
def hashOfID (id : UInt64) : UInt32 := id.toUInt32

/-- Change the element of a key, or insert the key with the element. -/
def HashTable.set {α : Type} (table : HashTable α) (key : UInt64) (element : α) : HashTable α :=
  match table with
  | [] => [(key, element)]
  | item :: items =>
      if item.1 = key then (key, element) :: items else item :: HashTable.set items key element

namespace HashTable

variable {α : Type} {table : HashTable α} {key k : UInt64} {element : α}

/-! ## Walks -/

/-- `hashTableInsert` on one item after the other. -/
def insertAll (t : XanHashTable UInt64 α) : HashTable α → Except Fault (XanHashTable UInt64 α)
  | [] => .ok t
  | item :: items =>
      match t.insert hashOfID item.1 item.2 with
      | .error e => .error e
      | .ok t => insertAll t items

/-- The buckets of a table: an element that changes stays where it is. -/
def xanHashTable (table : HashTable α) : Except Fault (XanHashTable UInt64 α) :=
  match XanHashTable.new 11 with
  | .error e => .error e
  | .ok t => insertAll t table

/-- The items from `xanHashTable_first` by `xanHashTable_next`; `none` if the table cannot grow any
more. -/
def walk (table : HashTable α) : Option (HashTable α) :=
  match table.xanHashTable with
  | .error _ => none
  | .ok t =>
      match t.visit table.length t.first with
      | .error _ => none
      | .ok items => some (items.filterMap fun r => (t.itemAt r).map XanHashTableItem.entry)

theorem holdsItems_insertAll {items xs : HashTable α} {t t' : XanHashTable UInt64 α}
    (h : HoldsItems hashOfID t xs) (hinsert : insertAll t items = .ok t') :
    HoldsItems hashOfID t' (xs ++ items) := by
  induction items generalizing t xs with
  | nil =>
      rcases Except.ok.inj hinsert with rfl
      rwa [List.append_nil]
  | cons item items ih =>
      simp only [insertAll] at hinsert
      split at hinsert
      · cases hinsert
      · rename_i t₁ hone
        rcases h.insert (prime_of_insert hone) item.1 item.2 with ⟨t₁', hone', hholds⟩
        rcases Except.ok.inj (hone.symm.trans hone') with rfl
        have hrest := ih hholds hinsert
        rwa [List.append_assoc] at hrest

theorem holdsItems_xanHashTable {t : XanHashTable UInt64 α} (h : table.xanHashTable = .ok t) :
    HoldsItems hashOfID t table := by
  simp only [xanHashTable] at h
  split at h
  · cases h
  · rename_i t₀ hnew
    exact holdsItems_insertAll (holdsItems_new hnew) h

theorem visit_xanHashTable {t : XanHashTable UInt64 α} (h : table.xanHashTable = .ok t) :
    t.visit table.length t.first = .ok (referencesFrom t 0) := by
  have hholds := holdsItems_xanHashTable h
  refine hholds.stored.visit_first (Nat.le_of_eq ?_)
  -- every reference refers to an item
  rw [← hholds.perm_filterMap_referencesFrom.length_eq, List.length_filterMap_eq_countP]
  refine (List.countP_eq_length.2 fun r hr => ?_).symm
  rw [Option.isSome_map]
  exact (mem_referencesFrom r).1 hr

/-- A walk visits every item once. -/
theorem perm_of_walk {items : HashTable α} (h : table.walk = some items) : items.Perm table := by
  simp only [walk] at h
  split at h
  · cases h
  · rename_i t ht
    rw [visit_xanHashTable ht] at h
    rcases Option.some.inj h with rfl
    exact (holdsItems_xanHashTable ht).perm_filterMap_referencesFrom

theorem walk_singleton (item : UInt64 × α) : walk [item] = some [item] := by
  obtain ⟨t, ht⟩ : ∃ t, xanHashTable [item] = .ok t := by
    obtain ⟨t₀, hnew, hload⟩ : ∃ t₀ : XanHashTable UInt64 α,
        XanHashTable.new 11 = .ok t₀ ∧ t₀.currentLoadFactor = 0 := ⟨_, rfl, rfl⟩
    have hfree : ¬ defaultLoadFactor ≤ 0 := by decide +kernel
    have hinsert : t₀.insert hashOfID item.1 item.2
        = .ok (t₀.insertItem hashOfID item.1 item.2) := by
      rw [XanHashTable.insert, hload, if_neg hfree]
      rfl
    refine ⟨t₀.insertItem hashOfID item.1 item.2, ?_⟩
    simp only [xanHashTable, hnew, insertAll, hinsert]
  have hwalk : walk [item] = some ((referencesFrom t 0).filterMap fun r =>
      (t.itemAt r).map XanHashTableItem.entry) := by
    simp only [walk, ht, visit_xanHashTable ht]
  rw [hwalk, List.perm_singleton.1 (perm_of_walk hwalk)]

/-! ## Lookups -/

theorem lookup_cons (item : UInt64 × α) (items : HashTable α) (k : UInt64) :
    List.lookup k (item :: items) = if k = item.1 then some item.2 else items.lookup k := by
  rw [List.lookup_cons]
  by_cases h : k = item.1
  · rw [if_pos h, beq_iff_eq.2 h]
  · rw [if_neg h, beq_eq_false_iff_ne.2 h]

theorem lookup_set (table : HashTable α) (key k : UInt64) (element : α) :
    (table.set key element).lookup k = if k = key then some element else table.lookup k := by
  induction table with
  | nil => simp only [set, lookup_cons, List.lookup_nil]
  | cons item items ih =>
      by_cases hitem : item.1 = key
      · simp only [set, hitem, if_true, lookup_cons]
        by_cases hk : k = key <;> simp [hk]
      · simp only [set, hitem, if_false, lookup_cons, ih]
        by_cases hk : k = item.1
        · have hne : k ≠ key := fun heq => hitem (hk ▸ heq)
          simp [hk, hitem]
        · simp [hk]

theorem set_set (table : HashTable α) (key : UInt64) (a b : α) :
    (table.set key a).set key b = table.set key b := by
  induction table with
  | nil => simp [set]
  | cons item items ih =>
      by_cases hitem : item.1 = key <;> simp [set, hitem, ih]

theorem mem_keys_set {table : HashTable α} {key k : UInt64} {element : α} :
    k ∈ (table.set key element).map Prod.fst ↔ k = key ∨ k ∈ table.map Prod.fst := by
  induction table with
  | nil => simp [set]
  | cons item items ih =>
      by_cases hitem : item.1 = key
      · simp [set, hitem]
      · simp only [set, hitem, if_false, List.map_cons, List.mem_cons, ih]
        grind

theorem nodup_set (h : (table.map Prod.fst).Nodup) :
    ((table.set key element).map Prod.fst).Nodup := by
  induction table with
  | nil => simp [set]
  | cons item items ih =>
      rcases List.nodup_cons.1 h with ⟨hnot, hitems⟩
      by_cases hitem : item.1 = key
      · simp only [set, hitem, if_true, List.map_cons, List.nodup_cons]
        exact ⟨hitem ▸ hnot, hitems⟩
      · simp only [set, hitem, if_false, List.map_cons, List.nodup_cons]
        refine ⟨?_, ih hitems⟩
        rw [mem_keys_set]
        rintro (heq | hmem)
        · exact hitem heq
        · exact hnot hmem

theorem lookup_of_mem (h : (table.map Prod.fst).Nodup) {item : UInt64 × α} (hitem : item ∈ table) :
    table.lookup item.1 = some item.2 := by
  induction table with
  | nil => simp at hitem
  | cons i items ih =>
      rcases List.nodup_cons.1 h with ⟨hnot, hitems⟩
      rcases List.mem_cons.1 hitem with rfl | hmem
      · rw [lookup_cons, if_pos rfl]
      · have hne : item.1 ≠ i.1 := by
          intro heq
          exact hnot (heq ▸ List.mem_map_of_mem hmem)
        rw [lookup_cons, if_neg hne, ih hitems hmem]

theorem mem_of_lookup (h : table.lookup k = some element) : (k, element) ∈ table := by
  induction table with
  | nil => simp at h
  | cons i items ih =>
      rw [lookup_cons] at h
      by_cases hk : k = i.1
      · rw [if_pos hk, Option.some.injEq] at h
        simp [hk, ← h]
      · rw [if_neg hk] at h
        exact List.mem_cons_of_mem _ (ih h)

theorem lookup_of_perm {items : HashTable α} (h : (table.map Prod.fst).Nodup)
    (hperm : items.Perm table) (k : UInt64) : items.lookup k = table.lookup k := by
  have hitems : (items.map Prod.fst).Nodup := (hperm.map Prod.fst).nodup_iff.2 h
  cases hlookup : table.lookup k with
  | none =>
      cases hlookup' : items.lookup k with
      | none => rfl
      | some element =>
          have hmem := hperm.mem_iff.1 (mem_of_lookup hlookup')
          rw [lookup_of_mem h hmem] at hlookup
          cases hlookup
  | some element => exact lookup_of_mem hitems (hperm.mem_iff.2 (mem_of_lookup hlookup))

end HashTable

/-! ## Loops -/

/-- `IterationInfo`: the sharers are iteration numbers.  It is never partially dumped. -/
abbrev IterationInfo := SharedInfo ControlFlowCompressor

namespace IterationInfo

/-- `IterationInfo::operator==`. -/
def beq (info other : IterationInfo) : Bool :=
  info.sharersOffset == other.sharersOffset && info.sharers.equal other.sharers &&
    info.payload.beq other.payload

/-- Pairwise, over two lists of one length. -/
def beqAll : List IterationInfo → List IterationInfo → Bool
  | [], [] => true
  | info :: infos, other :: others => beq info other && beqAll infos others
  | _, _ => false

end IterationInfo

/-- `ExecTrace`: the invocation groups with the ones matched recently, and the invocations so far. -/
structure ExecTrace (α : Type) where
  groups : ShareTable α
  numInvocations : Nat

namespace ExecTrace

variable {α : Type}

/-- `ExecTrace::ExecTrace`. -/
def new : ExecTrace α where
  groups := ShareTable.empty
  numInvocations := 0

/-- `ExecTrace::clearTrace`. -/
def clearTrace (t : ExecTrace α) : ExecTrace α :=
  { t with groups := ShareTable.empty }

end ExecTrace

/-- `ExecTrace::clearTrace` on every trace of a table. -/
def clearTraces {α : Type} (traces : HashTable (ExecTrace α)) : HashTable (ExecTrace α) :=
  traces.map fun item => (item.1, item.2.clearTrace)

/-- `LoopTrace`: an invocation is its list of `IterationInfo`. -/
abbrev LoopTrace := ExecTrace (List IterationInfo)

/-- `LoopTrace::invocationsMatch`. -/
def LoopTrace.invocationsMatch (inv1 inv2 : List IterationInfo) : Bool :=
  IterationInfo.beqAll inv1 inv2

/-! ## Calls -/

/-- `CallTrace`: an invocation is the control flow of one call. -/
abbrev CallTrace := ExecTrace ControlFlowCompressor

namespace CallTrace

/-- `CallTrace::invocationsMatch`. -/
def invocationsMatch (inv1 inv2 : ControlFlowCompressor) : Bool :=
  inv1.beq inv2

/-- The loop of `CallTrace::operator==`.  The sharer offsets are not compared. -/
def beqInfos : List (SharedInfo ControlFlowCompressor) → List (SharedInfo ControlFlowCompressor) →
    Bool
  | [], [] => true
  | info1 :: infos1, info2 :: infos2 =>
      invocationsMatch info1.payload info2.payload && info1.sharers.equal info2.sharers &&
        beqInfos infos1 infos2
  | _, _ => false

/-- `CallTrace::operator==`. -/
def beq (t other : CallTrace) : Bool :=
  beqInfos t.groups.infos other.groups.infos

end CallTrace

/-- `callTraces`: the call traces of one loop invocation by call ID. -/
abbrev CallTraces := HashTable CallTrace

namespace CallTraces

/-- `LoopInvocationCallInfo::isEqual`.  The numbers of items are compared as `int`s: a table has fewer
than `2 ^ 32` of them. -/
def isEqual (newCallTraces callTraces : CallTraces) : Bool :=
  newCallTraces.length == callTraces.length &&
    newCallTraces.all fun item =>
      match callTraces.lookup item.1 with
      | some trace => trace.beq item.2
      | none => false

/-- `LoopInvocationCallInfo::getNumTraces`: the call IDs with a group. -/
def getNumTraces (callTraces : CallTraces) : Nat :=
  callTraces.countP fun item => 0 < item.2.groups.infos.length

end CallTraces

/-- `LoopInvocationCallInfo`: the sharers are loop invocation numbers. -/
abbrev LoopInvocationCallInfo := SharedInfo CallTraces

end CamAlias
