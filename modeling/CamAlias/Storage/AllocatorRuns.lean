import CamAlias.Storage.Accounting

/-!
# AllocatorRuns — the accounts over a whole run

Any sequence of operations of `MemoryAllocator` on live objects.

* `Accounted.step`: every operation keeps the accounts, or a fault inside xanlib ends the program;
* `Accounted.states`: so does every sequence of them;
* `accounting_exact`: `memUsed`, the running maximum and the assertions.

A block of `2 ^ 64 - 8` bytes is recorded with size 0, which `freedMem` does not accept
(`not_exact_wrapped_block`).  A table of `2 ^ 31` items is counted as negative, so `freeHashTable` and
`hashTableEmptyOutTable` do not refund its items.
-/

namespace CamAlias

open Lib XanHashTable Allocator

/-- An operation of `MemoryAllocator`; an item is given by its reference or its place. -/
inductive AllocOp
  | allocMem (size : UInt64)
  | freeMem (mem : Pointer)
  | newMem (size : ClassSize)
  | deleteMem (mem : Pointer)
  | allocHashTable (length : Nat)
  | allocHashTableWith (hashFunction : Pointer → UInt32)
  | freeHashTable (table : Pointer)
  | freeHashTableAndData (table : Pointer)
  | freeHashTableAndKey (table : Pointer)
  | freeHashTableKeyAndData (table : Pointer)
  | hashTableInsert (table key element : Pointer)
  | hashTableRemoveItem (table : Pointer) (item : ItemReference)
  | hashTableEmptyOutTable (table : Pointer)
  | hashTableEmptyOutTableFreeData (table : Pointer)
  | allocStack
  | freeStack (stack : Pointer)
  | stackPush (stack element : Pointer)
  | stackPop (stack : Pointer)
  | stackToList (stack : Pointer)
  | allocBitSet (length : Nat)
  | freeBitSet (bitset : Pointer)
  | setBit (bitset : Pointer) (pos : Nat)
  | allocList
  | freeList (list : Pointer)
  | listAppend (list element : Pointer)
  | listDeleteItem (list : Pointer) (item : Nat)
  | listEmptyOutList (list : Pointer)

namespace AllocOp

def step (L : Layout) (s : Allocator) : AllocOp → Except Stop Allocator
  | allocMem size => .ok (s.allocMem size)
  | freeMem mem => s.freeMem mem
  | newMem size => .ok (s.newMem size)
  | deleteMem mem => s.deleteMem mem
  | allocHashTable length => s.allocHashTable L length
  | allocHashTableWith hashFunction => s.allocHashTableWith L hashFunction
  | freeHashTable table => s.freeHashTable L table
  | freeHashTableAndData table => s.freeHashTableAndData L table
  | freeHashTableAndKey table => s.freeHashTableAndKey L table
  | freeHashTableKeyAndData table => s.freeHashTableKeyAndData L table
  | hashTableInsert table key element => s.hashTableInsert L table key element
  | hashTableRemoveItem table item => s.hashTableRemoveItem L table item
  | hashTableEmptyOutTable table => s.hashTableEmptyOutTable L table
  | hashTableEmptyOutTableFreeData table => s.hashTableEmptyOutTableFreeData L table
  | allocStack => .ok (s.allocStack L)
  | freeStack stack => s.freeStack L stack
  | stackPush stack element => s.stackPush L stack element
  | stackPop stack => s.stackPop L stack
  | stackToList stack => s.stackToList L stack
  | allocBitSet length => s.allocBitSet L length
  | freeBitSet bitset => s.freeBitSet L bitset
  | setBit bitset pos => s.setBit bitset pos
  | allocList => .ok (s.allocList L)
  | freeList list => s.freeList L list
  | listAppend list element => s.listAppend L list element
  | listDeleteItem list item => s.listDeleteItem L list item
  | listEmptyOutList list => s.listEmptyOutList L list

/-- There is a live table, of which this holds. -/
def LiveTable (s : Allocator) (table : Pointer) (P : XanHashTable Pointer Pointer → Prop) : Prop :=
  ∃ hash t, s.object table = some (.hashTable hash t) ∧ P t

/-- Only live objects are freed, popped, removed or grown. -/
def Live (s : Allocator) : AllocOp → Prop
  | freeMem mem => ∃ size, s.object mem = some (.block size)
  | deleteMem mem => ∃ size, s.object mem = some (.instance size)
  | freeHashTable table => LiveTable s table fun _ => True
  | freeHashTableAndData table =>
      LiveTable s table fun t => FreesLive (fun _ element => [element]) s (entries t)
  | freeHashTableAndKey table =>
      LiveTable s table fun t => FreesLive (fun key _ => [key]) s (entries t)
  | freeHashTableKeyAndData table =>
      LiveTable s table fun t => FreesLive (fun key element => [key, element]) s (entries t)
  | hashTableInsert table _ _ => LiveTable s table fun _ => True
  | hashTableRemoveItem table item => LiveTable s table fun t => (t.itemAt item).isSome = true
  | hashTableEmptyOutTable table => LiveTable s table fun _ => True
  | hashTableEmptyOutTableFreeData table =>
      LiveTable s table fun t => FreesLive (fun _ element => [element]) s (entries t)
  | freeStack stack => ∃ items, s.object stack = some (.stack items)
  | stackPush stack _ => ∃ items, s.object stack = some (.stack items)
  | stackPop stack => ∃ items, s.object stack = some (.stack items) ∧ items ≠ []
  | stackToList stack => ∃ items, s.object stack = some (.stack items)
  | freeBitSet bitset => ∃ set, s.object bitset = some (.bitSet set)
  | setBit bitset _ => ∃ set, s.object bitset = some (.bitSet set)
  | freeList list => ∃ items, s.object list = some (.list items)
  | listAppend list _ => ∃ items, s.object list = some (.list items)
  | listDeleteItem list item =>
      ∃ items, s.object list = some (.list items) ∧ item < items.length
  | listEmptyOutList list => ∃ items, s.object list = some (.list items)
  | _ => True

/-- The size of a block with its header, and the number of items that are freed at once, do not
wrap around. -/
def Counted (s : Allocator) : AllocOp → Prop
  | allocMem size => size + 8 ≠ 0
  | freeHashTable table | hashTableEmptyOutTable table =>
      ∀ hash t, s.object table = some (.hashTable hash t) → itemCount t < 2 ^ 31
  | _ => True

/-- The states a sequence of operations reaches. -/
def states (L : Layout) : List AllocOp → Allocator → List Allocator
  | [], s => [s]
  | op :: ops, s =>
      s :: match op.step L s with
        | .ok s' => states L ops s'
        | .error _ => []

/-- What ends the program, if anything does. -/
def stop (L : Layout) : List AllocOp → Allocator → Option Stop
  | [], _ => none
  | op :: ops, s =>
      match op.step L s with
      | .ok s' => stop L ops s'
      | .error e => some e

/-- Every operation is on live objects. -/
def LiveRun (L : Layout) : List AllocOp → Allocator → Prop
  | [], _ => True
  | op :: ops, s => op.Live s ∧ ∀ s', op.step L s = .ok s' → LiveRun L ops s'

/-- Nothing that is counted wraps around: no size of a block, no number of items, and not the total
of what is live. -/
def CountedRun (L : Layout) : List AllocOp → Allocator → Prop
  | [], _ => True
  | op :: ops, s =>
      op.Counted s ∧ ∀ s', op.step L s = .ok s' → s'.recorded L < 2 ^ 64 ∧ CountedRun L ops s'

/-- `memUsed` is the total of what is live, `maxMemUsed` the running maximum, and the assertions
hold. -/
structure Exact (L : Layout) (ops : List AllocOp) : Prop where
  memUsed : ∀ s ∈ states L ops {}, s.memUsed.toNat = s.recorded L
  maxMemUsed : ∀ i s, (states L ops {})[i]? = some s →
    s.maxMemUsed.toNat = (((states L ops {}).take (i + 1)).map fun s => s.memUsed.toNat).foldl max 0
  allFreed : ∀ s ∈ states L ops {}, (∀ slot ∈ s.heap, slot = none) → s.memUsed = 0
  stop : ∀ e, stop L ops {} = some e → ∃ fault, e = .xanlib fault

end AllocOp

namespace Allocator

open AllocOp

variable {L : Layout} {s : Allocator}

theorem Accounted.step (h : Accounted L s) (op : AllocOp) (hlive : op.Live s)
    (hcounted : op.Counted s) (hfits : Fits L (op.step L s)) : Keeps L s (op.step L s) := by
  cases op with
  | allocMem size => exact Keeps.of_step (h.allocMem hcounted (hfits _ rfl))
  | freeMem mem =>
      rcases hlive with ⟨size, hobject⟩
      rcases h.freeMem hobject with ⟨s', hfree, -, hrefund⟩
      exact Keeps.of_refund h ⟨s', hfree, hrefund⟩
  | newMem size => exact Keeps.of_step (h.newMem size (hfits _ rfl))
  | deleteMem mem =>
      rcases hlive with ⟨size, hobject⟩
      exact Keeps.of_refund h (h.deleteMem hobject)
  | allocHashTable length => exact h.allocTable UInt32.ofNat length hfits
  | allocHashTableWith hashFunction => exact h.allocTable hashFunction 11 hfits
  | freeHashTable table =>
      rcases hlive with ⟨hash, t, hobject, -⟩
      exact Keeps.of_refund h (h.freeHashTable hobject (hcounted hash t hobject))
  | freeHashTableAndData table =>
      rcases hlive with ⟨hash, t, hobject, hblocks⟩
      exact Keeps.of_refund h (h.freeHashTableAnd hobject hblocks)
  | freeHashTableAndKey table =>
      rcases hlive with ⟨hash, t, hobject, hblocks⟩
      exact Keeps.of_refund h (h.freeHashTableAnd hobject hblocks)
  | freeHashTableKeyAndData table =>
      rcases hlive with ⟨hash, t, hobject, hblocks⟩
      exact Keeps.of_refund h (h.freeHashTableAnd hobject hblocks)
  | hashTableInsert table key element =>
      rcases hlive with ⟨hash, t, hobject, -⟩
      exact h.hashTableInsert hobject hfits
  | hashTableRemoveItem table item =>
      rcases hlive with ⟨hash, t, hobject, hpresent⟩
      rcases h.wellFormed table _ hobject with ⟨xs, hholds⟩
      rcases Option.isSome_iff_exists.1 hpresent with ⟨target, hitem⟩
      rcases h.hashTableRemoveItem hobject hholds hitem with ⟨t', s', hremove, -, hrefund, -⟩
      exact Keeps.of_refund h ⟨s', hremove, hrefund⟩
  | hashTableEmptyOutTable table =>
      rcases hlive with ⟨hash, t, hobject, -⟩
      exact Keeps.of_refund h (h.hashTableEmptyOutTable hobject (hcounted hash t hobject))
  | hashTableEmptyOutTableFreeData table =>
      rcases hlive with ⟨hash, t, hobject, hblocks⟩
      rcases h.removeAllItems hobject hblocks with ⟨t', s', hloop, hrefund, -⟩
      exact Keeps.of_refund h ⟨s', hloop, hrefund⟩
  | allocStack => exact h.allocStack hfits
  | freeStack stack =>
      rcases hlive with ⟨items, hobject⟩
      exact Keeps.of_refund h (h.freeStack hobject)
  | stackPush stack element =>
      rcases hlive with ⟨items, hobject⟩
      exact h.stackPush hobject hfits
  | stackPop stack =>
      rcases hlive with ⟨items, hobject, hpresent⟩
      exact Keeps.of_refund h (h.stackPop hobject hpresent)
  | stackToList stack =>
      rcases hlive with ⟨items, hobject⟩
      exact h.stackToList hobject hfits
  | allocBitSet length => exact h.allocBitSet hfits
  | freeBitSet bitset =>
      rcases hlive with ⟨set, hobject⟩
      exact Keeps.of_refund h (h.freeBitSet hobject)
  | setBit bitset pos =>
      rcases hlive with ⟨set, hobject⟩
      exact h.setBit hobject hfits
  | allocList => exact h.allocList hfits
  | freeList list =>
      rcases hlive with ⟨items, hobject⟩
      exact Keeps.of_refund h (h.freeList hobject)
  | listAppend list element =>
      rcases hlive with ⟨items, hobject⟩
      exact h.listAppend hobject hfits
  | listDeleteItem list item =>
      rcases hlive with ⟨items, hobject, hitem⟩
      exact Keeps.of_refund h (h.listDeleteItem hobject hitem)
  | listEmptyOutList list =>
      rcases hlive with ⟨items, hobject⟩
      exact Keeps.of_refund h (h.listEmptyOutList hobject)

/-- A sequence starts in its first state. -/
theorem states_eq_cons (ops : List AllocOp) (s : Allocator) :
    ∃ rest, states L ops s = s :: rest := by
  cases ops with
  | nil => exact ⟨[], rfl⟩
  | cons op ops => exact ⟨_, rfl⟩

/-- The accounts are kept in every state that is reached, and only xanlib ends the program. -/
theorem Accounted.states (ops : List AllocOp) : ∀ {s : Allocator}, Accounted L s →
    LiveRun L ops s → CountedRun L ops s →
    (∀ s' ∈ AllocOp.states L ops s, Accounted L s') ∧
      ∀ e, AllocOp.stop L ops s = some e → ∃ fault, e = .xanlib fault := by
  induction ops with
  | nil =>
      intro s h _ _
      refine ⟨fun s' hs' => ?_, fun e he => by cases he⟩
      rcases List.mem_singleton.1 hs' with rfl
      exact h
  | cons op ops ih =>
      intro s h hlive hcounted
      rw [AllocOp.states, AllocOp.stop]
      rcases h.step op hlive.1 hcounted.1 fun s' hs' => (hcounted.2 s' hs').1
        with ⟨s', hstep, hs'⟩ | ⟨fault, hstep⟩
      · rcases ih hs'.accounted (hlive.2 s' hstep) (hcounted.2 s' hstep).2 with ⟨hall, hstop⟩
        simp only [hstep]
        exact ⟨List.forall_mem_cons.2 ⟨h, hall⟩, hstop⟩
      · simp only [hstep]
        refine ⟨List.forall_mem_cons.2 ⟨h, by simp⟩, fun e he => ⟨fault, ?_⟩⟩
        exact (Option.some.inj he).symm

/-- `maxMemUsed` is the largest `memUsed` on the way. -/
theorem Accounted.maxMemUsed (ops : List AllocOp) : ∀ {s : Allocator}, Accounted L s →
    LiveRun L ops s → CountedRun L ops s →
    ∀ i s', (AllocOp.states L ops s)[i]? = some s' →
      s'.maxMemUsed.toNat = (((AllocOp.states L ops s).take (i + 1)).map
        fun s => s.memUsed.toNat).foldl max s.maxMemUsed.toNat := by
  induction ops with
  | nil =>
      intro s h _ _ i s' hs'
      cases i with
      | zero =>
          rcases Option.some.inj hs' with rfl
          exact (Nat.max_eq_left h.le_max).symm
      | succ i => simp [AllocOp.states] at hs'
  | cons op ops ih =>
      intro s h hlive hcounted i s' hs'
      rw [AllocOp.states] at hs' ⊢
      have hfirst : max s.maxMemUsed.toNat s.memUsed.toNat = s.maxMemUsed.toNat :=
        Nat.max_eq_left h.le_max
      cases i with
      | zero =>
          rcases Option.some.inj hs' with rfl
          exact hfirst.symm
      | succ i =>
          rw [List.take_succ_cons, List.map_cons, List.foldl_cons, hfirst]
          rw [List.getElem?_cons_succ] at hs'
          rcases h.step op hlive.1 hcounted.1 fun s₁ hs₁ => (hcounted.2 s₁ hs₁).1
            with ⟨s₁, hstep, hs₁⟩ | ⟨fault, hstep⟩
          · simp only [hstep] at hs' ⊢
            rw [ih hs₁.accounted (hlive.2 s₁ hstep) (hcounted.2 s₁ hstep).2 i s' hs', hs₁.max_eq]
            -- the next state comes first in the rest of the run
            rcases states_eq_cons (L := L) ops s₁ with ⟨rest, hrest⟩
            rw [hrest, List.take_succ_cons, List.map_cons, List.foldl_cons, List.foldl_cons,
              Nat.max_assoc, Nat.max_self]
          · simp [hstep] at hs'

theorem accounted_empty : Accounted L {} where
  exact := rfl
  le_max := Nat.le_refl _
  wellFormed := by
    intro p o hobject
    simp [object] at hobject

end Allocator

open AllocOp

/-- In every run on live objects in which nothing that is counted wraps around, the accounts are
exact. -/
theorem accounting_exact {L : Layout} {ops : List AllocOp} (hlive : LiveRun L ops {})
    (hcounted : CountedRun L ops {}) : Exact L ops := by
  rcases accounted_empty.states ops hlive hcounted with ⟨hall, hstop⟩
  refine ⟨fun s hs => (hall s hs).exact, accounted_empty.maxMemUsed ops hlive hcounted, ?_, hstop⟩
  intro s hs hfreed
  have hzero : s.memUsed.toNat = 0 := by
    rw [(hall s hs).exact]
    exact totalSize_eq_zero hfreed
  exact UInt64.toNat_inj.1 hzero

/-- A block that is freed, and a stack that stays. -/
theorem accounting_exact_freed :
    Exact ⟨48, 32, 16, 24, 32, 24, by decide, by decide, by decide, by decide, by decide, by decide⟩
      [.allocMem 8, .allocStack, .stackPush 1 7, .freeMem 0] := by
  refine accounting_exact ?_ ?_
  · refine ⟨trivial, fun s₁ h₁ => ⟨trivial, fun s₂ h₂ => ?_⟩⟩
    rcases Except.ok.inj h₁ with rfl
    rcases Except.ok.inj h₂ with rfl
    refine ⟨⟨[], rfl⟩, fun s₃ h₃ => ⟨⟨16, ?_⟩, fun s₄ _ => trivial⟩⟩
    rcases Except.ok.inj h₃ with rfl
    rfl
  · refine ⟨(by decide : (8 : UInt64) + 8 ≠ 0), fun s₁ h₁ => ?_⟩
    rcases Except.ok.inj h₁ with rfl
    refine ⟨by decide, trivial, fun s₂ h₂ => ?_⟩
    rcases Except.ok.inj h₂ with rfl
    refine ⟨by decide, trivial, fun s₃ h₃ => ?_⟩
    rcases Except.ok.inj h₃ with rfl
    refine ⟨by decide, trivial, fun s₄ h₄ => ?_⟩
    rcases Except.ok.inj h₄ with rfl
    exact ⟨by decide, trivial⟩

/-- A block of `2 ^ 64 - 8` bytes cannot be freed. -/
theorem not_exact_wrapped_block : ¬ ∀ L ops, LiveRun L ops {} → Exact L ops := by
  intro h
  let L : Layout :=
    ⟨48, 32, 16, 24, 32, 24, by decide, by decide, by decide, by decide, by decide, by decide⟩
  have hlive : LiveRun L [.allocMem 18446744073709551608, .freeMem 0] {} := by
    refine ⟨trivial, fun s₁ h₁ => ?_⟩
    rcases Except.ok.inj h₁ with rfl
    exact ⟨⟨_, rfl⟩, fun s₂ _ => trivial⟩
  have hstop : stop L [.allocMem 18446744073709551608, .freeMem 0] {} = some .assertFailed := by
    decide +kernel
  rcases (h L _ hlive).stop .assertFailed hstop with ⟨fault, hfault⟩
  cases hfault

end CamAlias
