import CamAlias.Lib.Ledger
import CamAlias.Storage.HashTableRuns
import CamAlias.Tracer.BitSetRuns

/-!
# Allocator — the memory accounting of `MemoryAllocator`

Every allocation that goes through the allocator is recorded: what is allocated adds its size to
`memUsed`, what is freed takes it off again.  The heap maps pointers to the objects that are live;
a pointer is a number that is given out once.

The sizes of the C structures are those of the platform (`Layout`).
-/

namespace CamAlias

open Lib XanHashTable

/-- `sizeof` of the structures. -/
structure Layout where
  hashTable : Nat
  hashTableItem : Nat
  stack : Nat
  list : Nat
  listItem : Nat
  bitSet : Nat
  hashTable_pos : 0 < hashTable
  hashTableItem_pos : 0 < hashTableItem
  stack_pos : 0 < stack
  list_pos : 0 < list
  listItem_pos : 0 < listItem
  bitSet_pos : 0 < bitSet

/-- `sizeof(C)` of a class. -/
structure ClassSize where
  bytes : UInt64
  bytes_pos : 0 < bytes

abbrev Pointer := Nat

/-- What lies behind a pointer. -/
inductive HeapObject
  /-- `malloc`, with the size in front of the block. -/
  | block (size : UInt64)
  /-- `new C`. -/
  | instance (size : ClassSize)
  | hashTable (hash : Pointer → UInt32) (table : XanHashTable Pointer Pointer)
  /-- `XanStack`, by its internal list. -/
  | stack (items : List Pointer)
  | list (items : List Pointer)
  | bitSet (set : XanBitWords)

/-- Where an operation ends the program: the assertions of `MemoryAllocator`, a pointer that is not
live, or a fault inside xanlib. -/
inductive Stop
  | assertFailed
  | notLive
  | xanlib (fault : Fault)
  deriving DecidableEq, Repr

/-- The outcome of a call to xanlib. -/
def xanlib {α : Type} (result : Except Fault α) : Except Stop α :=
  result.mapError Stop.xanlib

/-- The fields of `MemoryAllocator`, and the heap. -/
structure Allocator where
  memUsed : UInt64 := 0
  maxMemUsed : UInt64 := 0
  heap : List (Option HeapObject) := []

namespace Allocator

/-- The live object behind a pointer. -/
def object (s : Allocator) (p : Pointer) : Option HeapObject :=
  s.heap[p]?.join

/-- The object gets the next pointer. -/
def create (s : Allocator) (o : HeapObject) : Allocator :=
  { s with heap := s.heap ++ [some o] }

/-- The object changes, or is freed. -/
def put (s : Allocator) (p : Pointer) (o : Option HeapObject) : Allocator :=
  { s with heap := s.heap.set p o }

/-! ## Recording -/

/-- `allocatedMem`. -/
def allocatedMem (s : Allocator) (size : UInt64) : Allocator :=
  let memUsed := s.memUsed + size
  { s with memUsed, maxMemUsed := if s.maxMemUsed < memUsed then memUsed else s.maxMemUsed }

/-- `freedMem`, with its assertions. -/
def freedMem (s : Allocator) (size : UInt64) : Except Stop Allocator :=
  if 0 < size ∧ size ≤ s.memUsed then .ok { s with memUsed := s.memUsed - size }
  else .error .assertFailed

/-- `if (count > 0) freedMem(.., count * sizeof(item))`. -/
def freedItems (s : Allocator) (count : Int) (itemSize : Nat) : Except Stop Allocator :=
  if 0 < count then s.freedMem (UInt64.ofNat (count.toNat * itemSize)) else .ok s

/-! ## Blocks and instances -/

/-- `allocMem`; the block is preceded by its size. -/
def allocMem (s : Allocator) (size : UInt64) : Allocator :=
  let size := size + 8
  (s.create (.block size)).allocatedMem size

/-- `freeMem`. -/
def freeMem (s : Allocator) (mem : Pointer) : Except Stop Allocator :=
  match s.object mem with
  | some (.block size) => (s.put mem none).freedMem size
  | _ => .error .notLive

/-- `newMem`. -/
def newMem (s : Allocator) (size : ClassSize) : Allocator :=
  (s.create (.instance size)).allocatedMem size.bytes

/-- `deleteMem`. -/
def deleteMem (s : Allocator) (mem : Pointer) : Except Stop Allocator :=
  match s.object mem with
  | some (.instance size) => (s.put mem none).freedMem size.bytes
  | _ => .error .notLive

variable (L : Layout)

/-! ## Hash tables -/

/-- Both versions of `allocHashTable`. -/
def allocTable (s : Allocator) (hash : Pointer → UInt32) (length : Nat) : Except Stop Allocator :=
  (xanlib (XanHashTable.new length)).map fun table =>
    (s.create (.hashTable hash table)).allocatedMem (UInt64.ofNat L.hashTable)

/-- `allocHashTable(length)`; the hash of a pointer is the pointer. -/
def allocHashTable (s : Allocator) (length : Nat) : Except Stop Allocator :=
  s.allocTable L UInt32.ofNat length

/-- `allocHashTable(hashFunction, equalsFunction)`. -/
def allocHashTableWith (s : Allocator) (hashFunction : Pointer → UInt32) :
    Except Stop Allocator :=
  s.allocTable L hashFunction 11

/-- `freeHashTable`. -/
def freeHashTable (s : Allocator) (table : Pointer) : Except Stop Allocator :=
  match s.object table with
  | some (.hashTable _ t) => do
      let s ← s.freedItems t.elementsInside L.hashTableItem
      (s.put table none).freedMem (UInt64.ofNat L.hashTable)
  | _ => .error .notLive

/-- `hashTableInsert`. -/
def hashTableInsert (s : Allocator) (table key element : Pointer) : Except Stop Allocator :=
  match s.object table with
  | some (.hashTable hash t) =>
      (xanlib (t.insert hash key element)).map fun t =>
        (s.put table (some (.hashTable hash t))).allocatedMem (UInt64.ofNat L.hashTableItem)
  | _ => .error .notLive

/-- `hashTableRemoveItem`. -/
def hashTableRemoveItem (s : Allocator) (table : Pointer) (item : ItemReference) :
    Except Stop Allocator :=
  match s.object table with
  | some (.hashTable hash t) => do
      let t ← xanlib (t.removeItem item)
      (s.put table (some (.hashTable hash t))).freedMem (UInt64.ofNat L.hashTableItem)
  | _ => .error .notLive

/-- `hashTableEmptyOutTable`. -/
def hashTableEmptyOutTable (s : Allocator) (table : Pointer) : Except Stop Allocator :=
  match s.object table with
  | some (.hashTable hash t) => do
      let s ← s.freedItems t.elementsInside L.hashTableItem
      let t ← xanlib t.emptyOutTable
      .ok (s.put table (some (.hashTable hash t)))
  | _ => .error .notLive

/-- `while ((item = xanHashTable_first(table)) != NULL)`: free what belongs to the item, a block of its
key or of its element or both, then remove it. -/
def removeItems (freed : Pointer → Pointer → List Pointer) (table : Pointer) :
    Nat → Allocator → Except Stop Allocator
  | fuel, s =>
      match s.object table with
      | some (.hashTable _ t) =>
          match t.first with
          | none => .ok s
          | some r =>
              match fuel, t.itemAt r with
              | fuel + 1, some item => do
                  let s ← (freed item.elementID item.element).foldlM freeMem s
                  let s ← s.hashTableRemoveItem L table r
                  removeItems freed table fuel s
              | 0, _ => .error (.xanlib .noFuel)
              | _, none => .error .notLive
      | _ => .error .notLive

/-- The number of items of a table. -/
def itemCount (t : XanHashTable Pointer Pointer) : Nat :=
  (t.table.flatMap XanHashTableBucket.items).length

/-- `removeItems` with a round for every item. -/
def removeAllItems (freed : Pointer → Pointer → List Pointer) (s : Allocator)
    (table : Pointer) : Except Stop Allocator :=
  match s.object table with
  | some (.hashTable _ t) => removeItems L freed table (itemCount t) s
  | _ => .error .notLive

/-- `hashTableEmptyOutTableFreeData`. -/
def hashTableEmptyOutTableFreeData (s : Allocator) (table : Pointer) : Except Stop Allocator :=
  s.removeAllItems L (fun _ element => [element]) table

/-- The end of `freeHashTableAndData` and its siblings. -/
def freeHashTableAnd (freed : Pointer → Pointer → List Pointer) (s : Allocator)
    (table : Pointer) : Except Stop Allocator := do
  let s ← s.removeAllItems L freed table
  (s.put table none).freedMem (UInt64.ofNat L.hashTable)

/-- `freeHashTableAndData`. -/
def freeHashTableAndData (s : Allocator) (table : Pointer) : Except Stop Allocator :=
  s.freeHashTableAnd L (fun _ element => [element]) table

/-- `freeHashTableAndKey`. -/
def freeHashTableAndKey (s : Allocator) (table : Pointer) : Except Stop Allocator :=
  s.freeHashTableAnd L (fun key _ => [key]) table

/-- `freeHashTableKeyAndData`. -/
def freeHashTableKeyAndData (s : Allocator) (table : Pointer) : Except Stop Allocator :=
  s.freeHashTableAnd L (fun key element => [key, element]) table

/-! ## Lists and stacks -/

/-- `xanList_length`: an `int`. -/
def listLength (items : List Pointer) : Int :=
  toInt32 items.length

/-- `(list->len)++; assert(list->len > 0)`. -/
def checkLength (items : List Pointer) : Except Fault (List Pointer) :=
  if 0 < listLength items then .ok items else .error .assertFailed

/-- `xanList_append`. -/
def appendItem (items : List Pointer) (element : Pointer) : Except Fault (List Pointer) :=
  checkLength (items ++ [element])

/-- `xanList_insert`. -/
def insertItem (items : List Pointer) (element : Pointer) : Except Fault (List Pointer) :=
  checkLength (element :: items)

/-- `xanList_cloneList`. -/
def cloneList (items : List Pointer) : Except Fault (List Pointer) :=
  items.foldlM appendItem []

/-- `allocStack`. -/
def allocStack (s : Allocator) : Allocator :=
  (s.create (.stack [])).allocatedMem (UInt64.ofNat L.stack)

/-- `freeStack`. -/
def freeStack (s : Allocator) (stack : Pointer) : Except Stop Allocator :=
  match s.object stack with
  | some (.stack items) => do
      let s ← s.freedItems (listLength items) L.listItem
      (s.put stack none).freedMem (UInt64.ofNat L.stack)
  | _ => .error .notLive

/-- `stackPush`. -/
def stackPush (s : Allocator) (stack element : Pointer) : Except Stop Allocator :=
  match s.object stack with
  | some (.stack items) =>
      (xanlib (insertItem items element)).map fun items =>
        (s.put stack (some (.stack items))).allocatedMem (UInt64.ofNat L.listItem)
  | _ => .error .notLive

/-- `stackPop`. -/
def stackPop (s : Allocator) (stack : Pointer) : Except Stop Allocator :=
  match s.object stack with
  | some (.stack items) => do
      let s ← s.freedMem (UInt64.ofNat L.listItem)
      .ok (s.put stack (some (.stack items.tail)))
  | _ => .error .notLive

/-- `stackToList`. -/
def stackToList (s : Allocator) (stack : Pointer) : Except Stop Allocator :=
  match s.object stack with
  | some (.stack items) =>
      (xanlib (cloneList items)).map fun items =>
        let length := listLength items
        let s := (s.create (.list items)).allocatedMem (UInt64.ofNat L.list)
        if 0 < length then s.allocatedMem (UInt64.ofNat (length.toNat * L.listItem)) else s
  | _ => .error .notLive

/-- `allocList`. -/
def allocList (s : Allocator) : Allocator :=
  (s.create (.list [])).allocatedMem (UInt64.ofNat L.list)

/-- `freeList`. -/
def freeList (s : Allocator) (list : Pointer) : Except Stop Allocator :=
  match s.object list with
  | some (.list items) => do
      let s ← s.freedItems (listLength items) L.listItem
      (s.put list none).freedMem (UInt64.ofNat L.list)
  | _ => .error .notLive

/-- `listAppend`. -/
def listAppend (s : Allocator) (list element : Pointer) : Except Stop Allocator :=
  match s.object list with
  | some (.list items) =>
      (xanlib (appendItem items element)).map fun items =>
        (s.put list (some (.list items))).allocatedMem (UInt64.ofNat L.listItem)
  | _ => .error .notLive

/-- `listDeleteItem`; the item is given by its place. -/
def listDeleteItem (s : Allocator) (list : Pointer) (item : Nat) : Except Stop Allocator :=
  match s.object list with
  | some (.list items) =>
      if item < items.length then
        (s.put list (some (.list (items.eraseIdx item)))).freedMem (UInt64.ofNat L.listItem)
      else .error .notLive
  | _ => .error .notLive

/-- `listEmptyOutList`. -/
def listEmptyOutList (s : Allocator) (list : Pointer) : Except Stop Allocator :=
  match s.object list with
  | some (.list items) =>
      if 0 < listLength items then do
        let s ← s.freedMem (UInt64.ofNat ((listLength items).toNat * L.listItem))
        .ok (s.put list (some (.list [])))
      else .ok s
  | _ => .error .notLive

/-! ## Bit sets -/

/-- `xanBitSet_capacity`, in bytes. -/
def bitSetCapacity (set : XanBitWords) : Nat :=
  set.data.length * 8

/-- `allocBitSet`.  A length whose capacity wraps around is not followed further. -/
def allocBitSet (s : Allocator) (length : Nat) : Except Stop Allocator :=
  if FitsCapacity length then
    let set := XanBitWords.new length
    .ok ((s.create (.bitSet set)).allocatedMem (UInt64.ofNat (L.bitSet + bitSetCapacity set)))
  else .error (.xanlib .outOfRange)

/-- `freeBitSet`. -/
def freeBitSet (s : Allocator) (bitset : Pointer) : Except Stop Allocator :=
  match s.object bitset with
  | some (.bitSet set) =>
      (s.put bitset none).freedMem (UInt64.ofNat (L.bitSet + bitSetCapacity set))
  | _ => .error .notLive

/-- `setBit`. -/
def setBit (s : Allocator) (bitset : Pointer) (pos : Nat) : Except Stop Allocator :=
  match s.object bitset with
  | some (.bitSet set) =>
      if FitsCapacity (pos + 1) then
        let originalSize := bitSetCapacity set
        let set := set.setBit pos
        let newSize := bitSetCapacity set
        let s := s.put bitset (some (.bitSet set))
        if newSize < originalSize then .error .assertFailed
        else if originalSize < newSize then
          .ok (s.allocatedMem (UInt64.ofNat (newSize - originalSize)))
        else .ok s
      else .error (.xanlib .outOfRange)
  | _ => .error .notLive

end Allocator
end CamAlias
