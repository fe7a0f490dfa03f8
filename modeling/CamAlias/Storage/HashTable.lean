import CamAlias.Analyser.CompressionPattern
import CamAlias.Lib.Multimap
import CamAlias.Tracer.BitSet
import Mathlib.Data.Rat.Defs

/-!
# HashTable — the hash tables of `xantable.c`

An array of buckets; the first item of a bucket lies in the array itself, the others in a chain
behind it.  When three quarters of the buckets are in use, the items move to an array of the next
prime length.  An item is referred to by its bucket and its place in it.
-/

namespace CamAlias

/-- `XanHashTableItem` in use. -/
structure XanHashTableItem (κ ε : Type) where
  index : Nat
  elementID : κ
  element : ε
  deriving DecidableEq, Repr

/-- A place of the array: not `used`, or an item and the chain at its `next`. -/
abbrev XanHashTableBucket (κ ε : Type) :=
  Option (XanHashTableItem κ ε × List (XanHashTableItem κ ε))

/-- `XanHashTable`; `hasFixedLength` is false. -/
structure XanHashTable (κ ε : Type) where
  table : List (XanHashTableBucket κ ε)
  primeIndex : Nat
  length : Nat
  size : UInt32
  currentLoadFactor : Rat

/-- The sizes of the arrays. -/
def primes : List Nat :=
  [53, 97, 193, 389,
    769, 1543, 3079, 6151,
    12289, 24593, 49157, 98317,
    196613, 393241, 786433, 1572869,
    3145739, 6291469, 12582917, 25165843,
    50331653, 100663319, 201326611, 402653189,
    805306457, 1610612741]

/-- `HASHTABLE_DEFAULT_LOAD_FACTOR`. -/
def defaultLoadFactor : Rat := 3 / 4

/-- `_xanHashTableImproveHash`, behind the call of the hash function. -/
def improveHash (i : UInt32) : UInt32 :=
  let i := i + ~~~(i <<< 9)
  let i := i ^^^ ((i >>> 14) ||| (i <<< 18))
  let i := i + (i <<< 4)
  i ^^^ ((i >>> 10) ||| (i <<< 22))

variable {κ ε : Type}

/-- The bucket of a key in an array of some length. -/
def bucketPosition (hash : κ → UInt32) (length : Nat) (key : κ) : Nat :=
  (improveHash (hash key)).toNat % length

namespace XanHashTableBucket

/-- The items of a bucket, the one in the array first. -/
def items : XanHashTableBucket κ ε → List (XanHashTableItem κ ε)
  | none => []
  | some (bucket, next) => bucket :: next

/-- Put an item into a free place, or at the end of the chain. -/
def place (item : XanHashTableItem κ ε) : XanHashTableBucket κ ε → XanHashTableBucket κ ε
  | none => some (item, [])
  | some (bucket, next) => some (bucket, next ++ [item])

/-- What is left when the item in the array is removed: the first of the chain moves into its
place. -/
def removeHead : List (XanHashTableItem κ ε) → XanHashTableBucket κ ε
  | [] => none
  | tempBucket :: next => some (tempBucket, next)

end XanHashTableBucket

namespace XanHashTable

/-- `xanHashTable_new`.  Without a prime above `length` the array has no length. -/
def new (length : Nat) : Except Fault (XanHashTable κ ε) :=
  match primes.findIdx? fun prime => length < prime with
  | none => .error .outOfRange
  | some count =>
      let length := primes.getD count 0
      .ok
        { table := List.replicate length none
          primeIndex := count
          length
          size := 0
          currentLoadFactor := 0 }

/-- The loop body of `_xanHashTableExpand`: the array and the number of its used places. -/
def rehash (hash : κ → UInt32) (newLength : Nat) (newTable : List (XanHashTableBucket κ ε) × Nat)
    (item : XanHashTableItem κ ε) : List (XanHashTableBucket κ ε) × Nat :=
  let newIndex := bucketPosition hash newLength item.elementID
  (newTable.1.modify newIndex (XanHashTableBucket.place { item with index := newIndex }),
    match newTable.1[newIndex]? with
    | some none => newTable.2 + 1
    | _ => newTable.2)

/-- `_xanHashTableExpand`. -/
def expand (hash : κ → UInt32) (t : XanHashTable κ ε) : Except Fault (XanHashTable κ ε) :=
  match primes[t.primeIndex + 1]? with
  | none => .error .outOfRange
  | some newLength =>
      let newTable : List (XanHashTableBucket κ ε) × Nat := t.table.foldl
        (fun newTable bucket => bucket.items.foldl (rehash hash newLength) newTable)
        (List.replicate newLength none, 0)
      .ok
        { t with
          table := newTable.1
          length := newLength
          primeIndex := t.primeIndex + 1
          currentLoadFactor := newTable.2 / newLength }

/-- `xanHashTable_insert`, behind the check for free space. -/
def insertItem (hash : κ → UInt32) (t : XanHashTable κ ε) (key : κ) (element : ε) :
    XanHashTable κ ε :=
  let position := bucketPosition hash t.length key
  { t with
    table := t.table.modify position
      (XanHashTableBucket.place { index := position, elementID := key, element })
    currentLoadFactor :=
      match t.table[position]? with
      | some none => t.currentLoadFactor + 1 / t.length
      | _ => t.currentLoadFactor
    size := t.size + 1 }

/-- `xanHashTable_insert`. -/
def insert (hash : κ → UInt32) (t : XanHashTable κ ε) (key : κ) (element : ε) :
    Except Fault (XanHashTable κ ε) :=
  (if defaultLoadFactor ≤ t.currentLoadFactor then t.expand hash else .ok t).map fun t =>
    t.insertItem hash key element

/-- `if (bucket->next != NULL) .. else ..` where the item in the array is removed. -/
def removeFromArray (t : XanHashTable κ ε) (position : Nat)
    (next : List (XanHashTableItem κ ε)) : XanHashTable κ ε :=
  { t with
    table := t.table.set position (XanHashTableBucket.removeHead next)
    currentLoadFactor :=
      if next.isEmpty then t.currentLoadFactor - 1 / t.length else t.currentLoadFactor
    size := t.size - 1 }

/-- The removal of a chained item. -/
def removeFromChain (t : XanHashTable κ ε) (position : Nat) (bucket : XanHashTableItem κ ε)
    (next : List (XanHashTableItem κ ε)) : XanHashTable κ ε :=
  { t with table := t.table.set position (some (bucket, next)), size := t.size - 1 }

section Keys

variable [DecidableEq κ]

/-- `bucket->element = element` at the first item with the key. -/
def replaceIn (key : κ) (element : ε) :
    List (XanHashTableItem κ ε) → List (XanHashTableItem κ ε)
  | [] => []
  | bucket :: next =>
      if bucket.elementID = key then { bucket with element } :: next
      else bucket :: replaceIn key element next

/-- The item in the array is looked at first, then the chain. -/
def replaceInBucket (key : κ) (element : ε) : XanHashTableBucket κ ε → XanHashTableBucket κ ε
  | none => none
  | some (bucket, next) =>
      if bucket.elementID = key then some ({ bucket with element }, next)
      else some (bucket, replaceIn key element next)

/-- `xanHashTable_replace`. -/
def replace (hash : κ → UInt32) (t : XanHashTable κ ε) (key : κ) (element : ε) :
    XanHashTable κ ε :=
  { t with
    table := t.table.modify (bucketPosition hash t.length key) (replaceInBucket key element) }

/-- `xanHashTable_lookup`; `none` is `NULL`. -/
def lookup (hash : κ → UInt32) (t : XanHashTable κ ε) (key : κ) : Option ε :=
  match t.table[bucketPosition hash t.length key]? with
  | some (some (bucket, next)) =>
      if bucket.elementID = key then some bucket.element
      else (next.find? fun bucket => bucket.elementID = key).map XanHashTableItem.element
  | _ => none

/-- `xanHashTable_removeElement`: the key of the removed item, and the table without it. -/
def removeElement (hash : κ → UInt32) (t : XanHashTable κ ε) (key : κ) :
    Except Fault (κ × XanHashTable κ ε) :=
  let position := bucketPosition hash t.length key
  match t.table[position]? with
  | none => .error .outOfRange
  | some none => .error .abort
  | some (some (bucket, next)) =>
      -- what is returned is the key, not the element
      if bucket.elementID = key then .ok (bucket.elementID, t.removeFromArray position next)
      else if next.isEmpty then .error .assertFailed
      else
        match next.find? fun bucket => bucket.elementID = key with
        | none => .error .abort
        | some removed =>
            .ok (removed.elementID, t.removeFromChain position bucket
              (next.eraseP fun bucket => bucket.elementID = key))

end Keys

/-- `xanHashTable_elementsInside`. -/
def elementsInside (t : XanHashTable κ ε) : Int :=
  toInt32 t.size.toNat

/-! ## References -/

/-- `XanHashTableItem*`: the bucket, and the place in it. -/
abbrev ItemReference := Nat × Nat

/-- The item behind a pointer. -/
def itemAt (t : XanHashTable κ ε) (item : ItemReference) : Option (XanHashTableItem κ ε) :=
  t.table[item.1]?.bind fun bucket => bucket.items[item.2]?

/-- `xanHashTable_removeItem`. -/
def removeItem (t : XanHashTable κ ε) (item : ItemReference) :
    Except Fault (XanHashTable κ ε) :=
  match t.itemAt item with
  | none => .error .outOfRange
  | some target =>
      match t.table[target.index]? with
      | none => .error .outOfRange
      | some none => .error .assertFailed
      | some (some (bucket, next)) =>
          -- the pointer is compared with the head of the bucket
          if item = (target.index, 0) then .ok (t.removeFromArray target.index next)
          else if next.isEmpty then .error .assertFailed
          else if item.1 = target.index then
            .ok (t.removeFromChain target.index bucket (next.eraseIdx (item.2 - 1)))
          else .ok t

/-- `xanHashTable_emptyOutTable`. -/
def emptyOutTable (t : XanHashTable κ ε) : Except Fault (XanHashTable κ ε) :=
  if t.table.zipIdx.all fun b => (b.1.map fun bucket => bucket.1.index == b.2).getD true then
    .ok { t with table := t.table.map fun _ => none, currentLoadFactor := 0, size := 0 }
  else .error .assertFailed

/-- The first used place of the array from `count` on. -/
def firstUsed (t : XanHashTable κ ε) (count : Nat) : Option ItemReference :=
  ((t.table.drop count).findIdx? Option.isSome).map fun i => (count + i, 0)

/-- `xanHashTable_first`; `none` is `NULL`. -/
def first (t : XanHashTable κ ε) : Option ItemReference :=
  t.firstUsed 0

/-- `xanHashTable_next`. -/
def next (t : XanHashTable κ ε) (item : ItemReference) : Except Fault (Option ItemReference) :=
  match t.itemAt item with
  | none => .error .outOfRange
  | some target =>
      if (t.itemAt (item.1, item.2 + 1)).isSome then .ok (some (item.1, item.2 + 1))
      else .ok (t.firstUsed (target.index + 1))

/-- `while (item != NULL) .. item = xanHashTable_next(table, item)`: the items visited. -/
def visit (t : XanHashTable κ ε) :
    Nat → Option ItemReference → Except Fault (List ItemReference)
  | _, none => .ok []
  | 0, some _ => .error .noFuel
  | fuel + 1, some item =>
      match t.next item with
      | .error e => .error e
      | .ok item' => (visit t fuel item').map (item :: ·)

end XanHashTable
end CamAlias
