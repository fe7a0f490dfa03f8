import CamAlias.Storage.HashTable

/-!
# HashTableRuns — hash tables are ordered multimaps

The items present, in the order they came in, are recorded beside the table.  Whatever the hash
function is, all items of one key lie in one bucket, the oldest first (`Stored`): a removal leaves
the others in their order, and an expansion moves the items of a bucket one after the other.

* `HoldsItems.insert` to `HoldsItems.emptyOutTable`: one lemma an operation;
* `Stored.visit_first`: the loop from `first` by `next`;
* `hashTable_multimap`: after any sequence of operations.

`elementsInside` converts the number of items to `int`.
-/

namespace CamAlias

open Lib XanHashTable

variable {κ ε : Type}

/-- The key and the element of an item. -/
def XanHashTableItem.entry (item : XanHashTableItem κ ε) : κ × ε :=
  (item.elementID, item.element)

/-- What a bucket holds. -/
def XanHashTableBucket.entries (bucket : XanHashTableBucket κ ε) : List (κ × ε) :=
  bucket.items.map XanHashTableItem.entry

theorem items_place (item : XanHashTableItem κ ε) (bucket : XanHashTableBucket κ ε) :
    (bucket.place item).items = bucket.items ++ [item] := by
  cases bucket with
  | none => rfl
  | some b => rfl

theorem items_removeHead (next : List (XanHashTableItem κ ε)) :
    (XanHashTableBucket.removeHead next).items = next := by
  cases next with
  | nil => rfl
  | cons b next => rfl

theorem modify_eq_set {table : List (XanHashTableBucket κ ε)}
    {f : XanHashTableBucket κ ε → XanHashTableBucket κ ε} {i : Nat}
    {bucket : XanHashTableBucket κ ε} (h : table[i]? = some bucket) :
    table.modify i f = table.set i (f bucket) := by
  refine List.ext_getElem? fun j => ?_
  rw [List.getElem?_modify, List.getElem?_set]
  rcases List.getElem?_eq_some_iff.1 h with ⟨hlt, rfl⟩
  by_cases hij : i = j
  · subst hij
    simp [hlt]
  · simp [hij]

variable [DecidableEq κ] {hash : κ → UInt32} {length : Nat}
  {table : List (XanHashTableBucket κ ε)} {xs xs' : List (κ × ε)}

/-- The buckets hold the items `xs`: each in the bucket of its key, those with one key in their
order. -/
structure Stored (hash : κ → UInt32) (length : Nat) (table : List (XanHashTableBucket κ ε))
    (xs : List (κ × ε)) : Prop where
  length_eq : table.length = length
  length_pos : 0 < length
  placed : ∀ (i : Nat) (bucket : XanHashTableBucket κ ε), table[i]? = some bucket →
    ∀ item ∈ bucket.items, item.index = i ∧ bucketPosition hash length item.elementID = i
  queues : ∀ (key : κ) (bucket : XanHashTableBucket κ ε),
    table[bucketPosition hash length key]? = some bucket →
      withKey key bucket.entries = withKey key xs

theorem Stored.position_lt (h : Stored hash length table xs) (key : κ) :
    bucketPosition hash length key < table.length := by
  rw [h.length_eq]
  exact Nat.mod_lt _ h.length_pos

theorem Stored.bucket (h : Stored hash length table xs) (key : κ) :
    ∃ bucket, table[bucketPosition hash length key]? = some bucket ∧
      withKey key bucket.entries = withKey key xs :=
  ⟨_, List.getElem?_eq_getElem (h.position_lt key),
    h.queues key _ (List.getElem?_eq_getElem (h.position_lt key))⟩

theorem Stored.congr (h : Stored hash length table xs)
    (hkeys : ∀ key, withKey key xs' = withKey key xs) : Stored hash length table xs' where
  length_eq := h.length_eq
  length_pos := h.length_pos
  placed := h.placed
  queues := fun key bucket hbucket => (h.queues key bucket hbucket).trans (hkeys key).symm

/-- Another bucket in one place. -/
theorem Stored.set (h : Stored hash length table xs) {position : Nat}
    {bucket : XanHashTableBucket κ ε}
    (hplaced : ∀ item ∈ bucket.items,
      item.index = position ∧ bucketPosition hash length item.elementID = position)
    (hin : ∀ key, bucketPosition hash length key = position →
      withKey key bucket.entries = withKey key xs')
    (hout : ∀ key, bucketPosition hash length key ≠ position →
      withKey key xs' = withKey key xs) :
    Stored hash length (table.set position bucket) xs' where
  length_eq := by rw [List.length_set, h.length_eq]
  length_pos := h.length_pos
  placed := by
    intro i bucket' hbucket' item hitem
    rw [List.getElem?_set] at hbucket'
    split at hbucket'
    · rename_i heq
      split at hbucket'
      · rcases Option.some.inj hbucket' with rfl
        rw [← heq]
        exact hplaced item hitem
      · cases hbucket'
    · exact h.placed i bucket' hbucket' item hitem
  queues := by
    intro key bucket' hbucket'
    rw [List.getElem?_set] at hbucket'
    split at hbucket'
    · rename_i heq
      split at hbucket'
      · rcases Option.some.inj hbucket' with rfl
        exact hin key heq.symm
      · cases hbucket'
    · rename_i hne
      rw [hout key (Ne.symm hne)]
      exact h.queues key bucket' hbucket'

/-! ## Insertion and expansion -/

/-- A new item goes behind those with its key. -/
theorem Stored.place (h : Stored hash length table xs) (key : κ) (element : ε) :
    Stored hash length
      (table.modify (bucketPosition hash length key)
        (XanHashTableBucket.place
          { index := bucketPosition hash length key, elementID := key, element }))
      (xs ++ [(key, element)]) := by
  rcases h.bucket key with ⟨bucket, hbucket, -⟩
  rw [modify_eq_set hbucket]
  refine h.set ?_ ?_ ?_
  · intro item hitem
    rw [items_place, List.mem_append, List.mem_singleton] at hitem
    rcases hitem with hitem | rfl
    · exact h.placed _ bucket hbucket item hitem
    · exact ⟨rfl, rfl⟩
  · intro key' hkey'
    have hqueue := h.queues key' bucket (by rw [hkey']; exact hbucket)
    rw [XanHashTableBucket.entries, items_place, List.map_append, withKey_append, withKey_append,
      ← hqueue]
    rfl
  · intro key' hkey'
    have hne : ¬ key = key' := by
      rintro rfl
      exact hkey' rfl
    rw [withKey_append, withKey_cons, if_neg hne]
    simp [withKey]

theorem stored_empty (hash : κ → UInt32) {length : Nat} (hpos : 0 < length) :
    Stored hash length (List.replicate length (none : XanHashTableBucket κ ε)) [] where
  length_eq := List.length_replicate
  length_pos := hpos
  placed := by
    intro i bucket hbucket item hitem
    rw [List.getElem?_replicate] at hbucket
    split at hbucket
    · rcases Option.some.inj hbucket with rfl
      cases hitem
    · cases hbucket
  queues := by
    intro key bucket hbucket
    rw [List.getElem?_replicate] at hbucket
    split at hbucket
    · rcases Option.some.inj hbucket with rfl
      rfl
    · cases hbucket

/-- Items that are moved one after the other. -/
theorem Stored.foldl_rehash (items : List (XanHashTableItem κ ε)) :
    ∀ (newTable : List (XanHashTableBucket κ ε) × Nat) (xs : List (κ × ε)),
      Stored hash length newTable.1 xs →
      Stored hash length (items.foldl (rehash hash length) newTable).1
        (xs ++ items.map XanHashTableItem.entry) := by
  induction items with
  | nil =>
      intro newTable xs h
      simpa using h
  | cons item items ih =>
      intro newTable xs h
      have hplaced := h.place item.elementID item.element
      have hrest := ih (rehash hash length newTable item) _ hplaced
      rw [List.append_assoc] at hrest
      exact hrest

/-- Everything that the buckets hold. -/
theorem Stored.withKey_flatten (h : Stored hash length table xs) (key : κ) :
    withKey key (table.flatMap XanHashTableBucket.entries) = withKey key xs := by
  rcases h.bucket key with ⟨bucket, hbucket, hqueue⟩
  have hdistributed : Distributed (bucketPosition hash length)
      (table.map XanHashTableBucket.entries) := by
    intro i entries hentries x hx
    rw [List.getElem?_map, Option.map_eq_some_iff] at hentries
    rcases hentries with ⟨b, hb, rfl⟩
    rcases List.mem_map.1 hx with ⟨item, hitem, rfl⟩
    exact (h.placed i b hb item hitem).2
  rw [← hqueue, List.flatMap_def]
  refine Lib.withKey_flatten hdistributed ?_
  rw [List.getElem?_map, hbucket, Option.map_some]

theorem primes_pos {i prime : Nat} (h : primes[i]? = some prime) : 0 < prime :=
  (by decide : ∀ prime ∈ primes, 0 < prime) prime (List.mem_of_getElem? h)

/-- The larger array holds the same items. -/
theorem Stored.expand {t t' : XanHashTable κ ε} (h : Stored hash t.length t.table xs)
    (hexpand : t.expand hash = .ok t') :
    Stored hash t'.length t'.table xs ∧ t'.size = t.size := by
  rw [XanHashTable.expand] at hexpand
  split at hexpand
  · cases hexpand
  · rename_i newLength hprime
    rcases Except.ok.inj hexpand with rfl
    refine ⟨?_, rfl⟩
    rw [← List.foldl_flatMap]
    have hmoved := Stored.foldl_rehash (t.table.flatMap XanHashTableBucket.items)
      (List.replicate newLength none, 0) [] (stored_empty hash (primes_pos hprime))
    refine hmoved.congr fun key => ?_
    rw [List.nil_append, List.map_flatMap]
    exact (h.withKey_flatten key).symm

/-! ## The operations -/

/-- The table stores the items, and counts them in 32 bits. -/
structure HoldsItems (hash : κ → UInt32) (t : XanHashTable κ ε) (xs : List (κ × ε)) :
    Prop where
  stored : Stored hash t.length t.table xs
  size_eq : t.size = UInt32.ofNat xs.length

variable {t t' : XanHashTable κ ε}

theorem holdsItems_new {length : Nat} (h : XanHashTable.new length = .ok t) : HoldsItems hash t [] := by
  rw [XanHashTable.new] at h
  split at h
  · cases h
  · rename_i count hcount
    rcases Except.ok.inj h with rfl
    refine ⟨stored_empty hash ?_, rfl⟩
    rcases List.findIdx?_eq_some_iff_getElem.1 hcount with ⟨hlt, -, -⟩
    exact primes_pos (i := count) (by rw [List.getD_eq_getElem?_getD,
      List.getElem?_eq_getElem hlt, Option.getD_some])

theorem ofNat_add_one (n : Nat) : UInt32.ofNat n + 1 = UInt32.ofNat (n + 1) :=
  (UInt32.ofNat_add n 1).symm

theorem ofNat_sub_one {n m : Nat} (h : n + 1 = m) : UInt32.ofNat m - 1 = UInt32.ofNat n := by
  rw [← h, ← ofNat_add_one, UInt32.add_sub_cancel]

/-- An insertion, with the expansion in front of it where there is a larger prime. -/
theorem HoldsItems.insert (h : HoldsItems hash t xs)
    (hprime : defaultLoadFactor ≤ t.currentLoadFactor → t.primeIndex + 1 < primes.length)
    (key : κ) (element : ε) :
    ∃ t', t.insert hash key element = .ok t' ∧ HoldsItems hash t' (xs ++ [(key, element)]) := by
  have hinserted : ∀ t : XanHashTable κ ε, HoldsItems hash t xs →
      HoldsItems hash (t.insertItem hash key element) (xs ++ [(key, element)]) := by
    intro t h
    refine ⟨h.stored.place key element, ?_⟩
    rw [insertItem, h.size_eq, ofNat_add_one, List.length_append]
    rfl
  rw [XanHashTable.insert]
  by_cases hload : defaultLoadFactor ≤ t.currentLoadFactor
  · rw [if_pos hload]
    obtain ⟨mid, hmid⟩ : ∃ mid, t.expand hash = .ok mid := by
      rw [XanHashTable.expand, List.getElem?_eq_getElem (hprime hload)]
      exact ⟨_, rfl⟩
    rcases h.stored.expand hmid with ⟨hstored, hsize⟩
    rw [hmid]
    exact ⟨_, rfl, hinserted mid ⟨hstored, hsize.trans h.size_eq⟩⟩
  · rw [if_neg hload]
    exact ⟨_, rfl, hinserted t h⟩

omit [DecidableEq κ] in
/-- A table that does not find a larger prime does not insert. -/
theorem prime_of_insert {key : κ} {element : ε} (h : t.insert hash key element = .ok t')
    (hfull : defaultLoadFactor ≤ t.currentLoadFactor) : t.primeIndex + 1 < primes.length := by
  rw [XanHashTable.insert, if_pos hfull, expand] at h
  cases hprime : primes[t.primeIndex + 1]? with
  | none =>
      rw [hprime] at h
      cases h
  | some newLength => exact (List.getElem?_eq_some_iff.1 hprime).1

theorem map_entry_replaceIn (key : κ) (element : ε) (items : List (XanHashTableItem κ ε)) :
    (replaceIn key element items).map XanHashTableItem.entry
      = replaceFirst key element (items.map XanHashTableItem.entry) := by
  induction items with
  | nil => rfl
  | cons item items ih =>
      by_cases hkey : item.elementID = key
      · simp [replaceIn, replaceFirst, XanHashTableItem.entry, hkey]
      · simpa [replaceIn, replaceFirst, XanHashTableItem.entry, hkey] using ih

theorem mem_replaceIn {key : κ} {element : ε} {items : List (XanHashTableItem κ ε)}
    {item : XanHashTableItem κ ε} (h : item ∈ replaceIn key element items) :
    ∃ old ∈ items, item.index = old.index ∧ item.elementID = old.elementID := by
  induction items with
  | nil => cases h
  | cons head items ih =>
      rw [replaceIn] at h
      split at h
      · rcases List.mem_cons.1 h with rfl | h
        · exact ⟨head, List.mem_cons_self, rfl, rfl⟩
        · exact ⟨item, List.mem_cons_of_mem _ h, rfl, rfl⟩
      · rcases List.mem_cons.1 h with rfl | h
        · exact ⟨item, List.mem_cons_self, rfl, rfl⟩
        · rcases ih h with ⟨old, hold, hsame⟩
          exact ⟨old, List.mem_cons_of_mem _ hold, hsame⟩

theorem items_replaceInBucket (key : κ) (element : ε) (bucket : XanHashTableBucket κ ε) :
    (replaceInBucket key element bucket).items = replaceIn key element bucket.items := by
  cases bucket with
  | none => rfl
  | some b =>
      by_cases hkey : b.1.elementID = key
      · simp [replaceInBucket, XanHashTableBucket.items, replaceIn, hkey]
      · simp [replaceInBucket, XanHashTableBucket.items, replaceIn, hkey]

/-- The oldest item of the key gets the element. -/
theorem HoldsItems.replace (h : HoldsItems hash t xs) (key : κ) (element : ε) :
    HoldsItems hash (t.replace hash key element) (replaceFirst key element xs) := by
  rcases h.stored.bucket key with ⟨bucket, hbucket, -⟩
  refine ⟨?_, by rw [length_replaceFirst]; exact h.size_eq⟩
  rw [XanHashTable.replace, modify_eq_set hbucket]
  refine h.stored.set ?_ ?_ ?_
  · intro item hitem
    rw [items_replaceInBucket] at hitem
    rcases mem_replaceIn hitem with ⟨old, hold, hindex, hkey⟩
    rw [hindex, hkey]
    exact h.stored.placed _ bucket hbucket old hold
  · intro key' hkey'
    have hqueue := h.stored.queues key bucket hbucket
    have hqueue' := h.stored.queues key' bucket (by rw [hkey']; exact hbucket)
    rw [XanHashTableBucket.entries, items_replaceInBucket, map_entry_replaceIn, withKey_replaceFirst,
      withKey_replaceFirst]
    rw [XanHashTableBucket.entries] at hqueue hqueue'
    rw [hqueue, hqueue']
  · intro key' hkey'
    have hne : ¬ key' = key := by
      rintro rfl
      exact hkey' rfl
    rw [withKey_replaceFirst, if_neg hne]

/-- A lookup gives the element of the oldest item. -/
theorem Stored.lookup (h : Stored hash t.length t.table xs) (key : κ) :
    t.lookup hash key = (withKey key xs).head? := by
  rcases h.bucket key with ⟨bucket, hbucket, hqueue⟩
  rw [← hqueue, head?_withKey, XanHashTable.lookup, hbucket]
  cases bucket with
  | none => rfl
  | some b =>
      rcases b with ⟨head, next⟩
      by_cases hkey : head.elementID = key
      · simp [XanHashTableBucket.entries, XanHashTableBucket.items, XanHashTableItem.entry, hkey]
      · simp [XanHashTableBucket.entries, XanHashTableBucket.items, XanHashTableItem.entry, hkey,
          List.find?_map, Function.comp_def]
        rfl

/-- A bucket loses an item. -/
theorem Stored.shrink (h : Stored hash length table xs) {position : Nat}
    {bucket bucket' : XanHashTableBucket κ ε} (hbucket : table[position]? = some bucket)
    (hsublist : bucket'.items.Sublist bucket.items) {key : κ}
    (hposition : bucketPosition hash length key = position) {n : Nat}
    (hentries : ∀ key', withKey key' bucket'.entries
      = if key' = key then (withKey key bucket.entries).eraseIdx n
        else withKey key' bucket.entries) :
    Stored hash length (table.set position bucket') (eraseOccurrence key n xs) := by
  have hqueue := h.queues key bucket (by rw [hposition]; exact hbucket)
  refine h.set ?_ ?_ ?_
  · exact fun item hitem => h.placed position bucket hbucket item (hsublist.subset hitem)
  · intro key' hkey'
    have hqueue' := h.queues key' bucket (by rw [hkey']; exact hbucket)
    rw [hentries, withKey_eraseOccurrence, hqueue, hqueue']
  · intro key' hkey'
    have hne : ¬ key' = key := by
      rintro rfl
      exact hkey' hposition
    rw [withKey_eraseOccurrence, if_neg hne]

/-- The removal of the oldest item of a present key. -/
theorem HoldsItems.removeElement (h : HoldsItems hash t xs) {key : κ}
    (hpresent : withKey key xs ≠ []) :
    ∃ t', t.removeElement hash key = .ok (key, t') ∧
      HoldsItems hash t' (eraseOccurrence key 0 xs) := by
  rcases h.stored.bucket key with ⟨bucket, hbucket, hqueue⟩
  have hsize : t.size - 1 = UInt32.ofNat (eraseOccurrence key 0 xs).length := by
    rw [h.size_eq]
    exact ofNat_sub_one (length_eraseOccurrence key xs 0 (List.length_pos_iff.2 hpresent))
  -- what the removal of the first item with the key leaves
  have hshrunk : ∀ bucket' : XanHashTableBucket κ ε,
      bucket'.items = bucket.items.eraseP (fun item => item.elementID = key) →
      Stored hash t.length (t.table.set (bucketPosition hash t.length key) bucket')
        (eraseOccurrence key 0 xs) := by
    intro bucket' hitems
    refine h.stored.shrink hbucket ?_ rfl ?_
    · rw [hitems]
      exact List.eraseP_sublist
    · intro key'
      have hmap : bucket'.entries = bucket.entries.eraseP fun i => i.1 = key := by
        rw [XanHashTableBucket.entries, XanHashTableBucket.entries, hitems, List.eraseP_map]
        rfl
      rw [hmap, withKey_eraseP]
  rw [← hqueue] at hpresent
  cases bucket with
  | none => exact absurd rfl hpresent
  | some b =>
      rcases b with ⟨head, next⟩
      simp only [XanHashTable.removeElement, hbucket]
      by_cases hkey : head.elementID = key
      · rw [if_pos hkey, hkey]
        refine ⟨_, rfl, hshrunk _ ?_, hsize⟩
        rw [items_removeHead]
        simp [XanHashTableBucket.items, hkey]
      · obtain ⟨item, hitem, hitemKey⟩ : ∃ item ∈ next, item.elementID = key := by
          by_contra hnone
          refine hpresent (withKey_eq_nil fun i hi => ?_)
          rcases List.mem_map.1 hi with ⟨item, hitem, rfl⟩
          rcases List.mem_cons.1 hitem with rfl | hitem
          · exact hkey
          · exact fun heq => hnone ⟨item, hitem, heq⟩
        have hnext : ¬ next.isEmpty = true := by
          rw [List.isEmpty_iff]
          exact List.ne_nil_of_mem hitem
        obtain ⟨removed, hremoved⟩ : ∃ removed,
            (next.find? fun bucket => decide (bucket.elementID = key)) = some removed := by
          rw [← Option.isSome_iff_exists, List.find?_isSome]
          exact ⟨item, hitem, by simpa using hitemKey⟩
        have hremovedKey : removed.elementID = key := by
          simpa using List.find?_some hremoved
        rw [if_neg hkey, if_neg hnext, hremoved]
        simp only [hremovedKey]
        refine ⟨_, rfl, hshrunk _ ?_, hsize⟩
        simp [XanHashTableBucket.items, hkey]

/-- How many items with the key of an item lie in front of it in its bucket. -/
def older (t : XanHashTable κ ε) (item : ItemReference) (key : κ) : Nat :=
  match t.table[item.1]? with
  | none => 0
  | some bucket => (withKey key (bucket.entries.take item.2)).length

omit [DecidableEq κ] in
theorem itemAt_eq_some {r : ItemReference} {item : XanHashTableItem κ ε}
    (h : t.itemAt r = some item) :
    ∃ bucket, t.table[r.1]? = some bucket ∧ bucket.items[r.2]? = some item :=
  Option.bind_eq_some_iff.1 h

/-- An item is as old among those with its key as its place in the bucket says. -/
theorem Stored.getElem?_older (h : Stored hash t.length t.table xs) {r : ItemReference}
    {item : XanHashTableItem κ ε} (hitem : t.itemAt r = some item) :
    (withKey item.elementID xs)[older t r item.elementID]? = some item.element := by
  rcases itemAt_eq_some hitem with ⟨bucket, hbucket, hget⟩
  have hposition := (h.placed r.1 bucket hbucket item (List.mem_of_getElem? hget)).2
  have hqueue := h.queues item.elementID bucket (by rw [hposition]; exact hbucket)
  have hentry : bucket.entries[r.2]? = some item.entry := by
    rw [XanHashTableBucket.entries, List.getElem?_map, hget, Option.map_some]
  rw [← hqueue, older, hbucket]
  exact getElem?_withKey bucket.entries hentry

/-- The removal of an item by its reference. -/
theorem HoldsItems.removeItem (h : HoldsItems hash t xs) {r : ItemReference}
    {item : XanHashTableItem κ ε} (hitem : t.itemAt r = some item) :
    ∃ t', t.removeItem r = .ok t' ∧
      HoldsItems hash t' (eraseOccurrence item.elementID (older t r item.elementID) xs) := by
  rcases r with ⟨i, j⟩
  rcases itemAt_eq_some hitem with ⟨bucket, hbucket, hget⟩
  rcases h.stored.placed i bucket hbucket item (List.mem_of_getElem? hget) with ⟨rfl, hposition⟩
  have hsize : t.size - 1
      = UInt32.ofNat (eraseOccurrence item.elementID
          (older t (item.index, j) item.elementID) xs).length := by
    rw [h.size_eq]
    refine ofNat_sub_one (length_eraseOccurrence _ xs _ ?_)
    exact (List.getElem?_eq_some_iff.1 (h.stored.getElem?_older hitem)).1
  have hentry : bucket.entries[j]? = some item.entry := by
    rw [XanHashTableBucket.entries, List.getElem?_map, hget, Option.map_some]
  have hshrunk : ∀ bucket' : XanHashTableBucket κ ε, bucket'.items = bucket.items.eraseIdx j →
      Stored hash t.length (t.table.set item.index bucket') (eraseOccurrence item.elementID
        (older t (item.index, j) item.elementID) xs) := by
    intro bucket' hitems
    refine h.stored.shrink hbucket ?_ hposition ?_
    · rw [hitems]
      exact List.eraseIdx_sublist _ _
    · intro key'
      have hmap : bucket'.entries = bucket.entries.eraseIdx j := by
        rw [XanHashTableBucket.entries, XanHashTableBucket.entries, hitems, List.eraseIdx_map]
      rw [hmap, withKey_eraseIdx key' bucket.entries hentry, older, hbucket]
      rfl
  cases bucket with
  | none => simp [XanHashTableBucket.items] at hget
  | some b =>
      rcases b with ⟨head, next⟩
      simp only [XanHashTable.removeItem, hitem, hbucket]
      -- the head of a bucket is replaced by the first item of its chain
      cases j with
      | zero =>
          rw [if_pos rfl]
          refine ⟨_, rfl, hshrunk _ ?_, hsize⟩
          rw [items_removeHead]
          rfl
      | succ j =>
          have hchain : next[j]? = some item := hget
          have hnext : ¬ next.isEmpty = true := by
            rw [List.isEmpty_iff]
            exact List.ne_nil_of_mem (List.mem_of_getElem? hchain)
          rw [if_neg (by simp), if_neg hnext, if_pos trivial]
          exact ⟨_, rfl, hshrunk _ rfl, hsize⟩

/-- The removal of all items. -/
theorem HoldsItems.emptyOutTable (h : HoldsItems hash t xs) :
    ∃ t', t.emptyOutTable = .ok t' ∧ HoldsItems hash t' [] := by
  have hindices : (t.table.zipIdx.all fun b =>
      (b.1.map fun bucket => bucket.1.index == b.2).getD true) = true := by
    rw [List.all_eq_true]
    rintro ⟨bucket, i⟩ hmem
    have hget : t.table[i]? = some bucket := by
      simpa using List.mem_zipIdx_iff_getElem?.1 hmem
    cases bucket with
    | none => rfl
    | some b => simpa using (h.stored.placed i (some b) hget b.1 List.mem_cons_self).1
  rw [XanHashTable.emptyOutTable, if_pos hindices]
  refine ⟨_, rfl, ?_, rfl⟩
  have hempty : t.table.map (fun _ => none)
      = List.replicate t.length (none : XanHashTableBucket κ ε) := by
    rw [← h.stored.length_eq, List.map_const']
  rw [hempty]
  exact stored_empty hash h.stored.length_pos

/-! ## The loop over a table -/

section Loop

omit [DecidableEq κ]

/-- The references to the items of a bucket. -/
def referencesOf (t : XanHashTable κ ε) (i : Nat) : List ItemReference :=
  (List.range ((t.table[i]?.map fun bucket => bucket.items.length).getD 0)).map fun j => (i, j)

/-- The references to the items of the buckets from `count` on. -/
def referencesFrom (t : XanHashTable κ ε) (count : Nat) : List ItemReference :=
  (List.range' count (t.table.length - count)).flatMap (referencesOf t)

theorem referencesOf_eq {i : Nat} {bucket : XanHashTableBucket κ ε}
    (h : t.table[i]? = some bucket) :
    referencesOf t i = (List.range bucket.items.length).map fun j => (i, j) := by
  rw [referencesOf, h]
  rfl

theorem referencesFrom_eq {i : Nat} {bucket : XanHashTableBucket κ ε}
    (h : t.table[i]? = some bucket) :
    referencesFrom t i
      = ((List.range bucket.items.length).map fun j => (i, j)) ++ referencesFrom t (i + 1) := by
  have hlt := (List.getElem?_eq_some_iff.1 h).1
  have hlen : t.table.length - i = t.table.length - (i + 1) + 1 := by omega
  rw [referencesFrom, hlen, List.range'_succ, List.flatMap_cons, referencesOf_eq h]
  rfl

theorem referencesFrom_end {i : Nat} (h : t.table.length ≤ i) : referencesFrom t i = [] := by
  rw [referencesFrom, Nat.sub_eq_zero_of_le h]
  rfl

theorem mem_referencesFrom (r : ItemReference) :
    r ∈ referencesFrom t 0 ↔ (t.itemAt r).isSome = true := by
  rcases r with ⟨i, j⟩
  simp only [referencesFrom, referencesOf, List.mem_flatMap, List.mem_map, List.mem_range,
    List.mem_range'_1, Prod.mk.injEq, itemAt]
  constructor
  · rintro ⟨i', -, j', hj', rfl, rfl⟩
    cases hbucket : t.table[i']? with
    | none => simp [hbucket] at hj'
    | some bucket => simpa [hbucket] using hj'
  · intro hsome
    cases hbucket : t.table[i]? with
    | none => simp [hbucket] at hsome
    | some bucket =>
        have hlt := (List.getElem?_eq_some_iff.1 hbucket).1
        refine ⟨i, ⟨Nat.zero_le _, by omega⟩, j, ?_, rfl, rfl⟩
        simpa [hbucket] using hsome

theorem nodup_referencesFrom (count : Nat) : (referencesFrom t count).Nodup := by
  refine List.nodup_flatMap.2 ⟨fun i _ => ?_, ?_⟩
  · refine List.Nodup.map ?_ List.nodup_range
    intro j j' heq
    exact congrArg Prod.snd heq
  · refine List.Pairwise.imp ?_ List.nodup_range'
    intro i i' hne r hr hr'
    rcases List.mem_map.1 hr with ⟨j, -, rfl⟩
    rcases List.mem_map.1 hr' with ⟨j', -, heq⟩
    exact hne (congrArg Prod.fst heq).symm

theorem filterMap_getElem?_range {α β : Type} (f : α → β) (xs : List α) :
    (List.range xs.length).filterMap (fun j => xs[j]?.map f) = xs.map f := by
  induction xs with
  | nil => rfl
  | cons x xs ih =>
      rw [List.length_cons, List.range_succ_eq_map, List.filterMap_cons, List.filterMap_map]
      simpa [Function.comp_def] using ih

/-- What the references refer to. -/
theorem filterMap_referencesFrom : ∀ (left count : Nat), t.table.length - count = left →
    (referencesFrom t count).filterMap (fun r => (t.itemAt r).map XanHashTableItem.entry)
      = (t.table.drop count).flatMap XanHashTableBucket.entries := by
  intro left
  induction left with
  | zero =>
      intro count hleft
      have hle : t.table.length ≤ count := by omega
      rw [referencesFrom_end hle, List.drop_eq_nil_of_le hle]
      rfl
  | succ left ih =>
      intro count hleft
      have hlt : count < t.table.length := by omega
      have hget := List.getElem?_eq_getElem hlt
      rw [referencesFrom_eq hget, List.filterMap_append, ih (count + 1) (by omega),
        List.drop_eq_getElem_cons hlt, List.flatMap_cons]
      congr 1
      have hitem : ∀ j, t.itemAt (count, j) = t.table[count].items[j]? := by
        intro j
        simp only [itemAt, hget, Option.bind_some]
      rw [List.filterMap_map]
      simp only [Function.comp_def, hitem, XanHashTableBucket.entries]
      exact filterMap_getElem?_range _ _

/-- The next used bucket, and that nothing lies between. -/
theorem firstUsed_cases : ∀ (left count : Nat), t.table.length - count = left →
    (t.firstUsed count = none ∧ referencesFrom t count = []) ∨
      ∃ (i : Nat) (bucket : XanHashTableBucket κ ε), t.firstUsed count = some (i, 0) ∧
        t.table[i]? = some bucket ∧ 0 < bucket.items.length ∧
          referencesFrom t count = referencesFrom t i := by
  intro left
  induction left with
  | zero =>
      intro count hleft
      have hle : t.table.length ≤ count := by omega
      refine Or.inl ⟨?_, referencesFrom_end hle⟩
      rw [firstUsed, List.drop_eq_nil_of_le hle]
      rfl
  | succ left ih =>
      intro count hleft
      have hlt : count < t.table.length := by omega
      have hget := List.getElem?_eq_getElem hlt
      cases hbucket : t.table[count] with
      | none =>
          rw [hbucket] at hget
          have hskip : t.firstUsed count = t.firstUsed (count + 1) := by
            rw [firstUsed, List.drop_eq_getElem_cons hlt, hbucket, List.findIdx?_cons]
            simp [firstUsed, Function.comp_def, Nat.add_assoc, Nat.add_comm 1]
          have hnone := referencesFrom_eq hget
          rw [hskip, hnone]
          exact ih (count + 1) (by omega)
      | some b =>
          rw [hbucket] at hget
          refine Or.inr ⟨count, some b, ?_, hget, Nat.succ_pos _, rfl⟩
          rw [firstUsed, List.drop_eq_getElem_cons hlt, hbucket, List.findIdx?_cons]
          rfl

end Loop

/-- From an item on the loop visits the rest of its bucket, then the buckets behind it. -/
theorem Stored.visit_item (h : Stored hash t.length t.table xs) :
    ∀ (fuel i j : Nat) (bucket : XanHashTableBucket κ ε), t.table[i]? = some bucket →
      j < bucket.items.length →
      bucket.items.length - j + (referencesFrom t (i + 1)).length ≤ fuel →
      t.visit fuel (some (i, j)) = .ok
        ((List.range' j (bucket.items.length - j)).map (fun j => (i, j))
          ++ referencesFrom t (i + 1)) := by
  intro fuel
  induction fuel with
  | zero =>
      intro i j bucket _ hj hfuel
      omega
  | succ fuel ih =>
      intro i j bucket hbucket hj hfuel
      have hitem : t.itemAt (i, j) = some bucket.items[j] := by
        simp only [itemAt, hbucket, Option.bind_some, List.getElem?_eq_getElem hj]
      have hindex := (h.placed i bucket hbucket bucket.items[j] (List.getElem_mem hj)).1
      have hlen : bucket.items.length - j = bucket.items.length - (j + 1) + 1 := by omega
      rw [visit, next, hitem]
      by_cases hmore : j + 1 < bucket.items.length
      · have hnext : (t.itemAt (i, j + 1)).isSome = true := by
          simp only [itemAt, hbucket, Option.bind_some, List.getElem?_eq_getElem hmore,
            Option.isSome_some]
        have hrest := ih i (j + 1) bucket hbucket hmore (by omega)
        simp only [hnext, if_true, hrest]
        rw [hlen, List.range'_succ]
        rfl
      · -- the chain ends here
        have hnext : (t.itemAt (i, j + 1)).isSome = false := by
          simp only [itemAt, hbucket, Option.bind_some,
            List.getElem?_eq_none_iff.2 (Nat.le_of_not_lt hmore), Option.isSome_none]
        have hlast : bucket.items.length - (j + 1) = 0 := by omega
        rw [hlen, hlast, List.range'_succ]
        simp only [hnext, hindex, Bool.false_eq_true, if_false]
        rcases firstUsed_cases _ (i + 1) rfl with
          ⟨hnone, hempty⟩ | ⟨i', bucket', hfirst, hbucket', hpos, hsame⟩
        · rw [hnone, hempty, visit]
          rfl
        · have hrest := ih i' 0 bucket' hbucket' hpos (by
            have hsum := congrArg List.length (hsame.trans (referencesFrom_eq hbucket'))
            rw [List.length_append, List.length_map, List.length_range] at hsum
            omega)
          rw [hfirst, hrest, hsame, referencesFrom_eq hbucket', List.range_eq_range']
          rfl

/-- The loop from `first` visits every item once. -/
theorem Stored.visit_first (h : Stored hash t.length t.table xs) {fuel : Nat}
    (hfuel : (referencesFrom t 0).length ≤ fuel) :
    t.visit fuel t.first = .ok (referencesFrom t 0) := by
  rcases firstUsed_cases _ 0 rfl with ⟨hnone, hempty⟩ | ⟨i, bucket, hfirst, hbucket, hpos, hsame⟩
  · rw [first, hnone, hempty]
    cases fuel <;> rfl
  · have hall := hsame.trans (referencesFrom_eq hbucket)
    have hlength := congrArg List.length hall
    rw [List.length_append, List.length_map, List.length_range] at hlength
    rw [first, hfirst, hall, List.range_eq_range']
    exact h.visit_item fuel i 0 bucket hbucket hpos (by omega)

/-- The items of the references are all items. -/
theorem HoldsItems.perm_filterMap_referencesFrom (h : HoldsItems hash t xs) :
    ((referencesFrom t 0).filterMap fun r => (t.itemAt r).map XanHashTableItem.entry).Perm xs := by
  rw [filterMap_referencesFrom _ 0 rfl, List.drop_zero]
  exact perm_of_withKey h.stored.withKey_flatten

/-! ## Sequences of operations -/

/-- An operation on a table; an item to remove is given by its reference. -/
inductive HashOp (κ ε : Type)
  | insert (key : κ) (element : ε)
  | replace (key : κ) (element : ε)
  | removeElement (key : κ)
  | removeItem (item : ItemReference)
  | emptyOutTable
  deriving DecidableEq, Repr

namespace HashOp

def step (hash : κ → UInt32) (t : XanHashTable κ ε) : HashOp κ ε → Except Fault (XanHashTable κ ε)
  | insert key element => t.insert hash key element
  | replace key element => .ok (t.replace hash key element)
  | removeElement key => (t.removeElement hash key).map Prod.snd
  | removeItem item => t.removeItem item
  | emptyOutTable => t.emptyOutTable

/-- The items present after an operation, in the order they came in. -/
def record (t : XanHashTable κ ε) (xs : List (κ × ε)) : HashOp κ ε → List (κ × ε)
  | insert key element => xs ++ [(key, element)]
  | replace key element => replaceFirst key element xs
  | removeElement key => eraseOccurrence key 0 xs
  | removeItem r =>
      match t.itemAt r with
      | none => xs
      | some item => eraseOccurrence item.elementID (older t r item.elementID) xs
  | emptyOutTable => []

/-- There is a larger prime where the table has to expand, and what is removed is present. -/
def Allowed (t : XanHashTable κ ε) (xs : List (κ × ε)) : HashOp κ ε → Prop
  | insert _ _ => defaultLoadFactor ≤ t.currentLoadFactor → t.primeIndex + 1 < primes.length
  | removeElement key => withKey key xs ≠ []
  | removeItem item => (t.itemAt item).isSome = true
  | _ => True

/-- A sequence of operations, with the record of the items present. -/
def run (hash : κ → UInt32) : List (HashOp κ ε) → XanHashTable κ ε → List (κ × ε) →
    Except Fault (XanHashTable κ ε × List (κ × ε))
  | [], t, xs => .ok (t, xs)
  | op :: ops, t, xs =>
      match op.step hash t with
      | .ok t' => run hash ops t' (op.record t xs)
      | .error e => .error e

/-- Every operation of the sequence is allowed where it is applied. -/
def AllowedRun (hash : κ → UInt32) : List (HashOp κ ε) → XanHashTable κ ε → List (κ × ε) → Prop
  | [], _, _ => True
  | op :: ops, t, xs =>
      op.Allowed t xs ∧ ∀ t', op.step hash t = .ok t' → AllowedRun hash ops t' (op.record t xs)

end HashOp

theorem HoldsItems.step (h : HoldsItems hash t xs) (op : HashOp κ ε)
    (hallowed : op.Allowed t xs) :
    ∃ t', op.step hash t = .ok t' ∧ HoldsItems hash t' (op.record t xs) := by
  cases op with
  | insert key element => exact h.insert hallowed key element
  | replace key element => exact ⟨_, rfl, h.replace key element⟩
  | removeElement key =>
      rcases h.removeElement hallowed with ⟨t', ht', hholds⟩
      refine ⟨t', ?_, hholds⟩
      rw [HashOp.step, ht']
      rfl
  | removeItem r =>
      rcases Option.isSome_iff_exists.1 hallowed with ⟨item, hitem⟩
      rcases h.removeItem hitem with ⟨t', ht', hholds⟩
      refine ⟨t', ht', ?_⟩
      simpa only [HashOp.record, hitem] using hholds
  | emptyOutTable => exact h.emptyOutTable

theorem HoldsItems.run (ops : List (HashOp κ ε)) :
    ∀ {t : XanHashTable κ ε} {xs : List (κ × ε)},
    HoldsItems hash t xs → HashOp.AllowedRun hash ops t xs →
    ∃ t' xs', HashOp.run hash ops t xs = .ok (t', xs') ∧ HoldsItems hash t' xs' := by
  induction ops with
  | nil =>
      intro t xs h _
      exact ⟨t, xs, rfl, h⟩
  | cons op ops ih =>
      intro t xs h hallowed
      rcases h.step op hallowed.1 with ⟨mid, hstep, hmid⟩
      rcases ih hmid (hallowed.2 mid hstep) with ⟨t', xs', hrun, h'⟩
      refine ⟨t', xs', ?_, h'⟩
      rw [HashOp.run, hstep]
      exact hrun

/-- After any sequence of operations on a new table: lookups give the element of the oldest item,
`elementsInside` counts fewer than `2 ^ 31` items, and the loop from `first` by `next` visits every
item once.  The items are those on record. -/
theorem hashTable_multimap {length : Nat} {t₀ : XanHashTable κ ε} {ops : List (HashOp κ ε)}
    (hnew : XanHashTable.new length = .ok t₀) (hallowed : HashOp.AllowedRun hash ops t₀ []) :
    ∃ t xs, HashOp.run hash ops t₀ [] = .ok (t, xs) ∧
      (∀ key, t.lookup hash key = (withKey key xs).head?) ∧
      (xs.length < 2 ^ 31 → t.elementsInside = xs.length) ∧
      (∃ visited : List ItemReference,
        (∀ fuel, visited.length ≤ fuel → t.visit fuel t.first = .ok visited) ∧
        visited.Nodup ∧ (∀ r, r ∈ visited ↔ (t.itemAt r).isSome = true) ∧
        (visited.filterMap fun r => (t.itemAt r).map XanHashTableItem.entry).Perm xs) ∧
      ∀ r item, t.itemAt r = some item →
        (withKey item.elementID xs)[older t r item.elementID]? = some item.element := by
  rcases (holdsItems_new hnew).run ops hallowed with ⟨t, xs, hrun, h⟩
  refine ⟨t, xs, hrun, h.stored.lookup, ?_, ⟨referencesFrom t 0, ?_, ?_, ?_, ?_⟩, ?_⟩
  · intro hsmall
    have hsize : t.size.toNat = xs.length := by
      rw [h.size_eq]
      exact UInt32.toNat_ofNat_of_lt' (Nat.lt_of_lt_of_le hsmall (by decide))
    rw [elementsInside, hsize]
    exact toInt32_of_lt hsmall
  · exact fun fuel hfuel => h.stored.visit_first hfuel
  · exact nodup_referencesFrom 0
  · exact mem_referencesFrom
  · rw [filterMap_referencesFrom _ 0 rfl, List.drop_zero]
    exact perm_of_withKey h.stored.withKey_flatten
  · exact fun r item hitem => h.stored.getElem?_older hitem

theorem hashTable_multimap_removed :
    ∃ t xs, HashOp.run (fun _ : Nat => 0)
        [.insert 1 10, .insert 1 12, .replace 1 11, .removeElement 1]
        { table := List.replicate 53 none, primeIndex := 0, length := 53, size := 0,
          currentLoadFactor := 0 } [] = .ok (t, xs) ∧
      (∀ key, t.lookup (fun _ : Nat => 0) key = (withKey key xs).head?) ∧
      (xs.length < 2 ^ 31 → t.elementsInside = xs.length) ∧
      (∃ visited : List ItemReference,
        (∀ fuel, visited.length ≤ fuel → t.visit fuel t.first = .ok visited) ∧
        visited.Nodup ∧ (∀ r, r ∈ visited ↔ (t.itemAt r).isSome = true) ∧
        (visited.filterMap fun r => (t.itemAt r).map XanHashTableItem.entry).Perm xs) ∧
      ∀ r (item : XanHashTableItem Nat Nat), t.itemAt r = some item →
        (withKey item.elementID xs)[older t r item.elementID]? = some item.element := by
  have hload : ¬ defaultLoadFactor ≤ 0 := by decide +kernel
  refine @hashTable_multimap _ _ _ _ 11 _ _ rfl ?_
  refine ⟨fun _ => by decide, fun t₁ h₁ => ⟨fun _ => ?_, fun t₂ _ => ⟨trivial, fun t₃ _ => ?_⟩⟩⟩
  · simp only [HashOp.step, XanHashTable.insert, if_neg hload] at h₁
    rcases Except.ok.inj h₁ with rfl
    show 0 + 1 < primes.length
    decide
  · have hpresent : withKey 1 [(1, 11), (1, 12)] ≠ [] := by decide
    exact ⟨hpresent, fun t₄ _ => trivial⟩

/-- Items of one key use one place of the array, so the array never has to grow for them. -/
theorem allowedRun_replicate {hash : Nat → UInt32} (n : Nat) :
    ∀ (t : XanHashTable Nat Nat) (xs : List (Nat × Nat)), t.currentLoadFactor < defaultLoadFactor →
      (t.table[bucketPosition hash t.length 0]? = some none →
        t.currentLoadFactor + 1 / t.length < defaultLoadFactor) →
      HashOp.AllowedRun hash (List.replicate n (.insert 0 0)) t xs := by
  induction n with
  | zero => exact fun t xs _ _ => trivial
  | succ n ih =>
      intro t xs hload hfirst
      have hno : ¬ defaultLoadFactor ≤ t.currentLoadFactor := Rat.not_le.2 hload
      refine ⟨fun hle => absurd hle hno, fun t' ht' => ?_⟩
      simp only [HashOp.step, XanHashTable.insert, if_neg hno] at ht'
      rcases Except.ok.inj ht' with rfl
      refine ih _ _ ?_ fun hunused => ?_
      · simp only [insertItem]
        split
        · rename_i hunused
          exact hfirst hunused
        · exact hload
      · -- the place of the key is used now
        simp only [insertItem, List.getElem?_modify_eq] at hunused
        rcases Option.map_eq_some_iff.1 hunused with ⟨bucket, -, hplace⟩
        cases bucket <;> cases hplace

theorem run_replicate {hash : Nat → UInt32} (n : Nat) :
    ∀ (t t' : XanHashTable Nat Nat) (xs xs' : List (Nat × Nat)),
      HashOp.run hash (List.replicate n (.insert 0 0)) t xs = .ok (t', xs') →
      xs'.length = xs.length + n := by
  induction n with
  | zero =>
      intro t t' xs xs' hrun
      have heq : xs = xs' := congrArg Prod.snd (Except.ok.inj hrun)
      rw [heq, Nat.add_zero]
  | succ n ih =>
      intro t t' xs xs' hrun
      rw [List.replicate_succ, HashOp.run] at hrun
      split at hrun
      · have hrest := ih _ _ _ _ hrun
        rw [hrest, HashOp.record, List.length_append, List.length_singleton]
        omega
      · cases hrun

/-- `2 ^ 31` items of one key are `-2 ^ 31` elements. -/
theorem not_elementsInside_replicate :
    ¬ ∀ (hash : Nat → UInt32) (length : Nat) (t₀ t : XanHashTable Nat Nat)
      (ops : List (HashOp Nat Nat)) (xs : List (Nat × Nat)),
      XanHashTable.new length = .ok t₀ → HashOp.AllowedRun hash ops t₀ [] →
        HashOp.run hash ops t₀ [] = .ok (t, xs) → t.elementsInside = xs.length := by
  intro hclaim
  obtain ⟨n, hn⟩ : ∃ n : Nat, n = 2 ^ 31 := ⟨_, rfl⟩
  let t₀ : XanHashTable Nat Nat :=
    { table := List.replicate 53 none, primeIndex := 0, length := 53, size := 0,
      currentLoadFactor := 0 }
  have hnew : XanHashTable.new 11 = .ok t₀ := rfl
  have hallowed : HashOp.AllowedRun (fun _ : Nat => 0) (List.replicate n (.insert 0 0)) t₀ [] := by
    refine allowedRun_replicate n t₀ [] ?_ fun _ => ?_
    · show (0 : Rat) < defaultLoadFactor
      decide +kernel
    · show (0 : Rat) + 1 / (53 : Nat) < defaultLoadFactor
      decide +kernel
  rcases (holdsItems_new hnew).run _ hallowed with ⟨t, xs, hrun, hholds⟩
  have hinside := hclaim _ 11 t₀ t _ xs hnew hallowed hrun
  have hlength : xs.length = n := by
    rw [run_replicate n t₀ t [] xs hrun, List.length_nil, Nat.zero_add]
  have hsize : t.size.toNat = 2 ^ 31 := by
    rw [hholds.size_eq, hlength, hn]
    rfl
  rw [elementsInside, hsize, hlength, hn] at hinside
  exact absurd hinside (by decide)

end CamAlias
