import CamAlias.Storage.Allocator

/-!
# Accounting — `memUsed` is the sum of what is live

Each operation of the allocator changes the heap and `memUsed` together.  What every operation keeps
is `Accounted`: `memUsed` is the total of the sizes that were recorded for the live objects and their
items, and it is not above `maxMemUsed`.

* `Accounted.add`, `Accounted.grow`, `Accounted.shrink`: a new object, a charge, a refund;
* `Accounted.create`, `Accounted.charge`, `Accounted.refund`: the same through `allocatedMem` and
  `freedMem`;
* one lemma an operation: it charges (`Keeps`) or frees (`Refund`).
-/

namespace CamAlias

open Lib XanHashTable

namespace Allocator

/-! ## The invariant -/

/-- The size recorded for an object and its items. -/
def recordedSize (L : Layout) : HeapObject → Nat
  | .block size => size.toNat
  | .instance size => size.bytes.toNat
  | .hashTable _ t => L.hashTable + itemCount t * L.hashTableItem
  | .stack items => L.stack + items.length * L.listItem
  | .list items => L.list + items.length * L.listItem
  | .bitSet set => L.bitSet + bitSetCapacity set

/-- The sum of the recorded sizes of the live objects. -/
def recorded (L : Layout) (s : Allocator) : Nat :=
  totalSize (recordedSize L) s.heap

/-- What the operations keep of each object. -/
def WellFormed : HeapObject → Prop
  | .block size => 0 < size
  | .hashTable hash t => ∃ xs, HoldsItems hash t xs
  | .stack items => items.length < 2 ^ 31
  | .list items => items.length < 2 ^ 31
  | _ => True

/-- `memUsed` is exact, and `maxMemUsed` is not below it. -/
structure Accounted (L : Layout) (s : Allocator) : Prop where
  exact : s.memUsed.toNat = s.recorded L
  le_max : s.memUsed.toNat ≤ s.maxMemUsed.toNat
  wellFormed : ∀ p o, s.object p = some o → WellFormed o

/-- What an operation does: it keeps the accounts, and the maximum is brought up to date. -/
structure Step (L : Layout) (s s' : Allocator) : Prop where
  accounted : Accounted L s'
  max_eq : s'.maxMemUsed.toNat = max s.maxMemUsed.toNat s'.memUsed.toNat

/-- What an operation does that only frees. -/
structure Refund (L : Layout) (s s' : Allocator) : Prop where
  accounted : Accounted L s'
  max_eq : s'.maxMemUsed = s.maxMemUsed
  le : s'.memUsed.toNat ≤ s.memUsed.toNat

variable {L : Layout} {s s' s'' : Allocator} {p : Pointer} {o o' : HeapObject}

theorem Refund.step (h : Accounted L s) (h' : Refund L s s') : Step L s s' where
  accounted := h'.accounted
  max_eq := by
    have hmax := h.le_max
    have hle := h'.le
    rw [h'.max_eq]
    omega

theorem Refund.trans (h : Refund L s s') (h' : Refund L s' s'') : Refund L s s'' where
  accounted := h'.accounted
  max_eq := h'.max_eq.trans h.max_eq
  le := Nat.le_trans h'.le h.le

theorem Refund.refl (h : Accounted L s) : Refund L s s :=
  ⟨h, rfl, Nat.le_refl _⟩

/-! ## The heap -/

theorem object_eq_some : s.object p = some o ↔ s.heap[p]? = some (some o) := by
  rw [object, Option.join_eq_some_iff]

theorem object_of_set {slot : Option HeapObject} {q : Pointer}
    (hheap : s'.heap = s.heap.set p slot) (h : s'.object q = some o') :
    slot = some o' ∨ (q ≠ p ∧ s.object q = some o') := by
  rw [object_eq_some, hheap, List.getElem?_set] at h
  split at h
  · split at h
    · exact Or.inl (Option.some.inj h)
    · cases h
  · rename_i hne
    exact Or.inr ⟨Ne.symm hne, object_eq_some.2 h⟩

theorem object_set_ne {slot : Option HeapObject} (hheap : s'.heap = s.heap.set p slot)
    {q : Pointer} (hne : q ≠ p) : s'.object q = s.object q := by
  rw [object, object, hheap, List.getElem?_set_ne (Ne.symm hne)]

theorem object_set_self (hobject : s.object p = some o) {slot : Option HeapObject}
    (hheap : s'.heap = s.heap.set p slot) : s'.object p = slot := by
  have hlt := (List.getElem?_eq_some_iff.1 (object_eq_some.1 hobject)).1
  rw [object, hheap, List.getElem?_set_self hlt, Option.join_some]

theorem recordedSize_le (hobject : s.object p = some o) : recordedSize L o ≤ s.recorded L :=
  le_totalSize (object_eq_some.1 hobject)

theorem recorded_append (hheap : s'.heap = s.heap ++ [some o]) :
    s'.recorded L = s.recorded L + recordedSize L o := by
  rw [recorded, recorded, hheap, totalSize_append]
  rfl

theorem recorded_set (hobject : s.object p = some o) (slot : Option HeapObject)
    (hheap : s'.heap = s.heap.set p slot) :
    s'.recorded L + recordedSize L o = s.recorded L + slotSize (recordedSize L) slot := by
  rw [recorded, recorded, hheap]
  exact totalSize_set (recordedSize L) (object_eq_some.1 hobject) slot

/-! ## Charges and refunds -/

/-- A new object whose size is charged. -/
theorem Accounted.add (h : Accounted L s) (ho : WellFormed o)
    (hheap : s'.heap = s.heap ++ [some o])
    (hmem : s'.memUsed.toNat = s.memUsed.toNat + recordedSize L o)
    (hmax : s'.maxMemUsed.toNat = max s.maxMemUsed.toNat s'.memUsed.toNat) : Step L s s' where
  accounted :=
    { exact := by rw [hmem, h.exact, recorded_append hheap]
      le_max := by
        rw [hmax]
        exact Nat.le_max_right _ _
      wellFormed := by
        intro q o' hq
        rw [object_eq_some, hheap, List.getElem?_append] at hq
        split at hq
        · exact h.wellFormed q o' (object_eq_some.2 hq)
        · rw [List.getElem?_singleton] at hq
          split at hq
          · rcases Option.some.inj (Option.some.inj hq) with rfl
            exact ho
          · cases hq }
  max_eq := hmax

/-- An object that grows, and the charge for it. -/
theorem Accounted.grow (h : Accounted L s) (hobject : s.object p = some o) (o' : HeapObject)
    (ho : WellFormed o')
    (hheap : s'.heap = s.heap.set p (some o')) {charge : Nat}
    (hsize : recordedSize L o' = recordedSize L o + charge)
    (hmem : s'.memUsed.toNat = s.memUsed.toNat + charge)
    (hmax : s'.maxMemUsed.toNat = max s.maxMemUsed.toNat s'.memUsed.toNat) : Step L s s' where
  accounted :=
    { exact := by
        have htotal := recorded_set (L := L) hobject (some o') hheap
        have hexact := h.exact
        simp only [slotSize] at htotal
        omega
      le_max := by
        rw [hmax]
        exact Nat.le_max_right _ _
      wellFormed := by
        intro q o₁ hq
        rcases object_of_set hheap hq with hslot | ⟨-, hold⟩
        · rcases Option.some.inj hslot with rfl
          exact ho
        · exact h.wellFormed q o₁ hold }
  max_eq := hmax

/-- An object that shrinks or is freed, and the refund for it. -/
theorem Accounted.shrink (h : Accounted L s) (hobject : s.object p = some o)
    (slot : Option HeapObject) (hslot : ∀ o', slot = some o' → WellFormed o')
    (hheap : s'.heap = s.heap.set p slot) (hmax : s'.maxMemUsed = s.maxMemUsed) {refund : Nat}
    (hsize : refund + slotSize (recordedSize L) slot = recordedSize L o)
    (hmem : s'.memUsed.toNat + refund = s.memUsed.toNat) : Refund L s s' where
  accounted :=
    { exact := by
        have htotal := recorded_set (L := L) hobject slot hheap
        have hexact := h.exact
        omega
      le_max := by
        have hle := h.le_max
        rw [hmax]
        omega
      wellFormed := by
        intro q o₁ hq
        rcases object_of_set hheap hq with hnew | ⟨-, hold⟩
        · exact hslot o₁ hnew
        · exact h.wellFormed q o₁ hold }
  max_eq := hmax
  le := by omega

theorem toNat_allocatedMem (s : Allocator) (size : UInt64) (h : s.memUsed.toNat + size.toNat < 2 ^ 64) :
    (s.allocatedMem size).memUsed.toNat = s.memUsed.toNat + size.toNat ∧
      (s.allocatedMem size).maxMemUsed.toNat
        = max s.maxMemUsed.toNat (s.memUsed.toNat + size.toNat) := by
  have hadd : (s.memUsed + size).toNat = s.memUsed.toNat + size.toNat := by
    rw [UInt64.toNat_add]
    exact Nat.mod_eq_of_lt h
  refine ⟨hadd, ?_⟩
  simp only [allocatedMem]
  split
  · rename_i hlt
    rw [UInt64.lt_iff_toNat_lt, hadd] at hlt
    rw [hadd]
    omega
  · rename_i hge
    rw [UInt64.lt_iff_toNat_lt, hadd] at hge
    omega

theorem freedMem_eq {size : UInt64} (hpos : 0 < size.toNat)
    (hle : size.toNat ≤ s.memUsed.toNat) :
    ∃ s', s.freedMem size = .ok s' ∧ s'.heap = s.heap ∧ s'.maxMemUsed = s.maxMemUsed ∧
      s'.memUsed.toNat + size.toNat = s.memUsed.toNat := by
  have hsub : (s.memUsed - size).toNat = s.memUsed.toNat - size.toNat :=
    UInt64.toNat_sub_of_le _ _ (UInt64.le_iff_toNat_le.2 hle)
  rw [freedMem, if_pos ⟨UInt64.lt_iff_toNat_lt.2 hpos, UInt64.le_iff_toNat_le.2 hle⟩]
  refine ⟨_, rfl, rfl, rfl, ?_⟩
  simp only [hsub]
  omega

theorem toNat_ofNat_of_le {n m : Nat} (hle : n ≤ m) (hm : m < 2 ^ 64) :
    (UInt64.ofNat n).toNat = n :=
  UInt64.toNat_ofNat_of_lt' (Nat.lt_of_le_of_lt hle hm)

theorem freedItems_eq {count itemSize : Nat} (hitem : 0 < itemSize)
    (hle : count * itemSize ≤ s.memUsed.toNat) :
    ∃ s', s.freedItems count itemSize = .ok s' ∧ s'.heap = s.heap ∧
      s'.maxMemUsed = s.maxMemUsed ∧
        s'.memUsed.toNat + count * itemSize = s.memUsed.toNat := by
  rw [freedItems]
  rcases Nat.eq_zero_or_pos count with rfl | hpos
  · rw [if_neg (by simp)]
    exact ⟨s, rfl, rfl, rfl, by omega⟩
  · have htoNat := toNat_ofNat_of_le hle s.memUsed.toNat_lt
    rw [if_pos (Int.natCast_pos.2 hpos), Int.toNat_natCast]
    have hsize : 0 < (UInt64.ofNat (count * itemSize)).toNat := by
      rw [htoNat]
      exact Nat.mul_pos hpos hitem
    have hspec := freedMem_eq (s := s) hsize (by rw [htoNat]; exact hle)
    rwa [htoNat] at hspec

/-! ## Objects that come and go -/

/-- `allocatedMem` for a new object. -/
theorem Accounted.create (h : Accounted L s) (ho : WellFormed o) {size : UInt64}
    (hsize : size.toNat = recordedSize L o)
    (hroom : ((s.create o).allocatedMem size).recorded L < 2 ^ 64) :
    Step L s ((s.create o).allocatedMem size) := by
  have hrecorded : ((s.create o).allocatedMem size).recorded L
      = s.recorded L + recordedSize L o := recorded_append rfl
  have hfits : s.memUsed.toNat + size.toNat < 2 ^ 64 := by rwa [h.exact, hsize, ← hrecorded]
  rcases toNat_allocatedMem (s.create o) size hfits with ⟨hmem, hmax⟩
  refine h.add ho rfl (hsize ▸ hmem) ?_
  rw [hmax, hmem]
  rfl

/-- The same for a size that is computed from `sizeof`. -/
theorem Accounted.createOfNat (h : Accounted L s) (ho : WellFormed o) {size : Nat}
    (hsize : recordedSize L o = size)
    (hroom : ((s.create o).allocatedMem (UInt64.ofNat size)).recorded L < 2 ^ 64) :
    Step L s ((s.create o).allocatedMem (UInt64.ofNat size)) := by
  have hrecorded : ((s.create o).allocatedMem (UInt64.ofNat size)).recorded L
      = s.recorded L + recordedSize L o := recorded_append rfl
  have hle : size ≤ ((s.create o).allocatedMem (UInt64.ofNat size)).recorded L := by omega
  exact h.create ho ((toNat_ofNat_of_le hle hroom).trans hsize.symm) hroom

/-- `allocatedMem` for an object that grows. -/
theorem Accounted.charge (h : Accounted L s) (hobject : s.object p = some o) (o' : HeapObject)
    (ho : WellFormed o') {size : Nat} (hsize : recordedSize L o' = recordedSize L o + size)
    (hroom : ((s.put p (some o')).allocatedMem (UInt64.ofNat size)).recorded L < 2 ^ 64) :
    Step L s ((s.put p (some o')).allocatedMem (UInt64.ofNat size)) := by
  have hset : ((s.put p (some o')).allocatedMem (UInt64.ofNat size)).recorded L
      + recordedSize L o = s.recorded L + recordedSize L o' :=
    recorded_set hobject (some o') rfl
  have hrecorded : ((s.put p (some o')).allocatedMem (UInt64.ofNat size)).recorded L
      = s.recorded L + size := by omega
  have htoNat : (UInt64.ofNat size).toNat = size :=
    toNat_ofNat_of_le (hrecorded ▸ Nat.le_add_left _ _) hroom
  have hfits : s.memUsed.toNat + (UInt64.ofNat size).toNat < 2 ^ 64 := by
    rwa [h.exact, htoNat, ← hrecorded]
  rcases toNat_allocatedMem (s.put p (some o')) (UInt64.ofNat size) hfits with ⟨hmem, hmax⟩
  refine h.grow hobject o' ho rfl (hsize.trans (by rw [htoNat])) hmem ?_
  rw [hmax, hmem]
  rfl

/-- `freedMem` for an object that shrinks or is freed. -/
theorem Accounted.refund (h : Accounted L s) (hobject : s.object p = some o)
    (slot : Option HeapObject) (hslot : ∀ o', slot = some o' → WellFormed o') {size : UInt64}
    (hpos : 0 < size.toNat)
    (hsize : size.toNat + slotSize (recordedSize L) slot = recordedSize L o) :
    ∃ s', (s.put p slot).freedMem size = .ok s' ∧ s'.heap = s.heap.set p slot ∧
      Refund L s s' := by
  have hle : size.toNat ≤ s.memUsed.toNat := by
    have hrecorded := recordedSize_le (L := L) hobject
    rw [h.exact]
    omega
  rcases freedMem_eq (s := s.put p slot) hpos hle with ⟨s', hfreed, hheap, hmax, hmem⟩
  exact ⟨s', hfreed, hheap, h.shrink hobject slot hslot hheap hmax hsize hmem⟩

/-- The same for a size that is computed from `sizeof`. -/
theorem Accounted.refundOfNat (h : Accounted L s) (hobject : s.object p = some o)
    (slot : Option HeapObject) (hslot : ∀ o', slot = some o' → WellFormed o') {size : Nat}
    (hpos : 0 < size) (hsize : size + slotSize (recordedSize L) slot = recordedSize L o) :
    ∃ s', (s.put p slot).freedMem (UInt64.ofNat size) = .ok s' ∧
      s'.heap = s.heap.set p slot ∧ Refund L s s' := by
  have hle : size ≤ s.memUsed.toNat := by
    have hrecorded := recordedSize_le (L := L) hobject
    rw [h.exact]
    omega
  have htoNat := toNat_ofNat_of_le hle s.memUsed.toNat_lt
  exact h.refund hobject slot hslot (by rwa [htoNat]) (by rwa [htoNat])

/-- A container that is freed: first the refund for its items, then the one for itself. -/
theorem Accounted.freeContainer (h : Accounted L s) (hobject : s.object p = some o)
    {count itemSize size : Nat} (hitem : 0 < itemSize) (hpos : 0 < size)
    (hsize : recordedSize L o = size + count * itemSize) :
    ∃ s₁ s', s.freedItems count itemSize = .ok s₁ ∧
      (s₁.put p none).freedMem (UInt64.ofNat size) = .ok s' ∧ Refund L s s' := by
  have hle : size + count * itemSize ≤ s.memUsed.toNat := by
    have hrecorded := recordedSize_le (L := L) hobject
    rw [h.exact]
    omega
  rcases freedItems_eq (s := s) hitem (Nat.le_trans (Nat.le_add_left _ _) hle)
    with ⟨s₁, hitems, hheap₁, hmax₁, hmem₁⟩
  have hleft : size ≤ s₁.memUsed.toNat := by omega
  have htoNat := toNat_ofNat_of_le hleft s₁.memUsed.toNat_lt
  rcases freedMem_eq (s := s₁.put p none) (by rwa [htoNat]) (by rw [htoNat]; exact hleft)
    with ⟨s', hfreed, hheap, hmax, hmem⟩
  have hall : size + count * itemSize + slotSize (recordedSize L) none = recordedSize L o :=
    hsize.symm
  refine ⟨s₁, s', hitems, hfreed, h.shrink hobject none (by simp) ?_ (hmax.trans hmax₁) hall ?_⟩
  · rw [hheap]
    exact congrArg (fun heap => List.set heap p none) hheap₁
  · rw [htoNat] at hmem
    have hput : (s₁.put p none).memUsed = s₁.memUsed := rfl
    rw [hput] at hmem
    omega

/-! ## Blocks and instances -/

theorem Accounted.allocMem (h : Accounted L s) {size : UInt64} (hpos : size + 8 ≠ 0)
    (hroom : (s.allocMem size).recorded L < 2 ^ 64) : Step L s (s.allocMem size) :=
  h.create (o := .block (size + 8)) (UInt64.pos_iff_ne_zero.2 hpos) rfl hroom

theorem Accounted.freeMem (h : Accounted L s) {size : UInt64}
    (hobject : s.object p = some (.block size)) :
    ∃ s', s.freeMem p = .ok s' ∧ s'.heap = s.heap.set p none ∧ Refund L s s' := by
  have hpos : 0 < size.toNat := UInt64.lt_iff_toNat_lt.1 (h.wellFormed p _ hobject)
  rw [Allocator.freeMem, hobject]
  exact h.refund hobject none (by simp) hpos rfl

theorem Accounted.newMem (h : Accounted L s) (size : ClassSize)
    (hroom : (s.newMem size).recorded L < 2 ^ 64) : Step L s (s.newMem size) :=
  h.create (o := .instance size) trivial rfl hroom

theorem Accounted.deleteMem (h : Accounted L s) {size : ClassSize}
    (hobject : s.object p = some (.instance size)) :
    ∃ s', s.deleteMem p = .ok s' ∧ Refund L s s' := by
  rw [Allocator.deleteMem, hobject]
  rcases h.refund hobject none (by simp) (UInt64.lt_iff_toNat_lt.1 size.bytes_pos) rfl
    with ⟨s', hfreed, -, hrefund⟩
  exact ⟨s', hfreed, hrefund⟩

/-- Blocks that are freed one after the other. -/
theorem Accounted.foldlM_freeMem (ps : List Pointer) : ∀ {s : Allocator}, Accounted L s →
    ps.Nodup → (∀ q ∈ ps, ∃ size, s.object q = some (.block size)) →
    ∃ s', ps.foldlM Allocator.freeMem s = .ok s' ∧ Refund L s s' ∧
      ∀ q, q ∉ ps → s'.object q = s.object q := by
  induction ps with
  | nil =>
      intro s h _ _
      exact ⟨s, rfl, Refund.refl h, fun q _ => rfl⟩
  | cons q ps ih =>
      intro s h hnodup hlive
      rcases hlive q List.mem_cons_self with ⟨size, hobject⟩
      rcases h.freeMem hobject with ⟨s₁, hfree, hheap, hrefund⟩
      rcases List.nodup_cons.1 hnodup with ⟨hq, hrest⟩
      have hlive₁ : ∀ q' ∈ ps, ∃ size, s₁.object q' = some (.block size) := by
        intro q' hq'
        have hne : q' ≠ q := by
          rintro rfl
          exact hq hq'
        rw [object_set_ne hheap hne]
        exact hlive q' (List.mem_cons_of_mem _ hq')
      rcases ih hrefund.accounted hrest hlive₁ with ⟨s', hfold, hrefund', hothers⟩
      refine ⟨s', ?_, hrefund.trans hrefund', fun q' hq' => ?_⟩
      · rw [List.foldlM_cons, hfree]
        exact hfold
      · rw [List.mem_cons, not_or] at hq'
        rw [hothers q' hq'.2, object_set_ne hheap hq'.1]

/-! ## Outcomes -/

/-- An operation keeps the accounts, or a fault inside xanlib ends the program. -/
def Keeps (L : Layout) (s : Allocator) (result : Except Stop Allocator) : Prop :=
  (∃ s', result = .ok s' ∧ Step L s s') ∨ ∃ fault, result = .error (.xanlib fault)

/-- The sizes of what is live after an operation still fit a `size_t`. -/
def Fits (L : Layout) (result : Except Stop Allocator) : Prop :=
  ∀ s', result = .ok s' → s'.recorded L < 2 ^ 64

theorem Keeps.of_step (h : Step L s s') : Keeps L s (.ok s') :=
  Or.inl ⟨s', rfl, h⟩

theorem Keeps.of_refund (h : Accounted L s) {result : Except Stop Allocator}
    (hrefund : ∃ s', result = .ok s' ∧ Refund L s s') : Keeps L s result := by
  rcases hrefund with ⟨s', hresult, hrefund⟩
  exact Or.inl ⟨s', hresult, hrefund.step h⟩

/-- An operation that charges for the outcome of a call to xanlib. -/
theorem Keeps.map {α : Type} {result : Except Fault α} {f : α → Allocator}
    (h : ∀ a, result = .ok a → Step L s (f a)) : Keeps L s ((xanlib result).map f) := by
  cases result with
  | error fault => exact Or.inr ⟨fault, rfl⟩
  | ok a => exact Or.inl ⟨f a, rfl, h a rfl⟩

theorem Fits.map {α : Type} {result : Except Fault α} {f : α → Allocator}
    (h : Fits L ((xanlib result).map f)) {a : α} (ha : result = .ok a) :
    (f a).recorded L < 2 ^ 64 :=
  h (f a) (by rw [ha]; rfl)

/-! ## Hash tables -/

/-- The keys and the elements of a table. -/
def entries (t : XanHashTable Pointer Pointer) : List (Pointer × Pointer) :=
  t.table.flatMap XanHashTableBucket.entries

section Tables

variable {hash : Pointer → UInt32} {t : XanHashTable Pointer Pointer}
  {xs : List (Pointer × Pointer)}

theorem entries_perm (h : HoldsItems hash t xs) : (entries t).Perm xs :=
  perm_of_withKey h.stored.withKey_flatten

/-- The number of items on record is the number of items in the buckets. -/
theorem itemCount_eq (h : HoldsItems hash t xs) : itemCount t = xs.length := by
  rw [← (entries_perm h).length_eq, itemCount, entries, List.length_flatMap, List.length_flatMap]
  simp only [XanHashTableBucket.entries, List.length_map]

/-- Fewer than `2 ^ 31` items are counted right. -/
theorem elementsInside_eq (h : HoldsItems hash t xs) (hsmall : itemCount t < 2 ^ 31) :
    t.elementsInside = (itemCount t : Nat) := by
  rw [itemCount_eq h] at hsmall ⊢
  have hsize : t.size.toNat = xs.length := by
    rw [h.size_eq]
    exact UInt32.toNat_ofNat_of_lt' (Nat.lt_of_lt_of_le hsmall (by decide))
  rw [elementsInside, hsize]
  exact toInt32_of_lt hsmall

theorem Accounted.allocTable (h : Accounted L s) (hash : Pointer → UInt32) (length : Nat)
    (hfits : Fits L (s.allocTable L hash length)) : Keeps L s (s.allocTable L hash length) := by
  refine Keeps.map fun t hnew => ?_
  have hholds : HoldsItems hash t [] := holdsItems_new hnew
  have hcount : itemCount t = 0 := itemCount_eq hholds
  refine h.createOfNat (o := .hashTable hash t) ⟨[], hholds⟩ ?_ (Fits.map hfits hnew)
  rw [recordedSize, hcount, Nat.zero_mul, Nat.add_zero]

theorem Accounted.freeHashTable (h : Accounted L s)
    (hobject : s.object p = some (.hashTable hash t)) (hsmall : itemCount t < 2 ^ 31) :
    ∃ s', s.freeHashTable L p = .ok s' ∧ Refund L s s' := by
  rcases h.wellFormed p _ hobject with ⟨xs, hholds⟩
  rcases h.freeContainer hobject L.hashTableItem_pos L.hashTable_pos rfl
    with ⟨s₁, s', hitems, hfreed, hrefund⟩
  refine ⟨s', ?_, hrefund⟩
  simp only [Allocator.freeHashTable, hobject, elementsInside_eq hholds hsmall, hitems]
  exact hfreed

theorem Accounted.hashTableInsert (h : Accounted L s)
    (hobject : s.object p = some (.hashTable hash t)) {key element : Pointer}
    (hfits : Fits L (s.hashTableInsert L p key element)) :
    Keeps L s (s.hashTableInsert L p key element) := by
  rcases h.wellFormed p _ hobject with ⟨xs, hholds⟩
  simp only [Allocator.hashTableInsert, hobject] at hfits ⊢
  refine Keeps.map fun t' hinsert => ?_
  rcases hholds.insert (prime_of_insert hinsert) key element with ⟨t₁, hinsert₁, hholds'⟩
  rcases Except.ok.inj (hinsert.symm.trans hinsert₁) with rfl
  have hcount : itemCount t' = itemCount t + 1 := by
    rw [itemCount_eq hholds', itemCount_eq hholds, List.length_append, List.length_singleton]
  refine h.charge hobject (.hashTable hash t') ⟨_, hholds'⟩ ?_ (Fits.map hfits hinsert)
  rw [recordedSize, recordedSize, hcount, Nat.add_mul, Nat.one_mul, Nat.add_assoc]

/-- The removal of an item, and the table without it. -/
theorem Accounted.hashTableRemoveItem (h : Accounted L s)
    (hobject : s.object p = some (.hashTable hash t)) (hholds : HoldsItems hash t xs)
    {r : ItemReference} {item : XanHashTableItem Pointer Pointer} (hitem : t.itemAt r = some item) :
    ∃ t' s', s.hashTableRemoveItem L p r = .ok s' ∧
      s'.heap = s.heap.set p (some (.hashTable hash t')) ∧ Refund L s s' ∧
        HoldsItems hash t' (eraseOccurrence item.elementID (older t r item.elementID) xs) := by
  rcases hholds.removeItem hitem with ⟨t', hremove, hholds'⟩
  have hcount : itemCount t = itemCount t' + 1 := by
    have hperm := perm_eraseOccurrence _ _ xs (hholds.stored.getElem?_older hitem)
    rw [itemCount_eq hholds', itemCount_eq hholds, hperm.length_eq, List.length_cons]
  have hsize : L.hashTableItem + slotSize (recordedSize L) (some (.hashTable hash t'))
      = recordedSize L (.hashTable hash t) := by
    rw [slotSize, recordedSize, recordedSize, hcount, Nat.add_mul, Nat.one_mul]
    omega
  rcases h.refundOfNat hobject _ (fun o' ho' => by
      rcases Option.some.inj ho' with rfl
      exact ⟨_, hholds'⟩) L.hashTableItem_pos hsize with ⟨s', hfreed, hheap, hrefund⟩
  refine ⟨t', s', ?_, hheap, hrefund, hholds'⟩
  simp only [Allocator.hashTableRemoveItem, hobject, hremove]
  exact hfreed

theorem Accounted.hashTableEmptyOutTable (h : Accounted L s)
    (hobject : s.object p = some (.hashTable hash t)) (hsmall : itemCount t < 2 ^ 31) :
    ∃ s', s.hashTableEmptyOutTable L p = .ok s' ∧ Refund L s s' := by
  rcases h.wellFormed p _ hobject with ⟨xs, hholds⟩
  rcases hholds.emptyOutTable with ⟨t', hempty, hholds'⟩
  have hle : itemCount t * L.hashTableItem ≤ s.memUsed.toNat := by
    have hrecorded := recordedSize_le (L := L) hobject
    rw [h.exact]
    simp only [recordedSize] at hrecorded
    omega
  rcases freedItems_eq (s := s) L.hashTableItem_pos hle with ⟨s₁, hitems, hheap, hmax, hmem⟩
  refine ⟨s₁.put p (some (.hashTable hash t')), ?_, ?_⟩
  · simp only [Allocator.hashTableEmptyOutTable, hobject, elementsInside_eq hholds hsmall, hitems,
      hempty]
    rfl
  · refine h.shrink hobject (some (.hashTable hash t'))
      (fun o' ho' => by rcases Option.some.inj ho' with rfl; exact ⟨_, hholds'⟩)
      (congrArg (fun heap => List.set heap p _) hheap) hmax ?_ hmem
    simp only [slotSize, recordedSize, itemCount_eq hholds', List.length_nil]
    omega

/-- `xanHashTable_first`, until the table is empty. -/
theorem first_cases (h : HoldsItems hash t xs) :
    (t.first = none ∧ xs = []) ∨
      ∃ r item, t.first = some r ∧ t.itemAt r = some item := by
  have hall := filterMap_referencesFrom (t := t) _ 0 rfl
  rw [List.drop_zero] at hall
  rcases firstUsed_cases (t := t) _ 0 rfl with ⟨hnone, hempty⟩ | ⟨i, bucket, hfirst, hbucket, hpos, -⟩
  · have hnil : entries t = [] := by rw [entries, ← hall, hempty, List.filterMap_nil]
    exact Or.inl ⟨hnone, List.nil_perm.1 (hnil ▸ entries_perm h)⟩
  · refine Or.inr ⟨(i, 0), bucket.items[0], hfirst, ?_⟩
    simp only [itemAt, hbucket, Option.bind_some, List.getElem?_eq_getElem hpos]

/-- The blocks that are freed together with a table's items are live, each of them once. -/
def FreesLive (freed : Pointer → Pointer → List Pointer) (s : Allocator)
    (xs : List (Pointer × Pointer)) : Prop :=
  (xs.flatMap fun x => freed x.1 x.2).Nodup ∧
    ∀ q ∈ xs.flatMap fun x => freed x.1 x.2, ∃ size, s.object q = some (.block size)

theorem FreesLive.perm {freed : Pointer → Pointer → List Pointer}
    {ys : List (Pointer × Pointer)} (hperm : xs.Perm ys) (h : FreesLive freed s xs) :
    FreesLive freed s ys :=
  have hfreed := hperm.flatMap_right fun x => freed x.1 x.2
  ⟨hfreed.nodup_iff.1 h.1, fun q hq => h.2 q (hfreed.mem_iff.2 hq)⟩

/-- The loop frees the items one after the other, until the table is empty. -/
theorem Accounted.removeItems (freed : Pointer → Pointer → List Pointer) :
    ∀ (n : Nat) {s : Allocator} {t : XanHashTable Pointer Pointer}
      {xs : List (Pointer × Pointer)}, Accounted L s → s.object p = some (.hashTable hash t) →
      HoldsItems hash t xs → xs.length = n → FreesLive freed s xs →
      ∃ t' s', s.removeItems L freed p n = .ok s' ∧ Refund L s s' ∧
        s'.object p = some (.hashTable hash t') ∧ HoldsItems hash t' [] := by
  intro n
  induction n with
  | zero =>
      intro s t xs h hobject hholds hlength _
      rcases List.length_eq_zero_iff.1 hlength with rfl
      rcases first_cases hholds with ⟨hnone, -⟩ | ⟨r, item, -, hitem⟩
      · refine ⟨t, s, ?_, Refund.refl h, hobject, hholds⟩
        rw [Allocator.removeItems]
        simp only [hobject, hnone]
      · have hget := hholds.stored.getElem?_older hitem
        simp [withKey] at hget
  | succ n ih =>
      intro s t xs h hobject hholds hlength hlive
      rcases first_cases hholds with ⟨-, rfl⟩ | ⟨r, item, hfirst, hitem⟩
      · cases hlength
      · -- the blocks of the item go first, and the table is not one of them
        have hperm := perm_eraseOccurrence _ _ xs (hholds.stored.getElem?_older hitem)
        have hlive' := hlive.perm hperm
        rw [FreesLive, List.flatMap_cons, List.nodup_append'] at hlive'
        rcases hlive' with ⟨⟨hnodup, hrest, hdisjoint⟩, hblocks⟩
        rcases h.foldlM_freeMem _ hnodup fun q hq => hblocks q (List.mem_append_left _ hq)
          with ⟨s₁, hfold, hrefund₁, hothers⟩
        have htable : p ∉ freed item.elementID item.element := by
          intro hmem
          rcases hblocks p (List.mem_append_left _ hmem) with ⟨size, hblock⟩
          rw [hobject] at hblock
          cases hblock
        have hobject₁ : s₁.object p = some (.hashTable hash t) := by rw [hothers p htable, hobject]
        rcases hrefund₁.accounted.hashTableRemoveItem hobject₁ hholds hitem
          with ⟨t', s₂, hremove, hheap₂, hrefund₂, hholds'⟩
        -- the blocks of the other items are still live
        have hlive₂ : FreesLive freed s₂
            (eraseOccurrence item.elementID (older t r item.elementID) xs) := by
          refine ⟨hrest, fun q hq => ?_⟩
          rcases hblocks q (List.mem_append_right _ hq) with ⟨size, hblock⟩
          have hne : q ≠ p := by
            rintro rfl
            rw [hobject] at hblock
            cases hblock
          refine ⟨size, ?_⟩
          rw [object_set_ne hheap₂ hne, hothers q fun hmem => hdisjoint hmem hq, hblock]
        have hlength' : (eraseOccurrence item.elementID (older t r item.elementID) xs).length
            = n := by
          have hsum := hperm.length_eq
          rw [List.length_cons, hlength] at hsum
          exact (Nat.succ.inj hsum).symm
        rcases ih hrefund₂.accounted (object_set_self hobject₁ hheap₂) hholds' hlength' hlive₂
          with ⟨t'', s', hloop, hrefund', hobject', hempty⟩
        refine ⟨t'', s', ?_, (hrefund₁.trans hrefund₂).trans hrefund', hobject', hempty⟩
        rw [Allocator.removeItems]
        simp only [hobject, hfirst, hitem, hfold]
        show (s₁.hashTableRemoveItem L p r >>= _) = _
        rw [hremove]
        exact hloop

theorem Accounted.removeAllItems (h : Accounted L s) {freed : Pointer → Pointer → List Pointer}
    (hobject : s.object p = some (.hashTable hash t)) (hlive : FreesLive freed s (entries t)) :
    ∃ t' s', s.removeAllItems L freed p = .ok s' ∧ Refund L s s' ∧
      s'.object p = some (.hashTable hash t') ∧ HoldsItems hash t' [] := by
  rcases h.wellFormed p _ hobject with ⟨xs, hholds⟩
  rcases h.removeItems freed _ hobject hholds (itemCount_eq hholds).symm
    (hlive.perm (entries_perm hholds)) with ⟨t', s', hloop, hrest⟩
  refine ⟨t', s', ?_, hrest⟩
  simp only [Allocator.removeAllItems, hobject]
  exact hloop

theorem Accounted.freeHashTableAnd (h : Accounted L s)
    {freed : Pointer → Pointer → List Pointer} (hobject : s.object p = some (.hashTable hash t))
    (hlive : FreesLive freed s (entries t)) :
    ∃ s', s.freeHashTableAnd L freed p = .ok s' ∧ Refund L s s' := by
  rcases h.removeAllItems hobject hlive with ⟨t', s₁, hloop, hrefund₁, hobject₁, hempty⟩
  have hsize : L.hashTable + slotSize (recordedSize L) none
      = recordedSize L (.hashTable hash t') := by
    rw [recordedSize, itemCount_eq hempty, List.length_nil, Nat.zero_mul]
    rfl
  rcases hrefund₁.accounted.refundOfNat hobject₁ none (by simp) L.hashTable_pos hsize
    with ⟨s', hfreed, -, hrefund⟩
  refine ⟨s', ?_, hrefund₁.trans hrefund⟩
  simp only [Allocator.freeHashTableAnd, hloop]
  exact hfreed

end Tables

/-! ## Lists and stacks -/

section Lists

variable {items items' : List Pointer}

theorem listLength_eq (h : items.length < 2 ^ 31) : listLength items = (items.length : Nat) :=
  toInt32_of_lt h

/-- A list that passes the assertion is short enough to be counted. -/
theorem checkLength_eq_ok (hlength : items.length ≤ 2 ^ 31) :
    checkLength items = .ok items' ↔ items' = items ∧ items ≠ [] ∧ items.length < 2 ^ 31 := by
  have hpositive : 0 < listLength items ↔ items ≠ [] ∧ items.length < 2 ^ 31 := by
    rcases Nat.lt_or_ge items.length (2 ^ 31) with hlt | hge
    · rw [listLength_eq hlt, Int.natCast_pos, List.length_pos_iff]
      exact (and_iff_left hlt).symm
    · have hmost : items.length = 2 ^ 31 := Nat.le_antisymm hlength hge
      have hnegative : ¬ 0 < listLength items := by
        rw [listLength, hmost]
        decide
      exact ⟨fun h => absurd h hnegative, fun h => absurd h.2 (Nat.not_lt.2 hge)⟩
  rw [checkLength]
  by_cases hpos : 0 < listLength items
  · rw [if_pos hpos, Except.ok.injEq, eq_comm, and_iff_left (hpositive.1 hpos)]
  · rw [if_neg hpos]
    refine ⟨fun h => ?_, fun h => absurd (hpositive.2 h.2) hpos⟩
    cases h

theorem appendItem_eq_ok {element : Pointer} (h : items.length < 2 ^ 31)
    (happend : appendItem items element = .ok items') :
    items' = items ++ [element] ∧ items'.length < 2 ^ 31 := by
  have hlength : (items ++ [element]).length ≤ 2 ^ 31 := by
    rw [List.length_append, List.length_singleton]
    exact h
  rcases (checkLength_eq_ok hlength).1 happend with ⟨rfl, -, hlt⟩
  exact ⟨rfl, hlt⟩

theorem insertItem_eq_ok {element : Pointer} (h : items.length < 2 ^ 31)
    (hinsert : insertItem items element = .ok items') :
    items' = element :: items ∧ items'.length < 2 ^ 31 := by
  have hlength : (element :: items).length ≤ 2 ^ 31 := h
  rcases (checkLength_eq_ok hlength).1 hinsert with ⟨rfl, -, hlt⟩
  exact ⟨rfl, hlt⟩

/-- A clone has the items of the list. -/
theorem cloneList_eq (h : items.length < 2 ^ 31) : cloneList items = .ok items := by
  have hall : ∀ left done : List Pointer, (done ++ left).length < 2 ^ 31 →
      left.foldlM appendItem done = .ok (done ++ left) := by
    intro left
    induction left with
    | nil =>
        intro done _
        rw [List.append_nil]
        rfl
    | cons element left ih =>
        intro done hlength
        have hnext : (done ++ [element] ++ left).length < 2 ^ 31 := by
          rwa [List.append_assoc, List.singleton_append]
        have hstep : appendItem done element = .ok (done ++ [element]) := by
          rw [List.length_append] at hnext
          have hlt := Nat.lt_of_le_of_lt (Nat.le_add_right _ _) hnext
          exact (checkLength_eq_ok (Nat.le_of_lt hlt)).2 ⟨rfl, by simp, hlt⟩
        rw [List.foldlM_cons, hstep]
        show left.foldlM appendItem (done ++ [element]) = _
        rw [ih _ hnext, List.append_assoc, List.singleton_append]
  exact hall items [] h

theorem Accounted.allocStack (h : Accounted L s) (hfits : Fits L (.ok (s.allocStack L))) :
    Keeps L s (.ok (s.allocStack L)) := by
  have hsize : recordedSize L (.stack []) = L.stack := by
    rw [recordedSize, List.length_nil, Nat.zero_mul, Nat.add_zero]
  exact Keeps.of_step (h.createOfNat (o := .stack []) (Nat.two_pow_pos 31) hsize (hfits _ rfl))

theorem Accounted.freeStack (h : Accounted L s) (hobject : s.object p = some (.stack items)) :
    ∃ s', s.freeStack L p = .ok s' ∧ Refund L s s' := by
  rcases h.freeContainer hobject L.listItem_pos L.stack_pos rfl
    with ⟨s₁, s', hitems, hfreed, hrefund⟩
  refine ⟨s', ?_, hrefund⟩
  simp only [Allocator.freeStack, hobject, listLength_eq (h.wellFormed p _ hobject), hitems]
  exact hfreed

theorem Accounted.stackPush (h : Accounted L s) (hobject : s.object p = some (.stack items))
    {element : Pointer} (hfits : Fits L (s.stackPush L p element)) :
    Keeps L s (s.stackPush L p element) := by
  simp only [Allocator.stackPush, hobject] at hfits ⊢
  refine Keeps.map fun items' hinsert => ?_
  rcases insertItem_eq_ok (h.wellFormed p _ hobject) hinsert with ⟨rfl, hlength⟩
  refine h.charge hobject (.stack (element :: items)) hlength ?_ (Fits.map hfits hinsert)
  rw [recordedSize, recordedSize, List.length_cons, Nat.add_mul, Nat.one_mul, Nat.add_assoc]

/-- The refund comes before the item is taken off. -/
theorem Accounted.stackPop (h : Accounted L s) (hobject : s.object p = some (.stack items))
    (hpresent : items ≠ []) : ∃ s', s.stackPop L p = .ok s' ∧ Refund L s s' := by
  have hlength : items.tail.length + 1 = items.length := by
    rw [List.length_tail]
    exact Nat.succ_pred_eq_of_pos (List.length_pos_iff.2 hpresent)
  have hwell : items.length < 2 ^ 31 := h.wellFormed p _ hobject
  have hsize : L.listItem + slotSize (recordedSize L) (some (.stack items.tail))
      = recordedSize L (.stack items) := by
    rw [slotSize, recordedSize, recordedSize, ← hlength, Nat.add_mul, Nat.one_mul]
    omega
  have hle : L.listItem ≤ s.memUsed.toNat := by
    have hrecorded := recordedSize_le (L := L) hobject
    rw [h.exact]
    omega
  have htoNat := toNat_ofNat_of_le hle s.memUsed.toNat_lt
  rcases freedMem_eq (s := s) (by rw [htoNat]; exact L.listItem_pos) (by rwa [htoNat])
    with ⟨s₁, hfreed, hheap, hmax, hmem⟩
  refine ⟨s₁.put p (some (.stack items.tail)), ?_, ?_⟩
  · simp only [Allocator.stackPop, hobject, hfreed]
    rfl
  · rw [htoNat] at hmem
    refine h.shrink hobject (some (.stack items.tail)) ?_
      (congrArg (fun heap => List.set heap p _) hheap) hmax hsize hmem
    intro o' ho'
    rcases Option.some.inj ho' with rfl
    show items.tail.length < 2 ^ 31
    omega

/-- Two charges, for the list and for its items, together record the list. -/
theorem Accounted.stackToList (h : Accounted L s) (hobject : s.object p = some (.stack items))
    (hfits : Fits L (s.stackToList L p)) : Keeps L s (s.stackToList L p) := by
  have hlength : items.length < 2 ^ 31 := h.wellFormed p _ hobject
  have hresult : s.stackToList L p = .ok
      (if 0 < items.length then
        ((s.create (.list items)).allocatedMem (UInt64.ofNat L.list)).allocatedMem
          (UInt64.ofNat (items.length * L.listItem))
      else (s.create (.list items)).allocatedMem (UInt64.ofNat L.list)) := by
    simp only [Allocator.stackToList, hobject, cloneList_eq hlength, xanlib, Except.mapError,
      Except.map, listLength_eq hlength, Int.natCast_pos, Int.toNat_natCast]
  rw [hresult] at hfits ⊢
  refine Keeps.of_step ?_
  have hroom := hfits _ rfl
  -- without items only the list itself is charged
  rcases Nat.eq_zero_or_pos items.length with hempty | hpos
  · rw [if_neg (by omega)] at hroom ⊢
    refine h.createOfNat (o := .list items) hlength ?_ hroom
    rw [recordedSize, hempty, Nat.zero_mul, Nat.add_zero]
  · rw [if_pos hpos] at hroom ⊢
    have hrecorded : (((s.create (.list items)).allocatedMem (UInt64.ofNat L.list)).allocatedMem
        (UInt64.ofNat (items.length * L.listItem))).recorded L
          = s.recorded L + recordedSize L (.list items) := recorded_append rfl
    rw [hrecorded, recordedSize] at hroom
    have hlist : (UInt64.ofNat L.list).toNat = L.list := toNat_ofNat_of_le (by omega) hroom
    have hitems : (UInt64.ofNat (items.length * L.listItem)).toNat = items.length * L.listItem :=
      toNat_ofNat_of_le (by omega) hroom
    have hexact := h.exact
    rcases toNat_allocatedMem (s.create (.list items)) (UInt64.ofNat L.list) (by
        rw [hlist]
        exact Nat.lt_of_le_of_lt (by rw [← hexact]; exact Nat.add_le_add_left (by omega) _) hroom)
      with ⟨hmem₁, hmax₁⟩
    have hcreate : (s.create (.list items)).memUsed = s.memUsed := rfl
    have hcreate' : (s.create (.list items)).maxMemUsed = s.maxMemUsed := rfl
    rw [hlist, hcreate] at hmem₁ hmax₁
    rcases toNat_allocatedMem ((s.create (.list items)).allocatedMem (UInt64.ofNat L.list))
        (UInt64.ofNat (items.length * L.listItem)) (by rw [hmem₁, hitems]; omega)
      with ⟨hmem₂, hmax₂⟩
    rw [hmem₁, hitems] at hmem₂ hmax₂
    refine h.add (o := .list items) hlength rfl ?_ ?_
    · rw [hmem₂, recordedSize]
      omega
    · rw [hmax₂, hmem₂, hmax₁, hcreate']
      omega

theorem Accounted.allocList (h : Accounted L s) (hfits : Fits L (.ok (s.allocList L))) :
    Keeps L s (.ok (s.allocList L)) := by
  have hsize : recordedSize L (.list []) = L.list := by
    rw [recordedSize, List.length_nil, Nat.zero_mul, Nat.add_zero]
  exact Keeps.of_step (h.createOfNat (o := .list []) (Nat.two_pow_pos 31) hsize (hfits _ rfl))

theorem Accounted.freeList (h : Accounted L s) (hobject : s.object p = some (.list items)) :
    ∃ s', s.freeList L p = .ok s' ∧ Refund L s s' := by
  rcases h.freeContainer hobject L.listItem_pos L.list_pos rfl
    with ⟨s₁, s', hitems, hfreed, hrefund⟩
  refine ⟨s', ?_, hrefund⟩
  simp only [Allocator.freeList, hobject, listLength_eq (h.wellFormed p _ hobject), hitems]
  exact hfreed

theorem Accounted.listAppend (h : Accounted L s) (hobject : s.object p = some (.list items))
    {element : Pointer} (hfits : Fits L (s.listAppend L p element)) :
    Keeps L s (s.listAppend L p element) := by
  simp only [Allocator.listAppend, hobject] at hfits ⊢
  refine Keeps.map fun items' happend => ?_
  rcases appendItem_eq_ok (h.wellFormed p _ hobject) happend with ⟨rfl, hlength⟩
  refine h.charge hobject (.list (items ++ [element])) hlength ?_ (Fits.map hfits happend)
  rw [recordedSize, recordedSize, List.length_append, List.length_singleton, Nat.add_mul,
    Nat.one_mul, Nat.add_assoc]

theorem Accounted.listDeleteItem (h : Accounted L s)
    (hobject : s.object p = some (.list items)) {item : Nat} (hitem : item < items.length) :
    ∃ s', s.listDeleteItem L p item = .ok s' ∧ Refund L s s' := by
  have hlength : (items.eraseIdx item).length + 1 = items.length := by
    rw [List.length_eraseIdx_of_lt hitem]
    omega
  have hwell : items.length < 2 ^ 31 := h.wellFormed p _ hobject
  have hsize : L.listItem + slotSize (recordedSize L) (some (.list (items.eraseIdx item)))
      = recordedSize L (.list items) := by
    rw [slotSize, recordedSize, recordedSize, ← hlength, Nat.add_mul, Nat.one_mul]
    omega
  rcases h.refundOfNat hobject (some (.list (items.eraseIdx item))) (fun o' ho' => by
      rcases Option.some.inj ho' with rfl
      show (items.eraseIdx item).length < 2 ^ 31
      omega) L.listItem_pos hsize with ⟨s', hfreed, -, hrefund⟩
  refine ⟨s', ?_, hrefund⟩
  simp only [Allocator.listDeleteItem, hobject, if_pos hitem]
  exact hfreed

theorem Accounted.listEmptyOutList (h : Accounted L s)
    (hobject : s.object p = some (.list items)) :
    ∃ s', s.listEmptyOutList L p = .ok s' ∧ Refund L s s' := by
  have hlength := listLength_eq (h.wellFormed p _ hobject : items.length < 2 ^ 31)
  rcases Nat.eq_zero_or_pos items.length with hempty | hpos
  · refine ⟨s, ?_, Refund.refl h⟩
    simp only [Allocator.listEmptyOutList, hobject, hlength, hempty]
    rfl
  · have hle : items.length * L.listItem ≤ s.memUsed.toNat := by
      have hrecorded := recordedSize_le (L := L) hobject
      rw [h.exact]
      simp only [recordedSize] at hrecorded
      omega
    rcases freedItems_eq (s := s) L.listItem_pos hle with ⟨s₁, hfreed, hheap, hmax, hmem⟩
    rw [freedItems, if_pos (Int.natCast_pos.2 hpos), Int.toNat_natCast] at hfreed
    refine ⟨s₁.put p (some (.list [])), ?_, ?_⟩
    · simp only [Allocator.listEmptyOutList, hobject, hlength, Int.natCast_pos, if_pos hpos,
        Int.toNat_natCast, hfreed]
      rfl
    · refine h.shrink hobject (some (.list [])) ?_
        (congrArg (fun heap => List.set heap p _) hheap) hmax ?_ hmem
      · intro o' ho'
        rcases Option.some.inj ho' with rfl
        exact Nat.two_pow_pos 31
      · simp only [slotSize, recordedSize, List.length_nil]
        omega

end Lists

/-! ## Bit sets -/

section BitSets

variable {set : XanBitWords}

/-- Setting a bit never gives room back. -/
theorem bitSetCapacity_setBit (set : XanBitWords) (pos : Nat) :
    bitSetCapacity set ≤ bitSetCapacity (set.setBit pos) := by
  have hexpand : set.data.length ≤ (set.expand (pos + 1)).data.length := by
    simp only [XanBitWords.expand]
    split
    · exact Nat.le_refl _
    · simp only [List.length_append, List.length_take, List.length_replicate,
        XanBitWords.capacityNecessary, XanBitWords.wordsNecessary] at *
      omega
  refine Nat.mul_le_mul_right 8 ?_
  simp only [XanBitWords.setBit, List.length_modify]
  split
  · exact hexpand
  · exact Nat.le_refl _

theorem Accounted.allocBitSet (h : Accounted L s) {length : Nat}
    (hfits : Fits L (s.allocBitSet L length)) : Keeps L s (s.allocBitSet L length) := by
  rw [Allocator.allocBitSet] at hfits ⊢
  split
  · rename_i hcapacity
    rw [if_pos hcapacity] at hfits
    exact Keeps.of_step (h.createOfNat (o := .bitSet (XanBitWords.new length)) trivial rfl
      (hfits _ rfl))
  · exact Or.inr ⟨_, rfl⟩

theorem Accounted.freeBitSet (h : Accounted L s) (hobject : s.object p = some (.bitSet set)) :
    ∃ s', s.freeBitSet L p = .ok s' ∧ Refund L s s' := by
  have hpos : 0 < L.bitSet + bitSetCapacity set := Nat.add_pos_left L.bitSet_pos _
  rcases h.refundOfNat hobject none (by simp) hpos rfl with ⟨s', hfreed, -, hrefund⟩
  refine ⟨s', ?_, hrefund⟩
  simp only [Allocator.freeBitSet, hobject]
  exact hfreed

/-- The charge is what the capacity grows by. -/
theorem Accounted.setBit (h : Accounted L s) (hobject : s.object p = some (.bitSet set))
    {pos : Nat} (hfits : Fits L (s.setBit p pos)) : Keeps L s (s.setBit p pos) := by
  have hle := bitSetCapacity_setBit set pos
  simp only [Allocator.setBit, hobject, if_neg (Nat.not_lt.2 hle)] at hfits ⊢
  split
  · rename_i hcapacity
    rw [if_pos hcapacity] at hfits
    split
    · rename_i hgrows
      rw [if_pos hgrows] at hfits
      refine Keeps.of_step (h.charge hobject (.bitSet (set.setBit pos)) trivial ?_
        (hfits _ rfl))
      simp only [recordedSize]
      omega
    · rename_i hsame
      have hsize : recordedSize L (.bitSet (set.setBit pos))
          = recordedSize L (.bitSet set) + 0 := by
        simp only [recordedSize]
        omega
      refine Keeps.of_step (h.grow hobject (.bitSet (set.setBit pos)) trivial rfl hsize rfl ?_)
      exact (Nat.max_eq_left h.le_max).symm
  · exact Or.inr ⟨_, rfl⟩

end BitSets

end Allocator
end CamAlias
