import CamAlias.Dependence.Conflicts
import CamAlias.Dependence.NextSlice
import CamAlias.Lib.Erasure
import CamAlias.RoundTrip.InvocationTraces
import Mathlib.Data.List.ReduceOption

/-!
# Consumption — which accesses the analysis of an invocation reads

A stream is only read when a pair of the menu needs it, and a pair is passed over if neither of its
instructions has an instance.  All the same, in front of every invocation the streamer of each stream
that some pair of the menu needs stands behind the accesses of the invocations before: a stream that is
not read in an invocation has no access in it.

* `Loaded.buildSet`, `Loaded.checkPair`: the accesses of a pair;
* `invocation_analysis_memeff_eq`: one pass over a menu;
* `LoopAnalysis.of_accesses`: what has been read behind the two passes, whatever they find;
* `LoopAnalysis.analyseAll_eq`: all invocations.
-/

namespace CamAlias

open Lib

/-! ## Streams without accesses -/

namespace MemSet

theorem fillBlock_nil {b : Block} {fuel consumed : Nat} {st st' : SliceState}
    (h : fillBlock [] b fuel consumed st = .ok st') : st' = st := by
  unfold fillBlock at h
  split at h
  · cases fuel with
    | zero => cases h
    | succ fuel =>
        have hentry : sliceEntry [] b consumed st = .error .outOfRange := by
          simp only [sliceEntry, List.getElem?_nil]
        simp only [hentry] at h
        cases h
  · split at h
    · exact (Except.ok.inj h).symm
    · cases h

theorem fillBlocks_nil {β : Type _} {block : β → Except Fault Block} {fuel : Nat} (xs : List β) :
    ∀ {st st' : SliceState}, fillBlocks [] block fuel xs st = .ok st' → st' = st := by
  induction xs with
  | nil => exact fun h => (Except.ok.inj h).symm
  | cons x xs ih =>
      intro st st' h
      rw [fillBlocks] at h
      split at h
      · cases h
      · split at h
        · cases h
        · rename_i st₁ hfill
          rcases fillBlock_nil hfill with rfl
          exact ih h

theorem slice_of_nil {set : MemSet} (hset : set.entries = []) {instrID : UInt64}
    {invGroup : InvocationGroupCfc} {fuel : Nat} {calls : CallTraceLoopInvocationGroup}
    {slice : List MemSetEntry} {set' : MemSet}
    (h : getInvocationSliceWithIterTags instrID invGroup fuel set calls = .ok (slice, set')) :
    slice = [] := by
  simp only [getInvocationSliceWithIterTags, hset] at h
  split at h
  · cases h
  · rename_i st hst
    rcases Prod.mk.inj (Except.ok.inj h) with ⟨rfl, -⟩
    split at hst
    · split at hst
      · cases hst
      · rw [fillBlocks_nil _ hst]
    · rw [fillBlocks_nil _ hst]

end MemSet

/-- Without instances there is nothing to read. -/
theorem MemoryTraceStreamer.nextSlice_zero {fuel : Nat} {s s' : MemoryTraceStreamer}
    {inv : InvocationTraces} {instrID : UInt64} {slice : List MemSetEntry}
    (h : s.nextSlice fuel inv instrID 0 = .ok (slice, s')) : slice = [] ∧ s' = s := by
  have hchunk : s.getNextChunk (BitVec.ofNat 64 0) false = .ok ([], s) := if_pos rfl
  simp only [nextSlice, hchunk] at h
  split at h
  · cases h
  · rename_i slice₁ set₁ hslice
    rcases Prod.mk.inj (Except.ok.inj h) with ⟨rfl, rfl⟩
    exact ⟨MemSet.slice_of_nil rfl hslice, rfl⟩

/-! ## The accesses of a pair -/

namespace StaticInstRec

theorem getSet_setSet (r : StaticInstRec) (stream : Stream) (set : List MemSetEntry) :
    (r.setSet stream set).getSet stream = some set := by
  cases stream <;> rfl

theorem getSet_setSet_of_ne (r : StaticInstRec) {stream stream' : Stream} (hne : stream ≠ stream')
    (set : List MemSetEntry) : (r.setSet stream set).getSet stream' = r.getSet stream' := by
  cases stream with
  | read =>
      cases stream' with
      | read => exact absurd rfl hne
      | write => rfl
  | write =>
      cases stream' with
      | read => rfl
      | write => exact absurd rfl hne

@[simp] theorem writeTree_setSet (r : StaticInstRec) (stream : Stream) (set : List MemSetEntry) :
    (r.setSet stream set).writeTree = r.writeTree := by
  cases stream <;> rfl

end StaticInstRec

/-- The slices that an invocation has of the streams that are needed, between two positions of their
streamers. -/
structure Slices (fuel : Nat) (subInstrList : Finset UInt64) (inv : InvocationTraces)
    (needs : UInt64 × Stream → Prop) (current next : UInt64 × Stream → MemoryTraceStreamer)
    (slice : UInt64 × Stream → List MemSetEntry) : Prop where
  nextSlice : ∀ key, needs key → (current key).nextSlice fuel inv key.1
    (inv.getNumInstancesInInvocation subInstrList key.1) = .ok (slice key, next key)

/-- The slice of a stream has been read. -/
structure HasRead (next : UInt64 × Stream → MemoryTraceStreamer)
    (slice : UInt64 × Stream → List MemSetEntry) (a : InvocationAccesses) (key : UInt64 × Stream) :
    Prop where
  set : (a.invMemoryTrace key.1).getSet key.2 = some (slice key)
  streamer : a.memtraceStreamers key = some (next key)

/-- Of every stream that is needed the slice has been read, or is the next one. -/
structure Positioned (needs : UInt64 × Stream → Prop)
    (current next : UInt64 × Stream → MemoryTraceStreamer)
    (slice : UInt64 × Stream → List MemSetEntry) (a : InvocationAccesses) : Prop where
  set : ∀ key, needs key →
    ((a.invMemoryTrace key.1).getSet key.2 = none ∧ a.memtraceStreamers key = some (current key)) ∨
      HasRead next slice a key

/-- So it is, and the trees have the slices of the writes. -/
structure Loaded (needs : UInt64 × Stream → Prop)
    (current next : UInt64 × Stream → MemoryTraceStreamer)
    (slice : UInt64 × Stream → List MemSetEntry) (a : InvocationAccesses) : Prop
    extends Positioned needs current next slice a where
  tree : ∀ id tree, (a.invMemoryTrace id).writeTree = some tree →
    tree.Valid ∧ tree.contents.Perm ((slice (id, .write)).map MemSetEntry.toInterval)

section Accesses

variable {fuel : Nat} {subInstrList : Finset UInt64} {inv : InvocationTraces}
  {needs : UInt64 × Stream → Prop} {current next : UInt64 × Stream → MemoryTraceStreamer}
  {slice : UInt64 × Stream → List MemSetEntry} {a a' : InvocationAccesses} {id : UInt64}

theorem Positioned.start {memtraceStreamers : UInt64 × Stream → Option MemoryTraceStreamer}
    (h : ∀ key, needs key → memtraceStreamers key = some (current key)) :
    Positioned needs current next slice { memtraceStreamers, invMemoryTrace := fun _ => {} } := by
  refine ⟨fun key hkey => Or.inl ⟨?_, h key hkey⟩⟩
  cases key.2 <;> rfl

theorem Loaded.start {memtraceStreamers : UInt64 × Stream → Option MemoryTraceStreamer}
    (h : ∀ key, needs key → memtraceStreamers key = some (current key)) :
    Loaded needs current next slice { memtraceStreamers, invMemoryTrace := fun _ => {} } := by
  refine ⟨Positioned.start h, fun id tree htree => ?_⟩
  cases htree

/-- The same sets have been read, from the same streams. -/
structure SameSets (a a' : InvocationAccesses) : Prop where
  set : ∀ key : UInt64 × Stream,
    (a'.invMemoryTrace key.1).getSet key.2 = (a.invMemoryTrace key.1).getSet key.2
  streamer : ∀ key, a'.memtraceStreamers key = a.memtraceStreamers key

theorem SameSets.hasRead (h : SameSets a a') {key : UInt64 × Stream}
    (hread : HasRead next slice a key) : HasRead next slice a' key :=
  ⟨(h.set key).trans hread.set, (h.streamer key).trans hread.streamer⟩

theorem SameSets.positioned (h : SameSets a a') (hpositioned : Positioned needs current next slice a) :
    Positioned needs current next slice a' := by
  refine ⟨fun key hkey => (hpositioned.set key hkey).imp ?_ h.hasRead⟩
  rintro ⟨hnone, hcurrent⟩
  exact ⟨(h.set key).trans hnone, (h.streamer key).trans hcurrent⟩

/-- A set is built, and the others and the trees are left alone. -/
theorem Positioned.buildSet (h : Positioned needs current next slice a)
    (hslices : Slices fuel subInstrList inv needs current next slice) {stream : Stream}
    (hneeds : needs (id, stream)) :
    ∃ a', a.buildSet fuel subInstrList inv id stream = .ok a' ∧
      Positioned needs current next slice a' ∧ HasRead next slice a' (id, stream) ∧
      (∀ key, HasRead next slice a key → HasRead next slice a' key) ∧
      ∀ id, (a'.invMemoryTrace id).writeTree = (a.invMemoryTrace id).writeTree := by
  rcases h.set (id, stream) hneeds with ⟨hset, hstreamer⟩ | hread
  · have hset : (a.invMemoryTrace id).getSet stream = none := hset
    let a' : InvocationAccesses :=
      { memtraceStreamers := Function.update a.memtraceStreamers (id, stream) (some (next (id, stream)))
        invMemoryTrace := Function.update a.invMemoryTrace id
          ((a.invMemoryTrace id).setSet stream (slice (id, stream))) }
    have hbuild : a.buildSet fuel subInstrList inv id stream = .ok a' := by
      simp only [InvocationAccesses.buildSet, hset, hstreamer, hslices.nextSlice (id, stream) hneeds]
      rfl
    have hself : HasRead next slice a' (id, stream) := by
      refine ⟨?_, Function.update_self ..⟩
      simp only [a', Function.update_self, StaticInstRec.getSet_setSet]
    -- the set and the streamer of another stream
    have hother : ∀ key, key ≠ (id, stream) →
        (a'.invMemoryTrace key.1).getSet key.2 = (a.invMemoryTrace key.1).getSet key.2 ∧
          a'.memtraceStreamers key = a.memtraceStreamers key := by
      rintro ⟨id', stream'⟩ hne
      refine ⟨?_, Function.update_of_ne hne ..⟩
      by_cases hid : id' = id
      · subst hid
        have hstreams : stream ≠ stream' := fun heq => hne (by rw [heq])
        simp only [a', Function.update_self, StaticInstRec.getSet_setSet_of_ne _ hstreams]
      · simp only [a', Function.update_of_ne hid]
    have hkept : ∀ key, HasRead next slice a key → HasRead next slice a' key := by
      intro key hread
      by_cases heq : key = (id, stream)
      · exact heq ▸ hself
      · rcases hother key heq with ⟨hsets, hstreamers⟩
        exact ⟨hsets.trans hread.set, hstreamers.trans hread.streamer⟩
    refine ⟨a', hbuild, ⟨?_⟩, hself, hkept, ?_⟩
    · intro key hkey
      by_cases heq : key = (id, stream)
      · exact Or.inr (heq ▸ hself)
      · rcases hother key heq with ⟨hsets, hstreamers⟩
        refine (h.set key hkey).imp ?_ (hkept key)
        rintro ⟨hnone, hcurrent⟩
        exact ⟨hsets.trans hnone, hstreamers.trans hcurrent⟩
    · intro id'
      by_cases hid : id' = id
      · subst hid
        simp only [a', Function.update_self, StaticInstRec.writeTree_setSet]
      · simp only [a', Function.update_of_ne hid]
  · refine ⟨a, ?_, h, hread, fun _ hread' => hread', fun _ => rfl⟩
    have hset : (a.invMemoryTrace id).getSet stream = some (slice (id, stream)) := hread.set
    simp only [InvocationAccesses.buildSet, hset]

theorem Loaded.buildSet (h : Loaded needs current next slice a)
    (hslices : Slices fuel subInstrList inv needs current next slice) {stream : Stream}
    (hneeds : needs (id, stream)) :
    ∃ a', a.buildSet fuel subInstrList inv id stream = .ok a' ∧
      Loaded needs current next slice a' ∧ HasRead next slice a' (id, stream) ∧
      ∀ key, HasRead next slice a key → HasRead next slice a' key := by
  rcases h.toPositioned.buildSet hslices hneeds with ⟨a', hbuild, h', hread, hkept, htrees⟩
  refine ⟨a', hbuild, ⟨h', fun id' tree htree => ?_⟩, hread, hkept⟩
  rw [htrees] at htree
  exact h.tree id' tree htree

/-- Building a tree leaves the sets alone. -/
theorem sameSets_of_buildWriteTree {sorter : StartSort Nat MemSetEntry}
    {tree : IntervalTree Nat MemSetEntry} (h : a.buildWriteTree sorter id = .ok (tree, a')) :
    SameSets a a' := by
  rw [InvocationAccesses.buildWriteTree] at h
  split at h
  · rcases Prod.mk.inj (Except.ok.inj h) with ⟨-, rfl⟩
    exact ⟨fun _ => rfl, fun _ => rfl⟩
  · split at h
    · cases h
    · rcases Prod.mk.inj (Except.ok.inj h) with ⟨-, rfl⟩
      refine ⟨?_, fun _ => rfl⟩
      rintro ⟨id', stream⟩
      by_cases hid : id' = id
      · subst hid
        simp only [Function.update_self]
        cases stream <;> rfl
      · simp only [Function.update_of_ne hid]

/-- The tree of a write set that has been read. -/
theorem Loaded.buildWriteTree (h : Loaded needs current next slice a)
    (sorter : StartSort Nat MemSetEntry) (hread : HasRead next slice a (id, .write)) :
    ∃ tree a', a.buildWriteTree sorter id = .ok (tree, a') ∧ tree.Valid ∧
      tree.contents.Perm ((slice (id, .write)).map MemSetEntry.toInterval) ∧
      Loaded needs current next slice a' ∧
      ∀ key, HasRead next slice a key → HasRead next slice a' key := by
  -- the tree is built once for an invocation, and kept with the set
  cases htree : (a.invMemoryTrace id).writeTree with
  | some tree =>
      rcases h.tree id tree htree with ⟨hvalid, hcontents⟩
      refine ⟨tree, a, ?_, hvalid, hcontents, h, fun _ hread' => hread'⟩
      simp only [InvocationAccesses.buildWriteTree, htree]
  | none =>
      have hset : (a.invMemoryTrace id).writeSet = some (slice (id, .write)) := hread.set
      rcases (IntervalTree.new_eq_some_iff sorter ((slice (id, .write)).map MemSetEntry.toInterval)
        16 64 512).2 (Or.inr (Or.inr ⟨by decide, by decide⟩)) with ⟨tree, hnew⟩
      rcases IntervalTree.valid_new hnew with ⟨hvalid, hcontents⟩
      let a' : InvocationAccesses :=
        { a with
          invMemoryTrace := Function.update a.invMemoryTrace id
            ({ a.invMemoryTrace id with writeTree := some tree } : StaticInstRec) }
      have hbuild : a.buildWriteTree sorter id = .ok (tree, a') := by
        have hbuilt : buildIntervalTree sorter ((a.invMemoryTrace id).writeSet.getD []) = some tree := by
          rw [hset]
          exact hnew
        simp only [InvocationAccesses.buildWriteTree, htree, hbuilt]
        rfl
      have hsame := sameSets_of_buildWriteTree hbuild
      refine ⟨tree, a', hbuild, hvalid, hcontents, ⟨hsame.positioned h.toPositioned, ?_⟩,
        fun _ => hsame.hasRead⟩
      intro id' tree' htree'
      by_cases hid : id' = id
      · subst hid
        simp only [a', Function.update_self, Option.some.injEq] at htree'
        exact htree' ▸ ⟨hvalid, hcontents⟩
      · simp only [a', Function.update_of_ne hid] at htree'
        exact h.tree id' tree' htree'

end Accesses

/-! ## One pass over a menu -/

/-- The stream of the second instruction of a pair. -/
def secondStream (WAW : Bool) : Stream :=
  if WAW then .write else .read

/-- The streams that a pair needs. -/
def NeedsOf (WAW : Bool) (instrPair : UInt64 × UInt64) (key : UInt64 × Stream) : Prop :=
  key = (instrPair.1, .write) ∨ key = (instrPair.2, secondStream WAW)

/-- What an invocation shows for the pairs of a menu: their dependences, and whether they are erased. -/
structure Outcomes where
  shows : Bool → UInt64 × UInt64 → UInt64 × UInt64 → Prop
  erased : Bool → UInt64 × UInt64 → Bool

/-- A pair is passed over. -/
def InvocationTraces.Skips (inv : InvocationTraces) (subInstrList : Finset UInt64)
    (instrPair : UInt64 × UInt64) : Prop :=
  inv.getNumInstancesInInvocation subInstrList instrPair.1 = 0 ∧
    inv.getNumInstancesInInvocation subInstrList instrPair.2 = 0

/-- The pass comes to the outcome of a pair, which is none if the pair is passed over. -/
structure ComesTo (args : AnalysisArgs) (isAlias : MemSetEntry → MemSetEntry → Option Bool)
    (fuel : Nat) (subInstrList : Finset UInt64) (inv : InvocationTraces)
    (slice : UInt64 × Stream → List MemSetEntry) (WAW : Bool) (o : Outcomes)
    (instrPair : UInt64 × UInt64) : Prop where
  searched : ¬ inv.Skips subInstrList instrPair →
    SearchesPair args isAlias fuel subInstrList inv WAW instrPair (slice (instrPair.1, .write))
      (slice (instrPair.2, secondStream WAW)) (o.shows WAW instrPair) (o.erased WAW instrPair)
  skipped : inv.Skips subInstrList instrPair →
    (∀ x, ¬ o.shows WAW instrPair x) ∧ o.erased WAW instrPair = false

/-- What is behind a pass over a menu. -/
structure Passed (needs : UInt64 × Stream → Prop)
    (current next : UInt64 × Stream → MemoryTraceStreamer)
    (slice : UInt64 × Stream → List MemSetEntry) (WAW : Bool) (o : Outcomes)
    (menu : List (UInt64 × UInt64)) (pairs : Finset (UInt64 × UInt64)) (a' : InvocationAccesses)
    (menu' : List (UInt64 × UInt64)) (pairs' : Finset (UInt64 × UInt64)) : Prop where
  loaded : Loaded needs current next slice a'
  left : menu' = menu.filter fun p => !o.erased WAW p
  recorded : ∀ x, x ∈ pairs' ↔ x ∈ pairs ∨ ∃ p ∈ menu, o.shows WAW p x

section Pass

variable {args : AnalysisArgs} {isAlias : MemSetEntry → MemSetEntry → Option Bool} {fuel : Nat}
  {subInstrList : Finset UInt64} {inv : InvocationTraces} {needs : UInt64 × Stream → Prop}
  {current next : UInt64 × Stream → MemoryTraceStreamer}
  {slice : UInt64 × Stream → List MemSetEntry} {WAW : Bool} {o : Outcomes} {a : InvocationAccesses}

/-- One pair. -/
theorem Loaded.checkPair (h : Loaded needs current next slice a)
    (hslices : Slices fuel subInstrList inv needs current next slice)
    (sorter : StartSort Nat MemSetEntry) {instrPair : UInt64 × UInt64}
    (hneeds : ∀ key, NeedsOf WAW instrPair key → needs key) {shows : UInt64 × UInt64 → Prop}
    {erased : Bool}
    (hsearch : SearchesPair args isAlias fuel subInstrList inv WAW instrPair
      (slice (instrPair.1, .write)) (slice (instrPair.2, secondStream WAW)) shows erased)
    (pairs : Finset (UInt64 × UInt64)) :
    ∃ a' pairs', checkPair args isAlias sorter fuel subInstrList inv WAW instrPair a pairs
        = .ok (a', pairs', erased) ∧ Loaded needs current next slice a' ∧
      ∀ x, x ∈ pairs' ↔ x ∈ pairs ∨ shows x := by
  rcases h.buildSet hslices (hneeds _ (Or.inl rfl)) with ⟨a₁, hbuild₁, h₁, hread₁, -⟩
  rcases h₁.buildSet hslices (hneeds _ (Or.inr rfl)) with ⟨a₂, hbuild₂, h₂, hread₂, hkept₂⟩
  rcases h₂.buildWriteTree sorter (hkept₂ _ hread₁) with
    ⟨tree, a₃, htree, hvalid, hcontents, h₃, hkept₃⟩
  rcases hsearch tree hvalid hcontents pairs with ⟨pairs', hresult, hrecorded⟩
  refine ⟨a₃, pairs', ?_, h₃, hrecorded⟩
  have hset : ((a₃.invMemoryTrace instrPair.2).getSet (secondStream WAW)).getD []
      = slice (instrPair.2, secondStream WAW) := by
    rw [(hkept₃ _ hread₂).set]
    rfl
  rw [CamAlias.checkPair]
  simp only [secondStream] at hbuild₂ hset hresult
  simp only [hbuild₁, hbuild₂, htree, hset, hresult]

/-- The streamer of a stream without instances stays where it is, read or not. -/
theorem Slices.of_zero (hslices : Slices fuel subInstrList inv needs current next slice)
    {key : UInt64 × Stream} (hneeds : needs key)
    (hzero : inv.getNumInstancesInInvocation subInstrList key.1 = 0) :
    slice key = [] ∧ next key = current key := by
  have hslice := hslices.nextSlice key hneeds
  rw [hzero] at hslice
  exact MemoryTraceStreamer.nextSlice_zero hslice

/-- One pair, whatever comes of the search. -/
theorem Positioned.of_checkPair (h : Positioned needs current next slice a)
    (hslices : Slices fuel subInstrList inv needs current next slice)
    {sorter : StartSort Nat MemSetEntry} {instrPair : UInt64 × UInt64}
    (hneeds : ∀ key, NeedsOf WAW instrPair key → needs key) {a' : InvocationAccesses}
    {pairs pairs' : Finset (UInt64 × UInt64)} {erased : Bool}
    (hok : checkPair args isAlias sorter fuel subInstrList inv WAW instrPair a pairs
      = .ok (a', pairs', erased)) :
    Positioned needs current next slice a' ∧
      (∀ key, NeedsOf WAW instrPair key → HasRead next slice a' key) ∧
      ∀ key, HasRead next slice a key → HasRead next slice a' key := by
  rcases h.buildSet hslices (hneeds _ (Or.inl rfl)) with ⟨a₁, hbuild₁, h₁, hread₁, hkept₁, -⟩
  rcases h₁.buildSet hslices (hneeds _ (Or.inr rfl)) with ⟨a₂, hbuild₂, h₂, hread₂, hkept₂, -⟩
  simp only [secondStream] at hbuild₂
  simp only [checkPair, hbuild₁, hbuild₂] at hok
  split at hok
  · cases hok
  · rename_i tree a₃ htree
    have hsame := sameSets_of_buildWriteTree htree
    split at hok
    · cases hok
    · rcases Prod.mk.inj (Except.ok.inj hok) with ⟨rfl, -⟩
      refine ⟨hsame.positioned h₂, ?_, fun key hread => hsame.hasRead (hkept₂ key (hkept₁ key hread))⟩
      rintro key (rfl | rfl)
      · exact hsame.hasRead (hkept₂ _ hread₁)
      · exact hsame.hasRead hread₂

/-- What is behind a pass, whatever it finds: the streams of its pairs have been read, or there is
nothing to be read in them. -/
structure Walked (needs : UInt64 × Stream → Prop)
    (current next : UInt64 × Stream → MemoryTraceStreamer)
    (slice : UInt64 × Stream → List MemSetEntry) (WAW : Bool) (a : InvocationAccesses)
    (menu : List (UInt64 × UInt64)) (a' : InvocationAccesses) (menu' : List (UInt64 × UInt64)) :
    Prop where
  positioned : Positioned needs current next slice a'
  kept : ∀ key, HasRead next slice a key → HasRead next slice a' key
  behind : ∀ p ∈ menu, ∀ key, NeedsOf WAW p key →
    HasRead next slice a' key ∨ slice key = [] ∧ next key = current key
  left : menu' ⊆ menu

theorem Positioned.of_invocation_analysis_memeff
    (hslices : Slices fuel subInstrList inv needs current next slice)
    {sorter : StartSort Nat MemSetEntry} (menu : List (UInt64 × UInt64)) :
    ∀ {a a' : InvocationAccesses} {menu' : List (UInt64 × UInt64)}
      {pairs pairs' : Finset (UInt64 × UInt64)}, Positioned needs current next slice a →
      (∀ p ∈ menu, ∀ key, NeedsOf WAW p key → needs key) →
      invocation_analysis_memeff args isAlias sorter fuel subInstrList inv WAW menu a pairs
        = .ok (a', menu', pairs') →
      Walked needs current next slice WAW a menu a' menu' := by
  induction menu with
  | nil =>
      intro a a' menu' pairs pairs' h _ hok
      rcases Prod.mk.inj (Except.ok.inj hok) with ⟨rfl, hrest⟩
      rcases Prod.mk.inj hrest with ⟨rfl, -⟩
      exact ⟨h, fun _ hread => hread, by simp, List.Subset.refl []⟩
  | cons p menu ih =>
      intro a a' menu' pairs pairs' h hneeds hok
      rcases List.forall_mem_cons.1 hneeds with ⟨hneed, hneeds⟩
      rw [invocation_analysis_memeff] at hok
      split at hok
      · rename_i hskip
        split at hok
        · cases hok
        · rename_i a₁ menu₁ pairs₁ hpass
          rcases Prod.mk.inj (Except.ok.inj hok) with ⟨rfl, hrest⟩
          rcases Prod.mk.inj hrest with ⟨rfl, -⟩
          have hwalked := ih h hneeds hpass
          refine ⟨hwalked.positioned, hwalked.kept, List.forall_mem_cons.2 ⟨?_, hwalked.behind⟩,
            List.cons_subset_cons p hwalked.left⟩
          -- neither instruction has an instance
          rintro key (rfl | rfl)
          · exact Or.inr (hslices.of_zero (hneed _ (Or.inl rfl)) hskip.1)
          · exact Or.inr (hslices.of_zero (hneed _ (Or.inr rfl)) hskip.2)
      · split at hok
        · cases hok
        · rename_i a₁ pairs₁ erased hcheck
          rcases h.of_checkPair hslices hneed hcheck with ⟨h₁, hread, hkept⟩
          split at hok
          · cases hok
          · rename_i a₂ menu₂ pairs₂ hpass
            rcases Prod.mk.inj (Except.ok.inj hok) with ⟨rfl, hrest⟩
            rcases Prod.mk.inj hrest with ⟨rfl, -⟩
            have hwalked := ih h₁ hneeds hpass
            refine ⟨hwalked.positioned, fun key hold => hwalked.kept key (hkept key hold),
              List.forall_mem_cons.2 ⟨fun key hkey => Or.inl ?_, hwalked.behind⟩, ?_⟩
            · exact hwalked.kept key (hread key hkey)
            · split
              · exact List.subset_cons_of_subset p hwalked.left
              · exact List.cons_subset_cons p hwalked.left

/-- `invocation_analysis_memeff` on one of the menus. -/
theorem invocation_analysis_memeff_eq
    (hslices : Slices fuel subInstrList inv needs current next slice)
    (sorter : StartSort Nat MemSetEntry) (menu : List (UInt64 × UInt64)) :
    ∀ {a : InvocationAccesses} (pairs : Finset (UInt64 × UInt64)),
      Loaded needs current next slice a →
      (∀ p ∈ menu, ∀ key, NeedsOf WAW p key → needs key) →
      (∀ p ∈ menu, ComesTo args isAlias fuel subInstrList inv slice WAW o p) →
      ∃ a' menu' pairs', invocation_analysis_memeff args isAlias sorter fuel subInstrList inv WAW menu
          a pairs = .ok (a', menu', pairs') ∧
        Passed needs current next slice WAW o menu pairs a' menu' pairs' := by
  induction menu with
  | nil =>
      intro a pairs h _ _
      exact ⟨a, [], pairs, rfl, h, rfl, by simp⟩
  | cons p menu ih =>
      intro a pairs h hneeds hcomes
      rcases List.forall_mem_cons.1 hneeds with ⟨hneed, hneeds⟩
      rcases List.forall_mem_cons.1 hcomes with ⟨hfirst, hcomes⟩
      -- a pair without instances is passed over and stays on the menu
      by_cases hskip : inv.Skips subInstrList p
      · rcases ih pairs h hneeds hcomes with ⟨a', menu', pairs', hpass, hpassed⟩
        rcases hfirst.skipped hskip with ⟨hshows, hkept⟩
        refine ⟨a', p :: menu', pairs', ?_, hpassed.loaded, ?_, ?_⟩
        · have hzero := hskip
          rw [InvocationTraces.Skips] at hzero
          rw [invocation_analysis_memeff, if_pos hzero]
          simp only [hpass]
        · rw [hpassed.left, List.filter_cons, hkept]
          rfl
        · intro x
          rw [hpassed.recorded, List.exists_mem_cons_iff, or_iff_right (hshows x)]
      · rcases h.checkPair hslices sorter hneed (hfirst.searched hskip) pairs with
          ⟨a₁, pairs₁, hcheck, h₁, hrecorded⟩
        rcases ih pairs₁ h₁ hneeds hcomes with ⟨a', menu', pairs', hpass, hpassed⟩
        refine ⟨a', if o.erased WAW p then menu' else p :: menu', pairs', ?_, hpassed.loaded, ?_, ?_⟩
        · have hpositive := hskip
          rw [InvocationTraces.Skips] at hpositive
          rw [invocation_analysis_memeff, if_neg hpositive]
          simp only [hcheck, hpass]
        · rw [List.filter_cons, ← hpassed.left]
          cases o.erased WAW p with
          | true => rfl
          | false => rfl
        · intro x
          rw [hpassed.recorded, hrecorded, List.exists_mem_cons_iff, or_assoc]

end Pass

/-! ## One invocation -/

/-- The pairs that are checked in one of the passes. -/
def InstrPairMenu.pairs (menu : InstrPairMenu) (WAW : Bool) : List (UInt64 × UInt64) :=
  if WAW then menu.ww_menu else menu.rw_menu

/-- The streams that some pair needs. -/
def InstrPairMenu.Needs (menu : InstrPairMenu) (key : UInt64 × Stream) : Prop :=
  ∃ WAW, ∃ p ∈ menu.pairs WAW, NeedsOf WAW p key

namespace LoopAnalysis

/-- The dependences that one of the passes finds. -/
def dependence_pairs (st : LoopAnalysis) (WAW : Bool) : Finset (UInt64 × UInt64) :=
  if WAW then st.ww_dependence_pairs else st.rw_dependence_pairs

/-- What is behind an invocation. -/
structure Analysed (next : UInt64 × Stream → MemoryTraceStreamer) (o : Outcomes)
    (st st' : LoopAnalysis) : Prop where
  behind : ∀ key, st.pairMenu.Needs key → st'.memtraceStreamers key = some (next key)
  left : ∀ WAW, st'.pairMenu.pairs WAW = (st.pairMenu.pairs WAW).filter fun p => !o.erased WAW p
  recorded : ∀ WAW x, x ∈ st'.dependence_pairs WAW ↔
    x ∈ st.dependence_pairs WAW ∨ ∃ p ∈ st.pairMenu.pairs WAW, o.shows WAW p x

section Analyse

variable {args : AnalysisArgs} {isAlias : MemSetEntry → MemSetEntry → Option Bool} {fuel : Nat}
  {subInstrList : Finset UInt64} {st : LoopAnalysis}

/-- The accesses that the two passes over the menus of an invocation leave behind. -/
def accesses (args : AnalysisArgs) (isAlias : MemSetEntry → MemSetEntry → Option Bool)
    (sorter : StartSort Nat MemSetEntry) (fuel : Nat) (subInstrList : Finset UInt64)
    (st : LoopAnalysis) (inv : InvocationTraces) : Except Fault InvocationAccesses :=
  match invocation_analysis_memeff args isAlias sorter fuel subInstrList inv false
      st.pairMenu.rw_menu { memtraceStreamers := st.memtraceStreamers, invMemoryTrace := fun _ => {} }
      st.rw_dependence_pairs with
  | .error e => .error e
  | .ok (a, _, _) =>
      match invocation_analysis_memeff args isAlias sorter fuel subInstrList inv true
          st.pairMenu.ww_menu a st.ww_dependence_pairs with
      | .error e => .error e
      | .ok (a, _, _) => .ok a

/-- What is behind the two passes, whatever they find: the streams that are needed have been read, or
there is nothing to be read in them. -/
theorem of_accesses {current next : UInt64 × Stream → MemoryTraceStreamer}
    {slice : UInt64 × Stream → List MemSetEntry} {inv : InvocationTraces}
    {sorter : StartSort Nat MemSetEntry} {a : InvocationAccesses}
    (hslices : Slices fuel subInstrList inv st.pairMenu.Needs current next slice)
    (hstreamers : ∀ key, st.pairMenu.Needs key → st.memtraceStreamers key = some (current key))
    (h : st.accesses args isAlias sorter fuel subInstrList inv = .ok a) {key : UInt64 × Stream}
    (hkey : st.pairMenu.Needs key) :
    ((a.invMemoryTrace key.1).getSet key.2).getD [] = slice key ∧
      a.memtraceStreamers key = some (next key) := by
  have hneeds : ∀ WAW, ∀ p ∈ st.pairMenu.pairs WAW, ∀ key, NeedsOf WAW p key →
      st.pairMenu.Needs key := fun WAW p hp key hkey => ⟨WAW, p, hp, hkey⟩
  rw [accesses] at h
  split at h
  · cases h
  · rename_i a₁ rw_menu rw_pairs hrw
    split at h
    · cases h
    · rename_i a₂ ww_menu ww_pairs hww
      rcases Except.ok.inj h with rfl
      have hrw := Positioned.of_invocation_analysis_memeff hslices _ (Positioned.start hstreamers)
        (hneeds false) hrw
      have hww := Positioned.of_invocation_analysis_memeff hslices _ hrw.positioned (hneeds true) hww
      rcases hkey with ⟨WAW, p, hp, hpair⟩
      have hbehind : HasRead next slice a₂ key ∨ slice key = [] ∧ next key = current key := by
        cases WAW with
        | false => exact (hrw.behind p hp key hpair).imp_left (hww.kept key)
        | true => exact hww.behind p hp key hpair
      rcases hbehind with hread | ⟨hnil, hsame⟩
      · exact ⟨by rw [hread.set, Option.getD_some], hread.streamer⟩
      · rcases hww.positioned.set key (hneeds WAW p hp key hpair) with ⟨hnone, hcurrent⟩ | hread
        · exact ⟨by rw [hnone, hnil, Option.getD_none], by rw [hcurrent, hsame]⟩
        · exact ⟨by rw [hread.set, Option.getD_some], hread.streamer⟩

/-- The analysis of an invocation takes the streamers on, and puts nothing on the menus. -/
theorem of_analyse {current next : UInt64 × Stream → MemoryTraceStreamer}
    {slice : UInt64 × Stream → List MemSetEntry} {inv : InvocationTraces}
    {sorter : StartSort Nat MemSetEntry} {st' : LoopAnalysis}
    (hslices : Slices fuel subInstrList inv st.pairMenu.Needs current next slice)
    (hstreamers : ∀ key, st.pairMenu.Needs key → st.memtraceStreamers key = some (current key))
    (h : st.analyse args isAlias sorter fuel subInstrList inv = .ok st') :
    (∀ key, st.pairMenu.Needs key → st'.memtraceStreamers key = some (next key)) ∧
      ∀ WAW, st'.pairMenu.pairs WAW ⊆ st.pairMenu.pairs WAW := by
  have hneeds : ∀ WAW, ∀ p ∈ st.pairMenu.pairs WAW, ∀ key, NeedsOf WAW p key →
      st.pairMenu.Needs key := fun WAW p hp key hkey => ⟨WAW, p, hp, hkey⟩
  rw [analyse] at h
  split at h
  · cases h
  · rename_i a₁ rw_menu rw_pairs hrw
    split at h
    · cases h
    · rename_i a₂ ww_menu ww_pairs hww
      have haccesses : st.accesses args isAlias sorter fuel subInstrList inv = .ok a₂ := by
        simp only [accesses, hrw, hww]
      have hrw := Positioned.of_invocation_analysis_memeff hslices _ (Positioned.start hstreamers)
        (hneeds false) hrw
      have hww := Positioned.of_invocation_analysis_memeff hslices _ hrw.positioned (hneeds true) hww
      rcases Except.ok.inj h with rfl
      refine ⟨fun key hkey => (of_accesses hslices hstreamers haccesses hkey).2, fun WAW => ?_⟩
      cases WAW with
      | false => exact hrw.left
      | true => exact hww.left

/-- The two passes. -/
theorem analyse_eq {current next : UInt64 × Stream → MemoryTraceStreamer}
    {slice : UInt64 × Stream → List MemSetEntry} {inv : InvocationTraces} {o : Outcomes}
    (hslices : Slices fuel subInstrList inv st.pairMenu.Needs current next slice)
    (hstreamers : ∀ key, st.pairMenu.Needs key → st.memtraceStreamers key = some (current key))
    (hcomes : ∀ WAW, ∀ p ∈ st.pairMenu.pairs WAW,
      ComesTo args isAlias fuel subInstrList inv slice WAW o p)
    (sorter : StartSort Nat MemSetEntry) :
    ∃ st', st.analyse args isAlias sorter fuel subInstrList inv = .ok st' ∧
      Analysed next o st st' := by
  have hneeds : ∀ WAW, ∀ p ∈ st.pairMenu.pairs WAW, ∀ key, NeedsOf WAW p key →
      st.pairMenu.Needs key := fun WAW p hp key hkey => ⟨WAW, p, hp, hkey⟩
  rcases invocation_analysis_memeff_eq hslices sorter st.pairMenu.rw_menu st.rw_dependence_pairs
    (Loaded.start hstreamers) (hneeds false) (hcomes false) with
    ⟨a₁, rw_menu, rw_pairs, hrw, hrwPassed⟩
  rcases invocation_analysis_memeff_eq hslices sorter st.pairMenu.ww_menu st.ww_dependence_pairs
    hrwPassed.loaded (hneeds true) (hcomes true) with
    ⟨a₂, ww_menu, ww_pairs, hww, hwwPassed⟩
  let st' : LoopAnalysis :=
    { memtraceStreamers := a₂.memtraceStreamers
      pairMenu := { rw_menu, ww_menu }
      rw_dependence_pairs := rw_pairs
      ww_dependence_pairs := ww_pairs }
  have hanalyse : st.analyse args isAlias sorter fuel subInstrList inv = .ok st' := by
    simp only [analyse, hrw, hww]
    rfl
  refine ⟨st', hanalyse, (of_analyse hslices hstreamers hanalyse).1, ?_, ?_⟩
  · intro WAW
    cases WAW with
    | false => exact hrwPassed.left
    | true => exact hwwPassed.left
  · intro WAW x
    cases WAW with
    | false => exact hrwPassed.recorded x
    | true => exact hwwPassed.recorded x

end Analyse
end LoopAnalysis

/-! ## All invocations -/

/-- Both instructions of a pair have one effective instruction in an invocation. -/
def erasable (subInstrList : Finset UInt64) (inv : InvocationTraces) (instrPair : UInt64 × UInt64) :
    Bool :=
  (constantCallIDs subInstrList inv instrPair).toOption == some true

/-- What there is of one invocation after the other in the streams that are needed. -/
def SlicedInto (fuel : Nat) (subInstrList : Finset UInt64) (needs : UInt64 × Stream → Prop) :
    (UInt64 × Stream → MemoryTraceStreamer) →
      List (InvocationTraces × (UInt64 × Stream → List MemSetEntry)) → Prop
  | _, [] => True
  | current, (inv, slice) :: steps =>
      ∃ next, Slices fuel subInstrList inv needs current next slice ∧
        SlicedInto fuel subInstrList needs next steps

theorem SlicedInto.mono {fuel : Nat} {subInstrList : Finset UInt64}
    {needs needs' : UInt64 × Stream → Prop} (hneeds : ∀ key, needs' key → needs key)
    (steps : List (InvocationTraces × (UInt64 × Stream → List MemSetEntry))) :
    ∀ {current : UInt64 × Stream → MemoryTraceStreamer},
      SlicedInto fuel subInstrList needs current steps →
        SlicedInto fuel subInstrList needs' current steps := by
  induction steps with
  | nil => exact fun _ => trivial
  | cons step steps ih =>
      rintro current ⟨next, hslices, hrest⟩
      exact ⟨next, ⟨fun key hkey => hslices.nextSlice key (hneeds key hkey)⟩, ih hrest⟩

/-- The invocations with the slices of each stream, dealt out one after the other. -/
def invocationSteps : List InvocationTraces → (UInt64 × Stream → List (List MemSetEntry)) →
    List (InvocationTraces × (UInt64 × Stream → List MemSetEntry))
  | [], _ => []
  | inv :: ts, slices =>
      (inv, fun key => (slices key).headD []) :: invocationSteps ts fun key => (slices key).tail

theorem map_fst_invocationSteps (ts : List InvocationTraces) :
    ∀ slices : UInt64 × Stream → List (List MemSetEntry),
      (invocationSteps ts slices).map Prod.fst = ts := by
  induction ts with
  | nil => exact fun _ => rfl
  | cons inv ts ih => exact fun slices => by rw [invocationSteps, List.map_cons, ih]

theorem getElem?_invocationSteps (ts : List InvocationTraces) :
    ∀ (slices : UInt64 × Stream → List (List MemSetEntry)) (n : Nat),
      (invocationSteps ts slices)[n]?
        = ts[n]?.map fun inv => (inv, fun key => (slices key).getD n []) := by
  induction ts with
  | nil => exact fun _ _ => rfl
  | cons inv ts ih =>
      intro slices n
      cases n with
      | zero =>
          rw [invocationSteps, List.getElem?_cons_zero, List.getElem?_cons_zero, Option.map_some]
          have hhead : ∀ key, (slices key).headD [] = (slices key).getD 0 [] := fun key => by
            cases slices key <;> rfl
          simp only [hhead]
      | succ n =>
          rw [invocationSteps, List.getElem?_cons_succ, List.getElem?_cons_succ, ih]
          have htail : ∀ key, ((slices key).tail).getD n [] = (slices key).getD (n + 1) [] :=
            fun key => by cases slices key <;> simp
          simp only [htail]

/-- The slices of the streams, read one stream at a time, are the slices that an analysis reads. -/
theorem slicedInto_invocationSteps {fuel : Nat} {subInstrList : Finset UInt64}
    {needs : UInt64 × Stream → Prop} (ts : List InvocationTraces) :
    ∀ {current : UInt64 × Stream → MemoryTraceStreamer}
      {slices : UInt64 × Stream → List (List MemSetEntry)},
      (∀ key, needs key → MemoryTraceStreamer.readSlices fuel subInstrList key.1 (current key) ts
        = .ok (slices key)) →
      SlicedInto fuel subInstrList needs current (invocationSteps ts slices) := by
  induction ts with
  | nil => exact fun _ => trivial
  | cons inv ts ih =>
      intro current slices hread
      have hfirst : ∀ key, ∃ s, needs key →
          (current key).nextSlice fuel inv key.1
              (inv.getNumInstancesInInvocation subInstrList key.1) = .ok ((slices key).headD [], s) ∧
            MemoryTraceStreamer.readSlices fuel subInstrList key.1 s ts = .ok (slices key).tail := by
        intro key
        by_cases hkey : needs key
        · have hslices := hread key hkey
          rw [MemoryTraceStreamer.readSlices] at hslices
          split at hslices
          · cases hslices
          · rename_i slice s hslice
            refine ⟨s, fun _ => ?_⟩
            split at hslices
            · cases hslices
            · rename_i rest hrest
              rw [← Except.ok.inj hslices]
              exact ⟨hslice, hrest⟩
        · exact ⟨current key, fun h => absurd h hkey⟩
      choose next hnext using hfirst
      exact ⟨next, ⟨fun key hkey => (hnext key hkey).1⟩, ih fun key hkey => (hnext key hkey).2⟩

theorem analyseAll_reduceOption {σ : Type} (analyse : σ → InvocationTraces → Except Fault σ)
    (ts : List (Option InvocationTraces)) :
    ∀ s : σ, analyseAll analyse s ts = analyseAll analyse s (ts.reduceOption.map some) := by
  induction ts with
  | nil => exact fun _ => rfl
  | cons o ts ih =>
      intro s
      cases o with
      | none =>
          rw [List.reduceOption_cons_of_none, ← ih]
          rfl
      | some t =>
          rw [List.reduceOption_cons_of_some, List.map_cons, analyseAll, analyseAll]
          cases analyseOne analyse s (some t) with
          | error f => rfl
          | ok s' => exact ih s'

/-- Every invocation comes to its outcomes. -/
def AllComeTo (args : AnalysisArgs) (isAlias : MemSetEntry → MemSetEntry → Option Bool) (fuel : Nat)
    (subInstrList : Finset UInt64) (menu : InstrPairMenu) :
    List (InvocationTraces × (UInt64 × Stream → List MemSetEntry)) → List Outcomes → Prop :=
  List.Forall₂ fun s o => ∀ WAW, ∀ p ∈ menu.pairs WAW,
    ComesTo args isAlias fuel subInstrList s.1 s.2 WAW o p

namespace LoopAnalysis

/-- What is behind all invocations.  The dependences are those that the invocations show for the pairs
that are on the menu, up to the invocation in which a pair is erased. -/
theorem analyseAll_eq {args : AnalysisArgs} {isAlias : MemSetEntry → MemSetEntry → Option Bool}
    {fuel : Nat} {subInstrList : Finset UInt64} (sorter : StartSort Nat MemSetEntry)
    (steps : List (InvocationTraces × (UInt64 × Stream → List MemSetEntry))) :
    ∀ {outcomes : List Outcomes} {st : LoopAnalysis}
      {current : UInt64 × Stream → MemoryTraceStreamer},
      (∀ key, st.pairMenu.Needs key → st.memtraceStreamers key = some (current key)) →
      SlicedInto fuel subInstrList st.pairMenu.Needs current steps →
      AllComeTo args isAlias fuel subInstrList st.pairMenu steps outcomes →
      ∃ st', analyseAll (analyse args isAlias sorter fuel subInstrList) st
          (steps.map fun s => some s.1) = .ok st' ∧
        (∀ WAW, st'.pairMenu.pairs WAW
          = (st.pairMenu.pairs WAW).filter fun p => outcomes.all fun o => !o.erased WAW p) ∧
        ∀ WAW x, x ∈ st'.dependence_pairs WAW ↔ x ∈ st.dependence_pairs WAW ∨
          Reported (fun o => o.shows WAW) (fun o p => o.erased WAW p = true) outcomes
            (st.pairMenu.pairs WAW) x := by
  induction steps with
  | nil =>
      rintro outcomes st current _ _ hcomes
      cases hcomes
      exact ⟨st, rfl, fun WAW => by simp, fun WAW x => by simp⟩
  | cons step steps ih =>
      rintro outcomes st current hstreamers ⟨next, hslices, hrest⟩ hcomes
      cases hcomes with
      | @cons _ o _ outcomes hfirst hcomes =>
          rcases analyse_eq hslices hstreamers hfirst sorter with ⟨st₁, hst₁, hanalysed⟩
          -- the pairs that are left need no other streams
          have hleft : ∀ WAW p, p ∈ st₁.pairMenu.pairs WAW ↔
              p ∈ st.pairMenu.pairs WAW ∧ ¬ o.erased WAW p = true := by
            intro WAW p
            rw [hanalysed.left, List.mem_filter, Bool.not_eq_true', Bool.not_eq_true]
          have hneeds : ∀ key, st₁.pairMenu.Needs key → st.pairMenu.Needs key := by
            rintro key ⟨WAW, p, hp, hkey⟩
            exact ⟨WAW, p, ((hleft WAW p).1 hp).1, hkey⟩
          have hcomes₁ : AllComeTo args isAlias fuel subInstrList st₁.pairMenu steps outcomes :=
            hcomes.imp fun s o h WAW p hp => h WAW p ((hleft WAW p).1 hp).1
          rcases ih (fun key hkey => hanalysed.behind key (hneeds key hkey)) (hrest.mono hneeds)
            hcomes₁ with ⟨st', hst', hmenu, hrecorded⟩
          refine ⟨st', ?_, fun WAW => ?_, fun WAW x => ?_⟩
          · rw [List.map_cons, analyseAll]
            simp only [analyseOne, hst₁, hst']
          · rw [hmenu, hanalysed.left, List.filter_filter]
            refine List.filter_congr fun p _ => ?_
            rw [List.all_cons, Bool.and_comm]
          · have hstep : Reported (fun o => o.shows WAW) (fun o p => o.erased WAW p = true)
                (o :: outcomes) (st.pairMenu.pairs WAW) x ↔ _ := reported_cons (hleft WAW)
            rw [hrecorded, hanalysed.recorded, or_assoc, hstep]

end LoopAnalysis
end CamAlias
