import CamAlias.Lib.Related
import CamAlias.Tracer.BitSetOps

/-!
# BitSetRuns — any sequence of operations on bit sets

Several bit sets exist side by side, and an operation names the ones it works on by their index.
`BitSetOps` is the signature of the operations; a run over the words (`wordOps`) is compared with the
run over the sets of positions (`setOps`).

`setAll` and `invertBits` also write to the bits behind the length, as far as the last word reaches.
A later expansion makes these bits members (`not_agree_after_setAll`).  While the two are only
applied to sets that end with a word, every state agrees (`agree_of_wholeWords`).
-/

namespace CamAlias

open Lib

/-- An operation, with the indices of the sets it works on. -/
inductive BitSetOp where
  | new (length : Nat)
  | setBit (set pos : Nat)
  | setBits (set start last : Nat)
  | clearBit (set pos : Nat)
  | clearAll (set : Nat)
  | setAll (set : Nat)
  | invertBits (set : Nat)
  | union (dest src : Nat)
  | intersect (dest src : Nat)
  | subtract (fromThis subtractThis : Nat)
  | copy (dest src : Nat)
  | clone (src : Nat)
  deriving DecidableEq, Repr

/-- The operations on one kind of sets. -/
structure BitSetOps (α : Type) where
  new : Nat → α
  setBit : α → Nat → α
  setBits : α → Nat → Nat → α
  clearBit : α → Nat → α
  clearAll : α → α
  setAll : α → α
  invertBits : α → α
  union : α → α → α
  intersect : α → α → α
  subtract : α → α → α
  copy : α → α → α
  clone : α → α

/-- The words of `xanbitset.c`. -/
def wordOps : BitSetOps XanBitWords where
  new := XanBitWords.new
  setBit := XanBitWords.setBit
  setBits := XanBitWords.setBits
  clearBit := XanBitWords.clearBit
  clearAll := XanBitWords.clearAll
  setAll := XanBitWords.setAll
  invertBits := XanBitWords.invertBits
  union := XanBitWords.union
  intersect := XanBitWords.intersect
  subtract := XanBitWords.subtract
  copy := XanBitWords.copy
  clone := XanBitWords.clone

/-- What the operations mean. -/
def setOps : BitSetOps BoundedSet where
  new := BoundedSet.new
  setBit := BoundedSet.setBit
  setBits := BoundedSet.setBits
  clearBit := BoundedSet.clearBit
  clearAll := BoundedSet.clearAll
  setAll := BoundedSet.setAll
  invertBits := BoundedSet.invertBits
  union := BoundedSet.union
  intersect := BoundedSet.intersect
  subtract := BoundedSet.subtract
  copy := BoundedSet.copy
  clone := id

/-- `CAPACITY_NECESSARY(length)` and the sum in `WORDS_NECESSARY` do not wrap around. -/
def FitsCapacity (length : Nat) : Prop :=
  length + length / 2 + 63 < 2 ^ 64

instance (length : Nat) : Decidable (FitsCapacity length) :=
  inferInstanceAs (Decidable (_ < _))

namespace BitSetOps

variable {α β : Type}

/-- Replace the set at `dest` by what it and the one at `src` give. -/
def combine (sets : List α) (dest src : Nat) (f : α → α → α) : Option (List α) :=
  sets[src]?.bind fun t => updateAt sets dest fun s => f s t

/-- One operation.  `none` is an index without a set, or a length that is too large for the
computation of its capacity. -/
def step (o : BitSetOps α) (sets : List α) : BitSetOp → Option (List α)
  | .new length => if FitsCapacity length then some (sets ++ [o.new length]) else none
  | .setBit set pos =>
      if FitsCapacity (pos + 1) then updateAt sets set fun s => o.setBit s pos else none
  | .setBits set start last =>
      if FitsCapacity (last + 1) then updateAt sets set fun s => o.setBits s start last else none
  | .clearBit set pos => updateAt sets set fun s => o.clearBit s pos
  | .clearAll set => updateAt sets set o.clearAll
  | .setAll set => updateAt sets set o.setAll
  | .invertBits set => updateAt sets set o.invertBits
  | .union dest src => combine sets dest src o.union
  | .intersect dest src => combine sets dest src o.intersect
  | .subtract dest src => combine sets dest src o.subtract
  | .copy dest src => combine sets dest src o.copy
  | .clone src => sets[src]?.map fun s => sets ++ [o.clone s]

/-- A sequence of operations. -/
def run (o : BitSetOps α) : List BitSetOp → List α → Option (List α)
  | [], sets => some sets
  | op :: ops, sets => (o.step sets op).bind (run o ops)

end BitSetOps

/-! ## Agreement -/

/-- `isBitSet` and the comparisons say what the sets say. -/
structure BitSetsAgree (words : List XanBitWords) (sets : List BoundedSet) : Prop where
  length_eq : words.length = sets.length
  isBitSet : ∀ (i : Nat) (s : XanBitWords) (t : BoundedSet), words[i]? = some s →
    sets[i]? = some t → s.length = t.length ∧ ∀ pos, s.isBitSetInside pos = true ↔ pos ∈ t.members
  isEmpty : ∀ (i : Nat) (s : XanBitWords) (t : BoundedSet), words[i]? = some s →
    sets[i]? = some t → (s.isEmpty = true ↔ t.members = ∅)
  equal : ∀ (i j : Nat) (s s' : XanBitWords) (t t' : BoundedSet), words[i]? = some s →
    sets[i]? = some t → words[j]? = some s' → sets[j]? = some t' →
      (s.equal s' = true ↔ t.members = t'.members) ∧
        (s.areEqual s' = true ↔ t.members = t'.members)

/-- `setAll` and `invertBits` are applied to sets whose length is a number of whole words. -/
def WholeWords (words : List XanBitWords) : BitSetOp → Prop
  | .setAll set => ∀ s, words[set]? = some s → 64 ∣ s.length
  | .invertBits set => ∀ s, words[set]? = some s → 64 ∣ s.length
  | _ => True

/-- Every step of the run from `words` on is one with whole words. -/
def WholeWordsRun : List BitSetOp → List XanBitWords → Prop
  | [], _ => True
  | op :: ops, words =>
      WholeWords words op ∧ ∀ words', wordOps.step words op = some words' → WholeWordsRun ops words'

open BitSetOps XanBitWords

variable {words : List XanBitWords} {sets : List BoundedSet}

theorem agree_of_holds (h : List.Forall₂ Holds words sets) : BitSetsAgree words sets := by
  have hget : ∀ (i : Nat) (s : XanBitWords) (t : BoundedSet), words[i]? = some s →
      sets[i]? = some t → Holds s t := by
    intro i s t hs ht
    rcases related_getElem? h hs with ⟨t', ht', hholds⟩
    rw [ht] at ht'
    rwa [Option.some.inj ht']
  refine ⟨h.length_eq, ?_, ?_, ?_⟩
  · intro i s t hs ht
    have hholds := hget i s t hs ht
    exact ⟨hholds.length_eq, hholds.isBitSetInside_iff⟩
  · intro i s t hs ht
    exact (hget i s t hs ht).isEmpty_iff
  · intro i j s s' t t' hs ht hs' ht'
    have hholds := hget i s t hs ht
    have hholds' := hget j s' t' hs' ht'
    exact ⟨hholds.equal_iff hholds', hholds.areEqual_iff hholds'⟩

theorem combine_holds (h : List.Forall₂ Holds words sets) {dest src : Nat}
    {f : XanBitWords → XanBitWords → XanBitWords} {g : BoundedSet → BoundedSet → BoundedSet}
    (hfg : ∀ s s' t t', Holds s t → Holds s' t' → Holds (f s s') (g t t'))
    {words' : List XanBitWords} (hcombine : combine words dest src f = some words') :
    ∃ sets', combine sets dest src g = some sets' ∧ List.Forall₂ Holds words' sets' := by
  rw [combine, Option.bind_eq_some_iff] at hcombine
  rcases hcombine with ⟨s', hs', hupdate⟩
  rcases related_getElem? h hs' with ⟨t', ht', hholds'⟩
  rw [combine, ht', Option.bind_some]
  exact related_updateAt h (fun s t _ hholds => hfg s s' t t' hholds hholds') hupdate

/-- One operation with whole words. -/
theorem step_holds {op : BitSetOp} (h : List.Forall₂ Holds words sets)
    (hwhole : WholeWords words op) {words' : List XanBitWords}
    (hstep : wordOps.step words op = some words') :
    ∃ sets', setOps.step sets op = some sets' ∧ List.Forall₂ Holds words' sets' := by
  cases op with
  | new length =>
      simp only [step] at hstep ⊢
      split at hstep
      · rename_i hfits
        rcases Option.some.inj hstep with rfl
        rw [if_pos hfits]
        exact ⟨_, rfl, List.rel_append h (List.Forall₂.cons (holds_new length) .nil)⟩
      · cases hstep
  | setBit set pos =>
      simp only [step] at hstep ⊢
      split at hstep
      · rename_i hfits
        rw [if_pos hfits]
        exact related_updateAt h (fun s t _ hholds => hholds.setBit pos) hstep
      · cases hstep
  | setBits set start last =>
      simp only [step] at hstep ⊢
      split at hstep
      · rename_i hfits
        rw [if_pos hfits]
        exact related_updateAt h (fun s t _ hholds => hholds.setBits start last) hstep
      · cases hstep
  | clearBit set pos => exact related_updateAt h (fun s t _ hholds => hholds.clearBit pos) hstep
  | clearAll set => exact related_updateAt h (fun s t _ hholds => hholds.clearAll) hstep
  | setAll set =>
      exact related_updateAt h (fun s t hs hholds => hholds.setAll (hwhole s hs)) hstep
  | invertBits set =>
      exact related_updateAt h (fun s t hs hholds => hholds.invertBits (hwhole s hs)) hstep
  | union dest src => exact combine_holds h (fun _ _ _ _ hs hs' => hs.union hs') hstep
  | intersect dest src => exact combine_holds h (fun _ _ _ _ hs hs' => hs.intersect hs') hstep
  | subtract dest src => exact combine_holds h (fun _ _ _ _ hs hs' => hs.subtract hs') hstep
  | copy dest src => exact combine_holds h (fun _ _ _ _ hs hs' => hs.copy hs') hstep
  | clone src =>
      simp only [step, Option.map_eq_some_iff] at hstep
      rcases hstep with ⟨s, hs, rfl⟩
      rcases related_getElem? h hs with ⟨t, ht, hholds⟩
      refine ⟨sets ++ [t], ?_, List.rel_append h (List.Forall₂.cons hholds.clone .nil)⟩
      simp only [step, ht, Option.map_some]
      rfl

/-- A run with whole words. -/
theorem run_holds : ∀ (ops : List BitSetOp) {words words' : List XanBitWords}
    {sets : List BoundedSet}, List.Forall₂ Holds words sets → WholeWordsRun ops words →
      wordOps.run ops words = some words' →
      ∃ sets', setOps.run ops sets = some sets' ∧ List.Forall₂ Holds words' sets' := by
  intro ops
  induction ops with
  | nil =>
      intro words words' sets h _ hrun
      rcases Option.some.inj hrun with rfl
      exact ⟨sets, rfl, h⟩
  | cons op ops ih =>
      intro words words' sets h hwhole hrun
      rw [run, Option.bind_eq_some_iff] at hrun
      rcases hrun with ⟨mid, hstep, hrest⟩
      rcases step_holds h hwhole.1 hstep with ⟨sets', hstep', h'⟩
      rw [run, hstep', Option.bind_some]
      exact ih h' (hwhole.2 mid hstep) hrest

/-- In every state that operations with whole words reach, the bit sets are sets. -/
theorem agree_of_wholeWords {ops : List BitSetOp} {words : List XanBitWords}
    (hwhole : WholeWordsRun ops []) (hrun : wordOps.run ops [] = some words) :
    ∃ sets, setOps.run ops [] = some sets ∧ BitSetsAgree words sets := by
  rcases run_holds ops List.Forall₂.nil hwhole hrun with ⟨sets, hsets, hholds⟩
  exact ⟨sets, hsets, agree_of_holds hholds⟩

theorem agree_of_wholeWords_setAll :
    ∃ sets, setOps.run [.new 64, .setAll 0, .setBit 0 70, .clone 0, .clearBit 1 3] [] = some sets ∧
      BitSetsAgree
        [{ length := 71, data := [BitVec.allOnes 64, 64] },
          { length := 71, data := [BitVec.allOnes 64 &&& ~~~8, 64] }] sets := by
  have hwhole : WholeWordsRun [.new 64, .setAll 0, .setBit 0 70, .clone 0, .clearBit 1 3] [] := by
    refine ⟨trivial, fun w hw => ?_⟩
    rcases Option.some.inj hw with rfl
    refine ⟨fun s hs => ?_, fun w _ => ⟨trivial, fun w _ => ⟨trivial, fun w _ => ⟨trivial, ?_⟩⟩⟩⟩
    · rcases Option.some.inj hs with rfl
      exact ⟨1, rfl⟩
    · exact fun w _ => trivial
  exact agree_of_wholeWords hwhole rfl

/-- `setAll` on a set of one position also sets the two behind it, which `setBit` then brings in. -/
theorem not_agree_after_setAll :
    ¬ ∀ (ops : List BitSetOp) (words : List XanBitWords) (sets : List BoundedSet),
      wordOps.run ops [] = some words → setOps.run ops [] = some sets →
        BitSetsAgree words sets := by
  intro h
  have hagree := h [.new 1, .setAll 0, .setBit 0 2]
    [{ length := 3, data := [BitVec.allOnes 64 ||| 4] }] _ rfl rfl
  have hmem := ((hagree.isBitSet 0 _ _ rfl rfl).2 1).1 (by decide)
  rcases hmem with hlt | heq
  · exact Nat.lt_irrefl 1 hlt
  · exact absurd heq (by decide : (1 : Nat) ≠ 2)

end CamAlias
