import CamAlias.Dependence.LoopAnalysis

/-!
# NextSlice — the accesses of one invocation after the other

The analyser does not know where the accesses of an invocation end in a memory trace.  It takes as many
of them as the control flow traces have instances of the instruction (`getNextChunk`), and deals them
out to the iterations, or to the calls, that these instances lie in (`fillBlocks`).

* `Streaming.nextSlice`: a slice is the next accesses under the tags of the blocks;
* `Streaming.nextSlice_error`: otherwise there are not enough of them;
* `Streaming.readSlices_iff`: the slices of all invocations.
-/

namespace CamAlias

open Lib

/-! ## Tags -/

/-- The iteration and the effective instruction of each instance of a block. -/
def Block.tags (b : Block) : List (Nat × UInt64) :=
  List.replicate b.instances (b.iterationNumber, b.effectiveInstrID)

/-- The number of instances in some blocks. -/
def Block.total (bs : List Block) : Nat :=
  (bs.map Block.instances).sum

theorem Block.length_tags (bs : List Block) : (bs.flatMap Block.tags).length = Block.total bs := by
  simp only [List.length_flatMap, Block.tags, List.length_replicate]
  rfl

/-- A reference with its iteration and its effective instruction. -/
abbrev TaggedReference := (Nat × UInt64) × Reference

namespace MemSetEntry

/-- The references of an entry under its tags. -/
def tagged (e : MemSetEntry) : List TaggedReference :=
  e.accesses.map fun r => ((e.iterationNumber, e.effectiveInstrID), r)

theorem map_snd_tagged (e : MemSetEntry) : e.tagged.map Prod.snd = e.accesses := by
  simp only [tagged, List.map_map, Function.comp_def, List.map_id']

end MemSetEntry

namespace MemSet

variable {b : Block} {part : List MemSetEntry}

/-- The entries of a block have its tags. -/
theorem Fills.tagged (h : Fills b part) :
    part.flatMap MemSetEntry.tagged = b.tags.zip (part.flatMap MemSetEntry.accesses) := by
  have hmap : part.flatMap MemSetEntry.tagged
      = (part.flatMap MemSetEntry.accesses).map
          fun r => ((b.iterationNumber, b.effectiveInstrID), r) := by
    rw [List.map_flatMap, List.flatMap_def, List.flatMap_def]
    refine congrArg List.flatten (List.map_congr_left fun e he => ?_)
    rw [MemSetEntry.tagged, h.iteration e he, h.instruction e he]
  have hlen : b.instances = (part.flatMap MemSetEntry.accesses).length := by
    rw [length_flatMap_accesses, h.total_eq]
  rw [hmap, Block.tags, hlen]
  generalize part.flatMap MemSetEntry.accesses = refs
  induction refs with
  | nil => rfl
  | cons r refs ih =>
      rw [List.map_cons, ih, List.length_cons, List.replicate_succ, List.zip_cons_cons]

theorem tagged_parts {bs : List Block} {parts : List (List MemSetEntry)}
    (h : List.Forall₂ Fills bs parts) :
    parts.flatten.flatMap MemSetEntry.tagged
      = (bs.flatMap Block.tags).zip (parts.flatten.flatMap MemSetEntry.accesses) := by
  induction h with
  | nil => rfl
  | @cons b part bs parts hfills _ ih =>
      have hlen : b.tags.length = (part.flatMap MemSetEntry.accesses).length := by
        rw [Block.tags, List.length_replicate, length_flatMap_accesses, hfills.total_eq]
      rw [List.flatten_cons, List.flatMap_append, List.flatMap_append, List.flatMap_cons, ih,
        hfills.tagged, List.zip_append hlen]

/-- The loop over the blocks does not depend on what they are made from. -/
theorem fillBlocks_map (entries : List MemSetEntry) {β : Type _} {block : β → Except Fault Block}
    (B : β → Block) (fuel : Nat) (xs : List β) :
    ∀ st : SliceState, (∀ x ∈ xs, block x = .ok (B x)) →
      fillBlocks entries block fuel xs st = fillBlocks entries .ok fuel (xs.map B) st := by
  induction xs with
  | nil => exact fun _ _ => rfl
  | cons x xs ih =>
      intro st hblock
      simp only [List.map_cons, fillBlocks, hblock x List.mem_cons_self]
      cases fillBlock entries (B x) fuel 0 st with
      | error f => rfl
      | ok st' => exact ih st' fun y hy => hblock y (List.mem_cons_of_mem _ hy)

end MemSet

/-! ## One slice -/

/-- The slices of an instruction are cut into these blocks, whatever the set is. -/
def InvocationTraces.CutInto (t : InvocationTraces) (instrID : UInt64) (fuel : Nat)
    (blocks : List Block) : Prop :=
  ∀ set : MemSet, (MemSet.getInvocationSliceWithIterTags instrID t.invocGroup fuel set
      t.invocCallTrace).map Prod.fst
    = (MemSet.fillBlocks set.entries .ok fuel blocks
        ⟨[], set.sliceIterator, set.outstandingInstances⟩).map MemSet.SliceState.slice

namespace MemoryTraceStreamer

variable {strides : BitVec 64 → BitVec 64 → Prop} {references : List Reference}
  {s : MemoryTraceStreamer} {k n fuel : Nat} {t : InvocationTraces} {instrID : UInt64}
  {blocks : List Block}

/-- The slice of a chunk, or the error. -/
theorem nextSlice_of_chunk {chunk : List MemSetEntry} {s' : MemoryTraceStreamer}
    (hchunk : s.getNextChunk (BitVec.ofNat 64 n) false = .ok (chunk, s'))
    (hproper : MemSet.Proper chunk) (hcut : t.CutInto instrID fuel blocks) :
    ∃ st₀, MemSet.Ready chunk st₀ ∧ st₀.slice = [] ∧
      MemSet.pending chunk st₀ = chunk.flatMap MemSetEntry.accesses ∧
      s.nextSlice fuel t instrID n
        = (MemSet.fillBlocks chunk .ok fuel blocks st₀).map fun st => (st.slice, s') := by
  let set : MemSet := { entries := chunk, sliceIterator := 0, outstandingInstances := 0 }
  have hset : MemSet.Proper set.entries := hproper
  refine ⟨⟨[], set.initialiseSliceIterator.sliceIterator,
    set.initialiseSliceIterator.outstandingInstances⟩, MemSet.ready_initialise hset [], rfl,
    MemSet.pending_initialise hset [], ?_⟩
  have hslice := hcut set.initialiseSliceIterator
  have hentries : set.initialiseSliceIterator.entries = chunk := rfl
  rw [hentries] at hslice
  simp only [nextSlice, hchunk]
  -- the slice is filled from the blocks, with an error where that has one
  cases hget : MemSet.getInvocationSliceWithIterTags instrID t.invocGroup fuel
      set.initialiseSliceIterator t.invocCallTrace with
  | error f =>
      rw [hget] at hslice
      cases hfill : MemSet.fillBlocks chunk .ok fuel blocks _ with
      | error f' =>
          rw [hfill] at hslice
          exact congrArg Except.error (Except.error.inj hslice)
      | ok st =>
          rw [hfill] at hslice
          cases hslice
  | ok r =>
      rw [hget] at hslice
      cases hfill : MemSet.fillBlocks chunk .ok fuel blocks _ with
      | error f' =>
          rw [hfill] at hslice
          cases hslice
      | ok st =>
          rw [hfill] at hslice
          exact congrArg (fun slice => Except.ok (slice, s')) (Except.ok.inj hslice)

/-- A slice is made of the next references, under the tags of the blocks. -/
theorem Streaming.nextSlice (h : Streaming strides references k s)
    (hcut : t.CutInto instrID fuel blocks) (hn : k + n ≤ references.length)
    (hblocks : Block.total blocks ≤ n) (hfuel : references.length ≤ fuel) :
    ∃ slice s', s.nextSlice fuel t instrID n = .ok (slice, s') ∧
      Streaming strides references (k + n) s' ∧
      slice.flatMap MemSetEntry.tagged
        = (blocks.flatMap Block.tags).zip ((references.drop k).take n) ∧
      Strided strides slice := by
  have hlen := h.few
  have hcount : (BitVec.ofNat 64 n).toNat = n := by
    rw [BitVec.toNat_ofNat, Nat.mod_eq_of_lt (by omega)]
  rcases h.getNextChunk (BitVec.ofNat 64 n) (by rwa [hcount]) with
    ⟨chunk, s', hchunk, hnext, hconsecutive, hacc, hstrided⟩
  rw [hcount] at hnext hconsecutive hacc
  have htotal := MemSet.total_of_consecutive hconsecutive
  have hproper : MemSet.Proper chunk := MemSet.proper_of_consecutive hconsecutive (by omega)
  rcases nextSlice_of_chunk hchunk hproper hcut with ⟨st₀, hready, hslice, hpending, heq⟩
  have hcount : (MemSet.pending chunk st₀).length = n := by
    rw [hpending, MemSet.length_flatMap_accesses]
    omega
  rcases MemSet.fillBlocks_eq (B := id) hproper fuel blocks st₀ hready (fun _ _ => rfl)
    (by rw [hcount]; exact hblocks) (by omega) with ⟨parts, st, hfill, hst, hparts, hsplit, -⟩
  have hfill : MemSet.fillBlocks chunk .ok fuel blocks st₀ = .ok st := hfill
  have hslice' : Strided strides st₀.slice := by simp [hslice, Strided]
  rw [hslice, List.nil_append] at hst
  refine ⟨st.slice, s', ?_, hnext, ?_, MemSet.strided_fillBlocks hstrided blocks hfill hslice'⟩
  · rw [heq, hfill]
    rfl
  · -- what the blocks do not take is not tagged
    rw [hst, MemSet.tagged_parts hparts, ← hacc, ← hpending, hsplit]
    have hlen : (blocks.flatMap Block.tags).length
        = (parts.flatten.flatMap MemSetEntry.accesses).length := by
      rw [Block.length_tags, MemSet.length_flatMap_accesses, MemSet.total_parts hparts]
      rfl
    calc (blocks.flatMap Block.tags).zip (parts.flatten.flatMap MemSetEntry.accesses)
        = (blocks.flatMap Block.tags).zip (parts.flatten.flatMap MemSetEntry.accesses)
            ++ List.zip [] (MemSet.pending chunk st) := by
          rw [List.zip_nil_left, List.append_nil]
      _ = (blocks.flatMap Block.tags ++ []).zip
            (parts.flatten.flatMap MemSetEntry.accesses ++ MemSet.pending chunk st) :=
          (List.zip_append hlen).symm
      _ = _ := by rw [List.append_nil]

/-- There is no slice if the stream has fewer references than instances are asked for, or the blocks
have more instances than that. -/
theorem Streaming.nextSlice_error (h : Streaming strides references k s)
    (hcut : t.CutInto instrID fuel blocks) (hpos : 0 < n → 0 < Block.total blocks)
    (hshort : references.length < k + n ∨ n < Block.total blocks) (hasked : k + n < 2 ^ 64)
    (hfuel : references.length ≤ fuel) :
    ∃ f, s.nextSlice fuel t instrID n = .error f := by
  have hlen := h.few
  have hle := h.le
  have hcount : (BitVec.ofNat 64 n).toNat = n := by
    rw [BitVec.toNat_ofNat, Nat.mod_eq_of_lt (by omega)]
  have hfill : ∀ {chunk : List MemSetEntry} {st₀ : MemSet.SliceState} {s' : MemoryTraceStreamer},
      MemSet.Proper chunk → MemSet.Ready chunk st₀ →
      MemSet.pending chunk st₀ = chunk.flatMap MemSetEntry.accesses →
      MemSet.total chunk < Block.total blocks → MemSet.total chunk ≤ fuel →
      s.nextSlice fuel t instrID n
        = ((MemSet.fillBlocks chunk .ok fuel blocks st₀).map fun st => (st.slice, s')) →
      ∃ f, s.nextSlice fuel t instrID n = .error f := by
    intro chunk st₀ s' hproper hready hpending hfew hfuel heq
    have hcount : (MemSet.pending chunk st₀).length = MemSet.total chunk := by
      rw [hpending, MemSet.length_flatMap_accesses]
    rcases MemSet.fillBlocks_short (B := id) hproper fuel blocks st₀ hready (fun _ _ => rfl)
      (by rw [hcount]; exact hfew) (by omega) with ⟨f, hf⟩
    have hf : MemSet.fillBlocks chunk .ok fuel blocks st₀ = .error f := hf
    rw [heq, hf]
    exact ⟨f, rfl⟩
  by_cases hn : k + n ≤ references.length
  · rcases h.getNextChunk (BitVec.ofNat 64 n) (by rwa [hcount]) with
      ⟨chunk, s', hchunk, -, hconsecutive, -, -⟩
    have htotal := MemSet.total_of_consecutive hconsecutive
    have hproper : MemSet.Proper chunk := MemSet.proper_of_consecutive hconsecutive (by omega)
    rcases nextSlice_of_chunk hchunk hproper hcut with ⟨st₀, hready, -, hpending, heq⟩
    exact hfill hproper hready hpending (by omega) (by omega) heq
  · rcases h.getNextChunk_short (n := BitVec.ofNat 64 n) (by omega) (by omega) with
      ⟨f, herror⟩ | ⟨s', hchunk⟩
    · refine ⟨f, ?_⟩
      simp only [MemoryTraceStreamer.nextSlice, herror]
    · -- nothing is left of the stream
      have hproper : MemSet.Proper [] := by simp [MemSet.Proper]
      rcases nextSlice_of_chunk hchunk hproper hcut with ⟨st₀, hready, -, hpending, heq⟩
      have hzero : MemSet.total [] = 0 := rfl
      exact hfill hproper hready hpending (hzero ▸ hpos (by omega))
        (by rw [hzero]; exact Nat.zero_le _) heq

end MemoryTraceStreamer

/-! ## The slices of all invocations -/

/-- What the analyser has of the instances of an instruction in an invocation: how many references it
takes for them, and the blocks that these are dealt out to. -/
structure Sliceable (fuel : Nat) (subInstrList : Finset UInt64) (instrID : UInt64)
    (t : InvocationTraces) (u : Nat × List Block) : Prop where
  num : t.getNumInstancesInInvocation subInstrList instrID = u.1
  cut : t.CutInto instrID fuel u.2
  pos : 0 < u.1 → 0 < Block.total u.2

/-- The references of a stream under the tags of the invocations, one after the other. -/
def dealOut : List (Nat × List Block) → List Reference → List (List TaggedReference)
  | [], _ => []
  | u :: us, references =>
      (u.2.flatMap Block.tags).zip (references.take u.1) :: dealOut us (references.drop u.1)

namespace MemoryTraceStreamer

/-- The slices of a stream for invocations in which something is seen. -/
def readSlices (fuel : Nat) (subInstrList : Finset UInt64) (instrID : UInt64) :
    MemoryTraceStreamer → List InvocationTraces → Except Fault (List (List MemSetEntry))
  | _, [] => .ok []
  | s, t :: ts =>
      match s.nextSlice fuel t instrID (t.getNumInstancesInInvocation subInstrList instrID) with
      | .error e => .error e
      | .ok (slice, s) =>
          match readSlices fuel subInstrList instrID s ts with
          | .error e => .error e
          | .ok slices => .ok (slice :: slices)

variable {strides : BitVec 64 → BitVec 64 → Prop} {references : List Reference}
  {s : MemoryTraceStreamer} {k fuel : Nat} {subInstrList : Finset UInt64} {instrID : UInt64}

/-- The references do for all invocations. -/
def Suffice (us : List (Nat × List Block)) (available : Nat) : Prop :=
  (∀ u ∈ us, Block.total u.2 ≤ u.1) ∧ (us.map Prod.fst).sum ≤ available

theorem suffice_cons {u : Nat × List Block} {us : List (Nat × List Block)} {available : Nat} :
    Suffice (u :: us) available ↔
      (Block.total u.2 ≤ u.1 ∧ u.1 ≤ available) ∧ Suffice us (available - u.1) := by
  simp only [Suffice, List.forall_mem_cons, List.map_cons, List.sum_cons]
  constructor
  · rintro ⟨⟨hu, hus⟩, hsum⟩
    exact ⟨⟨hu, by omega⟩, hus, by omega⟩
  · rintro ⟨⟨hu, hle⟩, hus, hsum⟩
    exact ⟨⟨hu, hus⟩, by omega⟩

/-- All slices are read, or the reader fails at one of them. -/
theorem Streaming.readSlices_cases {ts : List InvocationTraces} {us : List (Nat × List Block)}
    (hts : List.Forall₂ (Sliceable fuel subInstrList instrID) ts us)
    (hfuel : references.length ≤ fuel) :
    ∀ {k : Nat} {s : MemoryTraceStreamer}, Streaming strides references k s →
      k + (us.map Prod.fst).sum < 2 ^ 64 →
      (Suffice us (references.length - k) ∧
        ∃ slices, MemoryTraceStreamer.readSlices fuel subInstrList instrID s ts = .ok slices ∧
          slices.map (fun slice => slice.flatMap MemSetEntry.tagged)
            = dealOut us (references.drop k) ∧
          ∀ slice ∈ slices, Strided strides slice) ∨
      (¬ Suffice us (references.length - k) ∧
        ∃ f, MemoryTraceStreamer.readSlices fuel subInstrList instrID s ts = .error f) := by
  induction hts with
  | nil =>
      intro k s h _
      exact Or.inl ⟨⟨by simp, Nat.zero_le _⟩, [], rfl, rfl, by simp⟩
  | @cons t u ts us hu hus ih =>
      intro k s h hasked
      have hle := h.le
      rw [List.map_cons, List.sum_cons] at hasked
      rw [suffice_cons, Nat.sub_sub]
      -- the first slice that asks for too much, or for too little, ends the reading
      by_cases hfits : Block.total u.2 ≤ u.1 ∧ u.1 ≤ references.length - k
      · rcases h.nextSlice hu.cut (by omega) hfits.1 hfuel with
          ⟨slice, s', hslice, hnext, htagged, hstrided⟩
        rcases ih hnext (by omega) with
          ⟨hsuffice, slices, hslices, hdealt, hrest⟩ | ⟨hnot, f, herror⟩
        · refine Or.inl ⟨⟨hfits, hsuffice⟩, slice :: slices, ?_, ?_,
            List.forall_mem_cons.2 ⟨hstrided, hrest⟩⟩
          · simp only [MemoryTraceStreamer.readSlices, hu.num, hslice, hslices]
          · rw [List.map_cons, hdealt, htagged, dealOut, List.drop_drop]
        · refine Or.inr ⟨fun hall => hnot hall.2, f, ?_⟩
          simp only [MemoryTraceStreamer.readSlices, hu.num, hslice, herror]
      · have hshort : references.length < k + u.1 ∨ u.1 < Block.total u.2 := by omega
        rcases h.nextSlice_error hu.cut hu.pos hshort (by omega) hfuel with ⟨f, herror⟩
        refine Or.inr ⟨fun hall => hfits hall.1, f, ?_⟩
        simp only [MemoryTraceStreamer.readSlices, hu.num, herror]

end MemoryTraceStreamer

/-! ## Where the slices are right -/

theorem eq_of_sum_le {ms ns : List Nat} (h : List.Forall₂ (fun m n => m ≤ n) ms ns)
    (hsum : ns.sum ≤ ms.sum) : ms = ns := by
  induction h with
  | nil => rfl
  | @cons m n ms ns hle hrest ih =>
      have hrestSum : ms.sum ≤ ns.sum := by
        clear ih hsum
        induction hrest with
        | nil => exact Nat.le_refl _
        | cons hle _ ih => exact Nat.add_le_add hle ih
      rw [List.sum_cons, List.sum_cons] at hsum
      have heq : m = n := by omega
      rw [heq, ih (by omega)]

/-- As many references are taken in every invocation as are made in it, for blocks that lie in the
iterations in which they are made, under their effective instructions. -/
def InStep (us : List (Nat × List Block)) (made : List (List TaggedReference)) : Prop :=
  List.Forall₂ (fun u refs => u.1 = refs.length ∧ u.2.flatMap Block.tags = refs.map Prod.fst) us made

theorem InStep.length {us : List (Nat × List Block)} {made : List (List TaggedReference)}
    (h : InStep us made) : us.length = made.length := by
  rw [InStep] at h
  exact h.length_eq

theorem InStep.suffice {us : List (Nat × List Block)}
    {made : List (List TaggedReference)} (h : InStep us made) :
    MemoryTraceStreamer.Suffice us made.flatten.length := by
  induction h with
  | nil => exact ⟨by simp, Nat.zero_le _⟩
  | @cons u refs us made hu _ ih =>
      have htotal : Block.total u.2 = refs.length := by
        have hlen := congrArg List.length hu.2
        rwa [List.length_map, Block.length_tags] at hlen
      refine MemoryTraceStreamer.suffice_cons.2 ⟨⟨by omega, ?_⟩, ?_⟩
      · rw [List.flatten_cons, List.length_append]
        omega
      · rw [List.flatten_cons, List.length_append, hu.1, Nat.add_sub_cancel_left]
        exact ih

/-- What is dealt out is what has been made in each invocation, if and only if the counts and the
blocks are in step with it. -/
theorem dealOut_eq_iff {us : List (Nat × List Block)}
    {made : List (List TaggedReference)} (hlength : us.length = made.length)
    (hsuffice : MemoryTraceStreamer.Suffice us made.flatten.length) :
    dealOut us (made.flatten.map Prod.snd) = made ↔ InStep us made := by
  constructor
  · intro h
    -- no invocation gets more references than it takes
    have hlengths : ∀ {us : List (Nat × List Block)}
        {made : List (List TaggedReference)} {references : List Reference},
        MemoryTraceStreamer.Suffice us references.length → dealOut us references = made →
        List.Forall₂ (fun u refs => refs.length = Block.total u.2 ∧ Block.total u.2 ≤ u.1) us
          made := by
      intro us
      induction us with
      | nil =>
          rintro made references - rfl
          exact List.Forall₂.nil
      | cons u us ih =>
          rintro made references hsuffice rfl
          rcases MemoryTraceStreamer.suffice_cons.1 hsuffice with ⟨⟨hu, hle⟩, hrest⟩
          rw [dealOut]
          refine List.Forall₂.cons ⟨?_, hu⟩ (ih (by rwa [List.length_drop]) rfl)
          rw [List.length_zip, Block.length_tags, List.length_take]
          omega
    have hall := hlengths (by rwa [List.length_map]) h
    have hcounts : made.map List.length = us.map Prod.fst := by
      refine eq_of_sum_le ?_ ?_
      · rw [List.forall₂_map_left_iff, List.forall₂_map_right_iff]
        exact hall.flip.imp fun refs u hu => by
          have := hu.1
          have := hu.2
          omega
      · rw [← List.length_flatten]
        exact hsuffice.2
    have hfits := hsuffice.1
    clear hlengths hall hsuffice
    induction us generalizing made with
    | nil =>
        rw [List.eq_nil_of_length_eq_zero hlength.symm]
        exact List.Forall₂.nil
    | cons u us ih =>
        cases made with
        | nil => cases hlength
        | cons refs made =>
            rw [List.map_cons, List.map_cons] at hcounts
            rcases List.cons.inj hcounts with ⟨hcount, hcounts⟩
            have htake : ((refs :: made).flatten.map Prod.snd).take u.1 = refs.map Prod.snd := by
              rw [List.flatten_cons, List.map_append, List.take_left']
              rw [List.length_map, hcount]
            have hdrop : ((refs :: made).flatten.map Prod.snd).drop u.1
                = made.flatten.map Prod.snd := by
              rw [List.flatten_cons, List.map_append, List.drop_left']
              rw [List.length_map, hcount]
            rw [dealOut, htake, hdrop] at h
            rcases List.cons.inj h with ⟨hslice, hslices⟩
            refine List.Forall₂.cons ⟨hcount.symm, ?_⟩
              (ih (by simpa using hlength) hslices hcounts
                fun u' hu' => hfits u' (List.mem_cons_of_mem _ hu'))
            have hle : (u.2.flatMap Block.tags).length ≤ (refs.map Prod.snd).length := by
              rw [Block.length_tags, List.length_map, hcount]
              exact hfits u List.mem_cons_self
            rw [← List.map_fst_zip hle, hslice]
  · intro h
    clear hsuffice hlength
    induction h with
    | nil => rfl
    | @cons u refs us made hu _ ih =>
        have htake : ((refs :: made).flatten.map Prod.snd).take u.1 = refs.map Prod.snd := by
          rw [List.flatten_cons, List.map_append, List.take_left']
          rw [List.length_map, hu.1]
        have hdrop : ((refs :: made).flatten.map Prod.snd).drop u.1
            = made.flatten.map Prod.snd := by
          rw [List.flatten_cons, List.map_append, List.drop_left']
          rw [List.length_map, hu.1]
        rw [dealOut, htake, hdrop, ih, ← List.zip_of_prod hu.2.symm rfl]

theorem InStep.sum_eq {us : List (Nat × List Block)} {made : List (List TaggedReference)}
    (h : InStep us made) : (us.map Prod.fst).sum = made.flatten.length := by
  induction h with
  | nil => rfl
  | @cons u refs us made hu _ ih =>
      rw [List.map_cons, List.sum_cons, List.flatten_cons, List.length_append, ih, hu.1]

/-- A stream is read as what has been made in each invocation, if and only if the counts and the
blocks are in step with it. -/
theorem MemoryTraceStreamer.Streaming.readSlices_iff {strides : BitVec 64 → BitVec 64 → Prop}
    {references : List Reference}
    {s : MemoryTraceStreamer} {k fuel : Nat} {subInstrList : Finset UInt64} {instrID : UInt64}
    {ts : List InvocationTraces} {us : List (Nat × List Block)}
    {made : List (List TaggedReference)} (h : Streaming strides references k s)
    (hts : List.Forall₂ (Sliceable fuel subInstrList instrID) ts us)
    (hfuel : references.length ≤ fuel) (hasked : k + (us.map Prod.fst).sum < 2 ^ 64)
    (hlength : us.length = made.length) (hmade : references.drop k = made.flatten.map Prod.snd) :
    (∃ slices, MemoryTraceStreamer.readSlices fuel subInstrList instrID s ts = .ok slices ∧
      slices.map (fun slice => slice.flatMap MemSetEntry.tagged) = made ∧
      ∀ slice ∈ slices, Strided strides slice) ↔ InStep us made := by
  have hcount : references.length - k = made.flatten.length := by
    rw [← List.length_drop, hmade, List.length_map]
  have hcases := h.readSlices_cases hts hfuel hasked
  rw [hcount, hmade] at hcases
  constructor
  · rintro ⟨slices, hslices, htagged, -⟩
    rcases hcases with ⟨hsuffice, slices', hslices', hdealt, -⟩ | ⟨-, f, herror⟩
    · rcases Except.ok.inj (hslices.symm.trans hslices') with rfl
      exact (dealOut_eq_iff hlength hsuffice).1 (hdealt.symm.trans htagged)
    · rw [hslices] at herror
      cases herror
  · intro hstep
    rcases hcases with ⟨hsuffice, slices, hslices, hdealt, hstrided⟩ | ⟨hnot, -⟩
    · exact ⟨slices, hslices, hdealt.trans ((dealOut_eq_iff hlength hsuffice).2 hstep), hstrided⟩
    · exact absurd hstep.suffice hnot

end CamAlias
