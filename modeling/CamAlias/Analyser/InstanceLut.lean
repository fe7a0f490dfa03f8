import CamAlias.Analyser.LoopTraceEntry
import CamAlias.Lib.PrefixSum

/-!
# InstanceLut — from a dynamic instance to its iteration

`precomputeDataStructures` of `InvocationGroupCfc` builds, for each instruction, a table of runs of
instances.  Iterations with the same count share a run as long as none without the instruction
stands between them.

* `LutInv.push`, `LutInv.skip`: what one entry of the iteration table adds to the runs;
* `getNumInstances_precompute`: the number of instances in the invocation;
* `getIterationNumber_precompute`: the runs lead back from an instance to its iteration.
-/

namespace CamAlias

open Lib

namespace InvocationGroupCfc

/-- The number of instances of an instruction in iteration `k`. -/
def instancesIn (inv : InvocationGroupCfc) (instrID : UInt64) (k : Nat) : Nat :=
  match inv.iterations.find? fun g => k ∈ numbers g.repetitions with
  | none => 0
  | some g => (CompressionPattern.expandAll g.controlFlow).count instrID

variable {inv : InvocationGroupCfc} {n k : Nat} {instrID : UInt64}

theorem instancesIn_eq (h : inv.Covers n) {g : IterationGroupCfc} (hg : g ∈ inv.iterations)
    (hk : k ∈ numbers g.repetitions) :
    inv.instancesIn instrID k = (CompressionPattern.expandAll g.controlFlow).count instrID := by
  have hnodup := h.perm.nodup_iff.2 List.nodup_range
  have hdisjoint := (List.nodup_flatMap.1 hnodup).2
  cases hfind : inv.iterations.find? fun g => decide (k ∈ numbers g.repetitions) with
  | none =>
      have := List.find?_eq_none.1 hfind g hg
      simp [hk] at this
  | some g' =>
      rcases List.find?_eq_some_iff_append.1 hfind with ⟨hk', as, bs, heq, has⟩
      have hk'' : k ∈ numbers g'.repetitions := by simpa using hk'
      have hsame : g = g' := by
        rw [heq] at hg hdisjoint
        rcases List.mem_append.1 hg with hg | hg
        · have := has g hg
          simp [hk] at this
        · rcases List.mem_cons.1 hg with rfl | hg
          · rfl
          · -- a second group with this iteration would meet the first one
            have hpair := (List.pairwise_append.1 hdisjoint).2.1
            exact absurd hk ((List.pairwise_cons.1 hpair).1 g hg hk'')
      rw [instancesIn, hfind, hsame]

/-! ## The number of instances -/

theorem length_numbers {rs : List (Nat × Nat)} (h : ∀ r ∈ rs, r.1 ≤ r.2) :
    (numbers rs).length = (rs.map fun r => r.2 - r.1 + 1).sum := by
  induction rs with
  | nil => rfl
  | cons r rs ih =>
      have hr := h r (by simp)
      have hrest := ih fun r' hr' => h r' (List.mem_cons_of_mem _ hr')
      simp only [numbers_cons, List.length_append, length_rangeNumbers, hrest, List.map_cons,
        List.sum_cons]
      omega

theorem before_instancesIn (h : inv.Covers n) :
    before (inv.instancesIn instrID) n = (inv.iterations.map fun g =>
      g.getNumberOfIterations_slow *
        (CompressionPattern.expandAll g.controlFlow).count instrID).sum := by
  have hperm := (h.perm.map (inv.instancesIn instrID)).sum_eq
  have hgroups : ∀ gs : List IterationGroupCfc, (∀ g ∈ gs, g ∈ inv.iterations) →
      ((gs.flatMap fun g => numbers g.repetitions).map (inv.instancesIn instrID)).sum
        = (gs.map fun g => g.getNumberOfIterations_slow *
            (CompressionPattern.expandAll g.controlFlow).count instrID).sum := by
    intro gs
    induction gs with
    | nil => simp
    | cons g gs ih =>
        intro hmem
        have hg := hmem g (by simp)
        have hrest := ih fun g' hg' => hmem g' (List.mem_cons_of_mem _ hg')
        have hconst : (numbers g.repetitions).map (inv.instancesIn instrID)
            = List.replicate (numbers g.repetitions).length
                ((CompressionPattern.expandAll g.controlFlow).count instrID) := by
          refine List.eq_replicate_iff.2 ⟨by simp, ?_⟩
          intro v hv
          rcases List.mem_map.1 hv with ⟨k, hk, rfl⟩
          exact instancesIn_eq h hg hk
        rw [List.flatMap_cons, List.map_append, List.sum_append, hrest, hconst,
          List.sum_replicate_nat, length_numbers (h.proper g hg), List.map_cons,
          List.sum_cons]
        rfl
  rw [before, ← hperm, hgroups inv.iterations fun _ hg => hg]

/-- The instruction counts of an invocation, in 64 bits. -/
theorem getNumInstances_precompute (h : inv.Covers n) (instrID : UInt64) :
    inv.precomputeDataStructures.getNumInstances instrID
      = before (inv.instancesIn instrID) n % 2 ^ 64 := by
  have hgen : ∀ (gs : List IterationGroupCfc) (m : InstancesMap),
      m[instrID]?.getD 0 < 2 ^ 64 →
      ((gs.map CfcGroup.buildNumberOfInstancesLut).foldl
          (fun lut i => addScaled i.getNumberOfIterations_slow lut i.numInstancesLut) m
        )[instrID]?.getD 0
        = (m[instrID]?.getD 0 + (gs.map fun g => g.getNumberOfIterations_slow *
            (CompressionPattern.expandAll g.controlFlow).count instrID).sum) % 2 ^ 64 := by
    intro gs
    induction gs with
    | nil =>
        intro m hm
        simpa using (Nat.mod_eq_of_lt hm).symm
    | cons g gs ih =>
        intro m hm
        have hone := getD_addScaled g.getNumberOfIterations_slow hm
          (CompressionPattern.getD_sumInstances instrID g.controlFlow)
        have hlt := Nat.mod_lt (m[instrID]?.getD 0 + g.getNumberOfIterations_slow *
          (CompressionPattern.expandAll g.controlFlow).count instrID) (Nat.two_pow_pos 64)
        rw [← hone] at hlt
        rw [List.map_cons, List.foldl_cons]
        refine (ih _ hlt).trans ?_
        rw [hone, Nat.mod_add_mod, List.map_cons, List.sum_cons, Nat.add_assoc]
  have hall := hgen inv.iterations ∅ (by simp)
  rw [before_instancesIn h, getNumInstances, invocationInstancesLut_precompute]
  simpa using hall

/-! ## The runs of instances -/

variable {c : Nat → Nat} {e : InstructionInstanceLutEntry}
  {lut : List InstructionInstanceLutEntry}

/-- An entry stands for `m` iterations with the same number of instances. -/
structure Run (c : Nat → Nat) (e : InstructionInstanceLutEntry) (m : Nat) : Prop where
  pos : 0 < e.numInstances
  same : ∀ i < m, c (e.iteration + i) = e.numInstances
  start : e.start = before c e.iteration
  «end» : e.end + 1 = before c (e.iteration + m)

/-- The runs follow each other and hold the instances of the first `n` iterations. -/
structure LutInv (c : Nat → Nat) (n : Nat) (lut : List InstructionInstanceLutEntry) : Prop where
  tiles : RepetitionPatternLookup.Tiles 0 (before c n) (lut.map fun e => (e.start, e.end, e))
  runs : ∀ e ∈ lut, ∃ m, Run c e m ∧ e.iteration + m ≤ n

theorem Run.length_eq (h : Run c e k) (hlt : before c (e.iteration + k) < 2 ^ 64) :
    e.length = e.numInstances * k := by
  have hrun := before_run h.same
  have hstart := h.start
  have hend := h.end
  have hmono : before c e.iteration ≤ before c (e.iteration + k) := before_mono (by omega)
  simp only [InstructionInstanceLutEntry.length]
  omega

/-- Iterations without the instruction add nothing. -/
theorem LutInv.skip (h : LutInv c n lut) {len : Nat} (hzero : ∀ i < len, c (n + i) = 0) :
    LutInv c (n + len) lut := by
  have hrun := before_run hzero
  refine ⟨by simpa [hrun] using h.tiles, ?_⟩
  intro e he
  rcases h.runs e he with ⟨m, hm, hle⟩
  exact ⟨m, hm, by omega⟩

/-- A new run behind the others. -/
theorem LutInv.snoc (h : LutInv c n lut) {len : Nat} (hlen : 0 < len) (he : Run c e len)
    (hn : e.iteration = n) : LutInv c (n + len) (lut ++ [e]) := by
  have hstart := he.start
  have hend := he.end
  rw [hn] at hstart hend
  have hrun := before_run he.same
  have hpos : 0 < e.numInstances * len := Nat.mul_pos he.pos hlen
  rw [hn] at hrun
  refine ⟨?_, ?_⟩
  · rw [List.map_append, RepetitionPatternLookup.tiles_append]
    refine ⟨before c n, h.tiles, hstart, ?_, hend⟩
    simp only
    omega
  · intro e' he'
    rcases List.mem_append.1 he' with he' | he'
    · rcases h.runs e' he' with ⟨m, hm, hle⟩
      exact ⟨m, hm, by omega⟩
    · rcases List.mem_singleton.1 he' with rfl
      exact ⟨len, he, by omega⟩

/-- The last run grows by iterations that follow it directly. -/
theorem LutInv.extend {back : InstructionInstanceLutEntry} {m len last : Nat}
    (h : LutInv c n (lut ++ [back])) (hback : Run c back m) (hn : n = back.iteration + m)
    (hsame : ∀ i < len, c (n + i) = back.numInstances) (hlast : last + 1 = before c (n + len)) :
    LutInv c (n + len) (lut ++ [{ back with «end» := last }]) := by
  have hmono : before c n ≤ before c (n + len) := before_mono (by omega)
  have htiles := h.tiles
  rw [List.map_append, RepetitionPatternLookup.tiles_append] at htiles
  rcases htiles with ⟨mid, hmid, hstart, hle, hend⟩
  have hend : back.end + 1 = before c n := hend
  simp only at hstart hle
  refine ⟨?_, ?_⟩
  · rw [List.map_append, RepetitionPatternLookup.tiles_append]
    refine ⟨mid, hmid, hstart, ?_, hlast⟩
    simp only
    omega
  · intro e he
    rcases List.mem_append.1 he with he | he
    · rcases h.runs e (List.mem_append_left _ he) with ⟨m', hm', hle'⟩
      exact ⟨m', hm', by omega⟩
    · rcases List.mem_singleton.1 he with rfl
      refine ⟨m + len, ⟨hback.pos, ?_, hback.start, ?_⟩, by simp only; omega⟩
      · intro i hi
        by_cases him : i < m
        · exact hback.same i him
        · have hrest := hsame (i - m) (by omega)
          rwa [hn, show back.iteration + m + (i - m) = back.iteration + i by omega] at hrest
      · rw [hlast, hn, Nat.add_assoc]

/-- One round of the loop: a run of its own, or a longer last run. -/
theorem LutInv.push (h : LutInv c n lut) {len v : Nat} (hlen : 0 < len) (hv : 0 < v)
    (hsame : ∀ i < len, c (n + i) = v) (hlt : before c (n + len) < 2 ^ 64) :
    LutInv c (n + len) (pushInstances n len v lut) := by
  have hrun := before_run hsame
  have hpos : 0 < v * len := Nat.mul_pos hv hlen
  rcases List.eq_nil_or_concat' lut with rfl | ⟨front, back, rfl⟩
  · have hzero : 0 = before c n := h.tiles
    have hnew : pushInstances n len v []
        = [] ++ [{ start := 0, «end» := (v * len + (2 ^ 64 - 1)) % 2 ^ 64, iteration := n,
                   numInstances := v }] := rfl
    rw [hnew]
    refine h.snoc hlen ⟨hv, hsame, hzero, ?_⟩ rfl
    simp only
    omega
  · rcases h.runs back (by simp) with ⟨m, hback, hle⟩
    have hend : back.end + 1 = before c n := by
      have htiles := h.tiles
      rw [List.map_append, RepetitionPatternLookup.tiles_append] at htiles
      rcases htiles with ⟨mid, _, _, _, hend⟩
      exact hend
    have hmono : before c (back.iteration + m) ≤ before c (n + len) := before_mono (by omega)
    have hlength := hback.length_eq (by omega)
    have hquot : back.length / back.numInstances = m := by
      rw [hlength, Nat.mul_div_cancel_left m hback.pos]
    simp only [pushInstances, List.getLast?_concat, List.dropLast_concat, hquot]
    split
    · rename_i hjoin
      refine h.extend hback hjoin.2 (fun i hi => (hsame i hi).trans hjoin.1.symm) ?_
      omega
    · refine h.snoc hlen ⟨hv, hsame, ?_, ?_⟩ rfl
      · simp only
        omega
      · simp only
        omega

/-- The run of an instance leads to its iteration. -/
theorem LutInv.find (h : LutInv c n lut) {j : Nat} (hj : j < before c n) :
    ∃ e, lut.find? (fun e => j ≤ e.end) = some e ∧ e.numInstances ≠ 0 ∧
      e.iteration + (j - e.start) / e.numInstances < n ∧
      InBlock c (e.iteration + (j - e.start) / e.numInstances) j := by
  rcases h.tiles.lookupData_eq (Nat.zero_le j) hj with ⟨e, hlookup, hmem⟩
  have hfind : lut.find? (fun e => j ≤ e.end) = some e := by
    simp only [RepetitionPatternLookup.lookupData, List.find?_map, Function.comp_def] at hlookup
    cases hfind : lut.find? (fun e => j ≤ e.end) with
    | none => simp [hfind] at hlookup
    | some e' => simpa [hfind] using hlookup
  rcases RepetitionPatternLookup.Tiles.mem_entries.1 hmem with ⟨e', he', hlo, hhi, heq⟩
  rcases List.mem_map.1 he' with ⟨e, he, rfl⟩
  simp only at hlo hhi heq
  subst heq
  rcases h.runs e he with ⟨m, hrun, hle⟩
  have hend := hrun.end
  have hblock := inBlock_of_run hrun.same (hrun.start ▸ hlo) (by omega)
  rw [← hrun.start] at hblock
  exact ⟨e, hfind, Nat.ne_of_gt hrun.pos, by omega, hblock.2⟩

/-! ## The tables of an invocation -/

theorem getElem?_pushEntry (luts : InstructionInstanceLut) (e : Nat × Nat × IterationGroupCfc) :
    (pushEntry luts e)[instrID]? = match e.2.2.numInstancesLut[instrID]? with
      | some v => some (pushInstances e.1 (e.2.1 - e.1 + 1) v (luts[instrID]?.getD []))
      | none => luts[instrID]? :=
  getElem?_foldl_alter
    (fun _ v lut => some (pushInstances e.1 (e.2.1 - e.1 + 1) v (lut.getD []))) luts _ instrID

theorem LutInv.foldl_pushEntry (iterLut : RepetitionPatternLookup IterationGroupCfc) :
    ∀ (lo : Nat) (luts : InstructionInstanceLut), iterLut.Tiles lo n →
      (∀ k g, (k, g) ∈ iterLut.entries →
        g.numInstancesLut[instrID]? = if 0 < c k then some (c k) else none) →
      before c n < 2 ^ 64 → LutInv c lo (luts[instrID]?.getD []) →
      LutInv c n ((iterLut.foldl pushEntry luts)[instrID]?.getD []) := by
  induction iterLut with
  | nil =>
      intro lo luts htiles _ _ h
      rwa [show lo = n from htiles] at h
  | cons e iterLut ih =>
      intro lo luts htiles hcounts hlt h
      rcases htiles with ⟨rfl, hle, hrest⟩
      have hentries : ∀ i < e.2.1 - e.1 + 1, e.2.2.numInstancesLut[instrID]?
          = if 0 < c (e.1 + i) then some (c (e.1 + i)) else none := by
        intro i hi
        refine hcounts _ _ (RepetitionPatternLookup.Tiles.mem_entries.2 ⟨e, by simp, ?_⟩)
        exact ⟨by omega, by omega, rfl⟩
      have hnext : e.1 + (e.2.1 - e.1 + 1) = e.2.1 + 1 := by omega
      have hmono : before c (e.2.1 + 1) ≤ before c n := before_mono hrest.le
      refine ih _ _ hrest ?_ hlt ?_
      · intro k g hmem
        refine hcounts k g ?_
        rcases RepetitionPatternLookup.Tiles.mem_entries.1 hmem with ⟨e', he', hk⟩
        exact RepetitionPatternLookup.Tiles.mem_entries.2 ⟨e', List.mem_cons_of_mem _ he', hk⟩
      · rw [getElem?_pushEntry, ← hnext]
        cases hv : e.2.2.numInstancesLut[instrID]? with
        | none =>
            refine h.skip fun i hi => ?_
            have hi := hentries i hi
            rw [hv] at hi
            by_contra hne
            simp [Nat.pos_of_ne_zero hne] at hi
        | some v =>
            have hsame : ∀ i < e.2.1 - e.1 + 1, 0 < v ∧ c (e.1 + i) = v := by
              intro i hi
              have hi := hentries i hi
              rw [hv] at hi
              split at hi
              · rename_i hpos
                have heq := Option.some.inj hi
                exact ⟨heq ▸ hpos, heq.symm⟩
              · cases hi
            refine h.push (Nat.succ_pos _) (hsame 0 (Nat.succ_pos _)).1
              (fun i hi => (hsame i hi).2) ?_
            rw [hnext]
            omega

/-- An instance is led back to the iteration that holds it. -/
theorem exists_block_precompute (h : inv.Covers n)
    (hpos : ∀ g ∈ inv.iterations, CompressionPattern.PositiveAll g.controlFlow)
    (hfresh : inv.instructionInstanceLut[instrID]? = none)
    (htotal : before (inv.instancesIn instrID) n < 2 ^ 64) {j : Nat}
    (hj : j < before (inv.instancesIn instrID) n) :
    ∃ k < n, inv.precomputeDataStructures.getIterationNumber instrID j = .ok k ∧
      InBlock (inv.instancesIn instrID) k j := by
  rcases h.tiles_iterLut with ⟨htiles, hentries⟩
  have hcounts : ∀ k g, (k, g) ∈ inv.precomputeDataStructures.iterLut.entries →
      g.numInstancesLut[instrID]?
        = if 0 < inv.instancesIn instrID k then some (inv.instancesIn instrID k) else none := by
    intro k g hmem
    rcases hentries k g hmem with ⟨g, hg, hk, rfl⟩
    have hlt : k < n := List.mem_range.1 (h.perm.mem_iff.1 (List.mem_flatMap.2 ⟨g, hg, hk⟩))
    have hle : inv.instancesIn instrID k ≤ before (inv.instancesIn instrID) n := le_before hlt
    rw [instancesIn_eq h hg hk] at hle ⊢
    exact (CompressionPattern.counts_sumInstances (hpos g hg)).getElem?_eq (by omega)
  have hinit : LutInv (inv.instancesIn instrID) 0
      (inv.instructionInstanceLut[instrID]?.getD []) := by
    rw [hfresh]
    exact ⟨rfl, by simp⟩
  have hlut := LutInv.foldl_pushEntry _ 0 inv.instructionInstanceLut htiles hcounts htotal hinit
  rcases hlut.find hj with ⟨e, hfind, hne, hk, hblock⟩
  refine ⟨_, hk, ?_, hblock⟩
  simp only [getIterationNumber, instructionInstanceLut_precompute, hfind, if_neg hne]

/-- The table of runs inverts the prefix sums of the counts: an instance is led back to the one
iteration that holds it. -/
theorem getIterationNumber_precompute (h : inv.Covers n)
    (hpos : ∀ g ∈ inv.iterations, CompressionPattern.PositiveAll g.controlFlow)
    (hfresh : inv.instructionInstanceLut[instrID]? = none)
    (htotal : before (inv.instancesIn instrID) n < 2 ^ 64) :
    inv.precomputeDataStructures.getNumInstances instrID = before (inv.instancesIn instrID) n ∧
      ∀ j < before (inv.instancesIn instrID) n, ∃ k < n,
        inv.precomputeDataStructures.getIterationNumber instrID j = .ok k ∧
          InBlock (inv.instancesIn instrID) k j ∧
          ∀ k', InBlock (inv.instancesIn instrID) k' j → k' = k := by
  have hnum := getNumInstances_precompute h instrID
  rw [Nat.mod_eq_of_lt htotal] at hnum
  refine ⟨hnum, ?_⟩
  intro j hj
  rcases exists_block_precompute h hpos hfresh htotal hj with ⟨k, hk, hiter, hblock⟩
  exact ⟨k, hk, hiter, hblock, fun k' hk' => hblock.unique hk'⟩

/-- Instruction 5 runs twice in iterations 0 and 2, and once in iteration 1. -/
theorem getIterationNumber_precompute_three :
    let inv : InvocationGroupCfc := { new with iterations :=
      [{ repetitions := [(0, 0), (2, 2)], controlFlow := [.node 0 [.leaf 5] 2],
         numInstancesLut := ∅ },
       { repetitions := [(1, 1)], controlFlow := [.leaf 7, .leaf 5], numInstancesLut := ∅ }] }
    inv.precomputeDataStructures.getNumInstances 5 = before (inv.instancesIn 5) 3 ∧
      ∀ j < before (inv.instancesIn 5) 3, ∃ k < 3,
        inv.precomputeDataStructures.getIterationNumber 5 j = .ok k ∧
          InBlock (inv.instancesIn 5) k j ∧
          ∀ k', InBlock (inv.instancesIn 5) k' j → k' = k := by
  intro inv
  refine getIterationNumber_precompute ⟨by decide, by decide⟩ ?_ (by decide) (by decide)
  simp [inv, CompressionPattern.PositiveAll, CompressionPattern.Positive]

/-- The lookup fails where the count of an instruction leaves 64 bits, where a pattern is repeated
zero times, and where the tables are built a second time after more iterations have been added. -/
theorem getIterationNumber_precompute_fails :
    (let inv : InvocationGroupCfc := { new with iterations :=
      [{ repetitions := [(0, 0)], controlFlow := [.node 0 [.leaf 5, .leaf 5] (2 ^ 63)],
         numInstancesLut := ∅ }] }
     inv.Covers 1 ∧ before (inv.instancesIn 5) 1 = 2 ^ 64 ∧
       inv.precomputeDataStructures.getNumInstances 5 = 0) ∧
    (let inv : InvocationGroupCfc := { new with iterations :=
      [{ repetitions := [(0, 0)], controlFlow := [.node 0 [.leaf 5] 0], numInstancesLut := ∅ },
       { repetitions := [(1, 1)], controlFlow := [.leaf 5], numInstancesLut := ∅ }] }
     inv.Covers 2 ∧ InBlock (inv.instancesIn 5) 1 0 ∧
       inv.precomputeDataStructures.getIterationNumber 5 0 = .error .divisionByZero) ∧
    (let built : InvocationGroupCfc := InvocationGroupCfc.precomputeDataStructures
      { new with iterations :=
        [{ repetitions := [(0, 0)], controlFlow := [.leaf 5], numInstancesLut := ∅ }] }
     let inv : InvocationGroupCfc := { built with iterations := built.iterations ++
        [{ repetitions := [(1, 1)], controlFlow := [.leaf 5], numInstancesLut := ∅ }] }
     inv.Covers 2 ∧ InBlock (inv.instancesIn 5) 1 0 ∧
       inv.precomputeDataStructures.getIterationNumber 5 0 = .ok 0) := by
  refine ⟨?_, ?_, ?_⟩
  · intro inv
    have hcovers : inv.Covers 1 := ⟨by decide, by decide⟩
    have hbefore : before (inv.instancesIn 5) 1 = 2 ^ 64 := by
      rw [before_instancesIn hcovers]
      simp only [inv, List.map_cons, List.map_nil, CfcGroup.getNumberOfIterations_slow,
        CompressionPattern.expandAll_cons, CompressionPattern.expandAll_nil, List.append_nil,
        CompressionPattern.count_expand_node]
      decide
    refine ⟨hcovers, hbefore, ?_⟩
    rw [getNumInstances_precompute hcovers, hbefore]
    exact Nat.mod_self _
  · intro inv
    exact ⟨⟨by decide, by decide⟩, ⟨by decide, by decide⟩, by decide +kernel⟩
  · intro built inv
    exact ⟨⟨by decide, by decide⟩, ⟨by decide, by decide⟩, by decide +kernel⟩

end InvocationGroupCfc
end CamAlias
