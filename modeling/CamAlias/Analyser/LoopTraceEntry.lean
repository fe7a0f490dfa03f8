import CamAlias.Analyser.MergeGroups

/-!
# LoopTraceEntry — an invocation group of the loop trace and its tables

`InvocationGroupCfc` and `LoopTraceEntry` of `StaticLoopRec.cpp`.  `precomputeDataStructures` turns
the control flow of each iteration group into instance counts and builds the lookup tables;
afterwards the iteration iterator visits the iterations one by one, each with its counts
(`collect_iterations`).
-/

namespace CamAlias

open Lib

/-- `InstructionInstanceLutEntry`: a run of dynamic instances, the iteration of the first of them
and the number of instances in each iteration. -/
structure InstructionInstanceLutEntry where
  start : Nat
  «end» : Nat
  iteration : Nat
  numInstances : Nat
  deriving DecidableEq

/-- `end - start + 1`. -/
def InstructionInstanceLutEntry.length (e : InstructionInstanceLutEntry) : Nat :=
  (e.end + (2 ^ 64 - e.start) + 1) % 2 ^ 64

/-- `map<uintptr_t, vector<InstructionInstanceLutEntry>>`. -/
abbrev InstructionInstanceLut := Std.TreeMap UInt64 (List InstructionInstanceLutEntry)

/-- `InvocationGroupCfc`. -/
structure InvocationGroupCfc where
  iterations : List IterationGroupCfc
  invocationInstancesLut : InstancesMap
  instructionInstanceLut : InstructionInstanceLut
  iterLut : RepetitionPatternLookup IterationGroupCfc

namespace InvocationGroupCfc

def new : InvocationGroupCfc where
  iterations := []
  invocationInstancesLut := ∅
  instructionInstanceLut := ∅
  iterLut := []

/-- `InvocationGroupCfc::isEmpty`. -/
def isEmpty (inv : InvocationGroupCfc) : Bool :=
  inv.iterations.all CfcGroup.isEmpty

/-! ## Filling -/

/-- A change of `iterations.back()`. -/
def modifyBack (inv : InvocationGroupCfc) (f : IterationGroupCfc → IterationGroupCfc) :
    Except Fault InvocationGroupCfc :=
  match inv.iterations.getLast? with
  | none => .error .outOfRange
  | some back => .ok { inv with iterations := inv.iterations.dropLast ++ [f back] }

/-- `InvocationGroupCfc::addIterationGroup`. -/
def addIterationGroup (inv : InvocationGroupCfc) : InvocationGroupCfc :=
  { inv with iterations := inv.iterations ++ [CfcGroup.new] }

/-- `InvocationGroupCfc::addIterationPattern`. -/
def addIterationPattern (inv : InvocationGroupCfc) (startIteration endIteration : Nat) :
    Except Fault InvocationGroupCfc :=
  inv.modifyBack fun back => back.addPattern startIteration endIteration

/-- `InvocationGroupCfc::addCfc`. -/
def addCfc (inv : InvocationGroupCfc) (cp : CompressionPattern) :
    Except Fault InvocationGroupCfc :=
  inv.modifyBack fun back => back.addIntoControlFlow cp

/-- `InvocationGroupCfc::mergeIterationInfo`: the group and the other one afterwards. -/
def mergeIterationInfo (inv other : InvocationGroupCfc) :
    Except Fault (InvocationGroupCfc × InvocationGroupCfc) :=
  match mergeGroups inv.iterations other.iterations with
  | .ok (iterations, left) => .ok ({ inv with iterations }, { other with iterations := left })
  | .error e => .error e

/-! ## Tables -/

/-- `buildIterationNumInstancesLuts`. -/
def buildIterationNumInstancesLuts (inv : InvocationGroupCfc) : InvocationGroupCfc :=
  { inv with iterations := inv.iterations.map CfcGroup.buildNumberOfInstancesLut }

/-- `buildIterGroupLut`. -/
def buildIterGroupLut (inv : InvocationGroupCfc) : InvocationGroupCfc :=
  { inv with
    iterLut := RepetitionPatternLookup.buildLut (inv.iterations.map fun i => (i.repetitions, i)) }

/-- `buildInvocationNumInstancesLut`. -/
def buildInvocationNumInstancesLut (inv : InvocationGroupCfc) : InvocationGroupCfc :=
  { inv with
    invocationInstancesLut := inv.iterations.foldl
      (fun lut i => addScaled i.getNumberOfIterations_slow lut i.numInstancesLut) ∅ }

/-- One round of the inner loop of `buildInstructionInstanceLut`: `numIterations` iterations from
`startIteration` on, with `numInstances` instances each.  The arithmetic is that of `uint64_t`. -/
def pushInstances (startIteration numIterations numInstances : Nat)
    (lut : List InstructionInstanceLutEntry) : List InstructionInstanceLutEntry :=
  match lut.getLast? with
  | none =>
      [{ start := 0, «end» := (numInstances * numIterations + (2 ^ 64 - 1)) % 2 ^ 64,
         iteration := startIteration, numInstances }]
  | some back =>
      -- two equal counts are not 0 here: only a pattern repeated zero times would give that
      if back.numInstances = numInstances ∧
          startIteration = back.iteration + back.length / back.numInstances then
        lut.dropLast ++
          [{ back with «end» := (back.end + numInstances * numIterations) % 2 ^ 64 }]
      else
        lut ++ [{ start := (back.end + 1) % 2 ^ 64,
                  «end» := (back.end + numInstances * numIterations) % 2 ^ 64,
                  iteration := startIteration, numInstances }]

/-- The outer loop of `buildInstructionInstanceLut`: one entry of `iterLut` after the other. -/
def pushEntry (luts : InstructionInstanceLut) (e : Nat × Nat × IterationGroupCfc) :
    InstructionInstanceLut :=
  e.2.2.numInstancesLut.foldl
    (fun luts id numInstances => luts.alter id fun lut =>
      some (pushInstances e.1 (e.2.1 - e.1 + 1) numInstances (lut.getD []))) luts

/-- `buildInstructionInstanceLut`. -/
def buildInstructionInstanceLut (inv : InvocationGroupCfc) : InvocationGroupCfc :=
  { inv with instructionInstanceLut := inv.iterLut.foldl pushEntry inv.instructionInstanceLut }

/-- `precomputeDataStructures`. -/
def precomputeDataStructures (inv : InvocationGroupCfc) : InvocationGroupCfc :=
  inv.buildIterationNumInstancesLuts.buildIterGroupLut.buildInvocationNumInstancesLut
    |>.buildInstructionInstanceLut

/-- `InvocationGroupCfc::getNumInstances`. -/
def getNumInstances (inv : InvocationGroupCfc) (instrID : UInt64) : Nat :=
  inv.invocationInstancesLut[instrID]?.getD 0

/-- `InvocationGroupCfc::containsInstruction`. -/
def containsInstruction (inv : InvocationGroupCfc) (instrID : UInt64) : Bool :=
  0 < inv.getNumInstances instrID

/-- `InvocationGroupCfc::getIterationNumber`: `lower_bound` on the ends of the instance runs. -/
def getIterationNumber (inv : InvocationGroupCfc) (instrID : UInt64) (instanceNum : Nat) :
    Except Fault Nat :=
  match (inv.instructionInstanceLut[instrID]?.getD []).find? fun e => instanceNum ≤ e.end with
  | none => .error .outOfRange
  | some e =>
      if e.numInstances = 0 then .error .divisionByZero
      else .ok (e.iteration + (instanceNum - e.start) / e.numInstances)

/-- The loop from `iterationIteratorBegin` to `iterationIteratorEnd`: `getIterationNumberFromII`
and `getIterationFromII` of each iterator. -/
def collectIterations (inv : InvocationGroupCfc) (fuel : Nat) :
    Except Fault (List (Nat × IterationGroupCfc)) :=
  inv.iterLut.collect fuel inv.iterLut.begin

@[simp] theorem iterations_precompute (inv : InvocationGroupCfc) :
    inv.precomputeDataStructures.iterations
      = inv.iterations.map CfcGroup.buildNumberOfInstancesLut := rfl

@[simp] theorem iterLut_precompute (inv : InvocationGroupCfc) :
    inv.precomputeDataStructures.iterLut = RepetitionPatternLookup.buildLut
      ((inv.iterations.map CfcGroup.buildNumberOfInstancesLut).map fun i => (i.repetitions, i)) :=
  rfl

@[simp] theorem invocationInstancesLut_precompute (inv : InvocationGroupCfc) :
    inv.precomputeDataStructures.invocationInstancesLut
      = (inv.iterations.map CfcGroup.buildNumberOfInstancesLut).foldl
          (fun lut i => addScaled i.getNumberOfIterations_slow lut i.numInstancesLut) ∅ :=
  rfl

@[simp] theorem instructionInstanceLut_precompute (inv : InvocationGroupCfc) :
    inv.precomputeDataStructures.instructionInstanceLut
      = inv.precomputeDataStructures.iterLut.foldl pushEntry inv.instructionInstanceLut :=
  rfl

variable {inv : InvocationGroupCfc} {content : List (List UInt64)}

/-- The iteration groups have ranges that do not meet and cover `0 .. n - 1`. -/
structure Covers (inv : InvocationGroupCfc) (n : Nat) : Prop where
  proper : ∀ g ∈ inv.iterations, ∀ r ∈ g.repetitions, r.1 ≤ r.2
  perm : (inv.iterations.flatMap fun g => numbers g.repetitions).Perm (List.range n)

/-- A table of groups that split the numbers below `n` holds each number with its group. -/
theorem tiles_buildLut_groups {δ : Type} {gs : List CfcGroup} {n : Nat}
    (hproper : ∀ g ∈ gs, ∀ r ∈ g.repetitions, r.1 ≤ r.2)
    (hperm : (gs.flatMap fun g => numbers g.repetitions).Perm (List.range n)) (f : CfcGroup → δ) :
    let lut := RepetitionPatternLookup.buildLut (gs.map fun g => (g.repetitions, f g))
    lut.Tiles 0 n ∧
      ∀ k d, (k, d) ∈ lut.entries → ∃ g ∈ gs, k ∈ numbers g.repetitions ∧ d = f g := by
  intro lut
  have hproper' : ∀ i ∈ gs.map fun g => (g.repetitions, f g), ∀ r ∈ i.1, r.1 ≤ r.2 := by
    intro i hi r hr
    rcases List.mem_map.1 hi with ⟨g, hg, rfl⟩
    exact hproper g hg r hr
  have hperm' : ((gs.map fun g => (g.repetitions, f g)).flatMap fun i => numbers i.1).Perm
      (List.range' 0 (n - 0)) := by
    rw [List.flatMap_map, Nat.sub_zero, ← List.range_eq_range']
    exact hperm
  rcases RepetitionPatternLookup.tiles_buildLut (Nat.zero_le _) hproper' hperm' with
    ⟨htiles, hentries⟩
  refine ⟨htiles, ?_⟩
  intro k d hmem
  rcases (hentries k d).1 hmem with ⟨i, hi, hk, rfl⟩
  rcases List.mem_map.1 hi with ⟨g, hg, rfl⟩
  exact ⟨g, hg, hk, rfl⟩

/-- The iteration table tiles the iterations, and holds each with its group. -/
theorem Covers.tiles_iterLut {n : Nat} (h : inv.Covers n) :
    inv.precomputeDataStructures.iterLut.Tiles 0 n ∧
      ∀ k g', (k, g') ∈ inv.precomputeDataStructures.iterLut.entries →
        ∃ g ∈ inv.iterations, k ∈ numbers g.repetitions ∧ g' = g.buildNumberOfInstancesLut := by
  have hlut : inv.precomputeDataStructures.iterLut = RepetitionPatternLookup.buildLut
      (inv.iterations.map fun g => (g.repetitions, g.buildNumberOfInstancesLut)) := by
    simp only [iterLut_precompute, List.map_map]
    rfl
  rw [hlut]
  exact tiles_buildLut_groups h.proper h.perm CfcGroup.buildNumberOfInstancesLut

/-- Groups that stand for a sequence cover its iterations. -/
theorem Covers.of_describes (h : Describes 0 content inv.iterations) :
    inv.Covers content.length := by
  refine ⟨fun g hg r hr => (h.ascending g hg).le hr, ?_⟩
  have hgroups := h.groups.perm
  simpa [List.flatMap_map, List.range_eq_range'] using hgroups

/-- The group of an iteration in the table has the counts of the iteration. -/
theorem tiles_iterLut (h : Describes 0 content inv.iterations) :
    let lut := inv.precomputeDataStructures.iterLut
    lut.Tiles 0 content.length ∧
      ∀ k g, (k, g) ∈ lut.entries →
        ∃ symbols, content[k]? = some symbols ∧ Counts g.numInstancesLut symbols := by
  intro lut
  rcases (Covers.of_describes h).tiles_iterLut with ⟨htiles, hentries⟩
  refine ⟨htiles, ?_⟩
  intro k g' hmem
  rcases hentries k g' hmem with ⟨g, hg, hk, rfl⟩
  rcases h.groups.value _ (List.mem_map_of_mem hg) k hk with ⟨symbols, hsymbols, hexp, hpos⟩
  have hcounts := CompressionPattern.counts_sumInstances hpos
  rw [CfcGroup.group_snd] at hexp
  rw [CfcGroup.group_snd, hexp] at hcounts
  exact ⟨symbols, hsymbols, hcounts⟩

/-- The iterator visits the iterations in order, each with its instance counts. -/
theorem collect_iterations (h : Describes 0 content inv.iterations) {fuel : Nat}
    (hfuel : content.length ≤ fuel) :
    ∃ iterations, inv.precomputeDataStructures.collectIterations fuel = .ok iterations ∧
      iterations.map Prod.fst = List.range content.length ∧
      ∀ k g, (k, g) ∈ iterations →
        ∃ symbols, content[k]? = some symbols ∧ Counts g.numInstancesLut symbols := by
  rcases tiles_iterLut h with ⟨htiles, hcounts⟩
  refine ⟨_, htiles.collect_begin (by omega), ?_, hcounts⟩
  rw [htiles.map_fst_entries, Nat.sub_zero, List.range_eq_range']

end InvocationGroupCfc

/-! ## Entries of the loop trace -/

/-- `LoopTraceEntry`. -/
structure LoopTraceEntry where
  invocationRepetitionPattern : RepetitionPattern
  invocation : InvocationGroupCfc

namespace LoopTraceEntry

def new : LoopTraceEntry where
  invocationRepetitionPattern := []
  invocation := InvocationGroupCfc.new

/-- `LoopTraceEntry::addInvocationPattern`. -/
def addInvocationPattern (lte : LoopTraceEntry) (start «end» : Nat) : LoopTraceEntry :=
  { lte with
    invocationRepetitionPattern := lte.invocationRepetitionPattern.addPair start «end» }

/-- `LoopTraceEntry::addIterationPattern`. -/
def addIterationPattern (lte : LoopTraceEntry) (start «end» : Nat) :
    Except Fault LoopTraceEntry :=
  match lte.invocation.addIterationPattern start «end» with
  | .ok invocation => .ok { lte with invocation }
  | .error e => .error e

/-- `LoopTraceEntry::addCfc`. -/
def addCfc (lte : LoopTraceEntry) (cp : CompressionPattern) : Except Fault LoopTraceEntry :=
  match lte.invocation.addCfc cp with
  | .ok invocation => .ok { lte with invocation }
  | .error e => .error e

/-- `LoopTraceEntry::addIterationGroup`. -/
def addIterationGroup (lte : LoopTraceEntry) : LoopTraceEntry :=
  { lte with invocation := lte.invocation.addIterationGroup }

/-- `LoopTraceEntry::getFirstInvocationNumber`. -/
def getFirstInvocationNumber (lte : LoopTraceEntry) : Except Fault Nat :=
  lte.invocationRepetitionPattern.getFirstInstance

/-- `LoopTraceEntry::getLastInvocationNumber` and `finalInvocationNumber`. -/
def getLastInvocationNumber (lte : LoopTraceEntry) : Except Fault Nat :=
  lte.invocationRepetitionPattern.getLastInstance

/-- `LoopTraceEntry::isASingleInvocation`. -/
def isASingleInvocation (lte : LoopTraceEntry) : Except Fault Bool :=
  sameNumber lte.getLastInvocationNumber lte.getFirstInvocationNumber

/-- `LoopTraceEntry::lastAndFirstInvocationOverlap`. -/
def lastAndFirstInvocationOverlap (lte other : LoopTraceEntry) : Except Fault Bool :=
  sameNumber lte.getLastInvocationNumber other.getFirstInvocationNumber

/-- `LoopTraceEntry::isEmpty`. -/
def isEmpty (lte : LoopTraceEntry) : Bool :=
  lte.invocationRepetitionPattern.isEmpty

/-- `LoopTraceEntry::extractLastInvocationIntoNewGroup`: what stays, and the new entry. -/
def extractLastInvocationIntoNewGroup (lte : LoopTraceEntry) :
    Except Fault (LoopTraceEntry × LoopTraceEntry) :=
  match lte.getLastInvocationNumber, lte.invocationRepetitionPattern.removeLastInstance with
  | .ok n, .ok pattern =>
      .ok ({ lte with invocationRepetitionPattern := pattern },
        { lte with invocationRepetitionPattern := [(n, n)] })
  | .error e, _ => .error e
  | _, .error e => .error e

/-- The groups that `mergeIntoAndReturnRemaining` returns after the merged one. -/
def remainingInvocations (other : LoopTraceEntry) : Except Fault (List LoopTraceEntry) :=
  match other.isASingleInvocation with
  | .error e => .error e
  | .ok true => .ok []
  | .ok false =>
      match other.invocationRepetitionPattern.removeFirstInstance with
      | .ok pattern => .ok [{ other with invocationRepetitionPattern := pattern }]
      | .error e => .error e

/-- `LoopTraceEntry::mergeIntoAndReturnRemaining`: the entry itself, and the groups returned. -/
def mergeIntoAndReturnRemaining (lte other : LoopTraceEntry) :
    Except Fault (LoopTraceEntry × List LoopTraceEntry) :=
  if other.isEmpty then .ok (lte, [])
  else
    match lte.lastAndFirstInvocationOverlap other with
    | .error e => .error e
    -- an entry that adjoins is kept as it is
    | .ok false => .ok (lte, [other])
    | .ok true =>
        match lte.isASingleInvocation with
        | .error e => .error e
        | .ok true =>
            match lte.invocation.mergeIterationInfo other.invocation with
            | .error e => .error e
            | .ok (invocation, left) =>
                (remainingInvocations { other with invocation := left }).map fun remaining =>
                  ({ lte with invocation }, remaining)
        | .ok false =>
            match lte.extractLastInvocationIntoNewGroup with
            | .error e => .error e
            | .ok (stays, workingOn) =>
                match workingOn.invocation.mergeIterationInfo other.invocation with
                | .error e => .error e
                | .ok (invocation, left) =>
                    (remainingInvocations { other with invocation := left }).map fun remaining =>
                      (stays, { workingOn with invocation } :: remaining)

/-- `LoopTraceEntry::precomputeDataStructures`. -/
def precomputeDataStructures (lte : LoopTraceEntry) : LoopTraceEntry :=
  { lte with invocation := lte.invocation.precomputeDataStructures }

end LoopTraceEntry
end CamAlias
