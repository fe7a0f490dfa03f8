import CamAlias.Analyser.StreamParseCallTrace
import CamAlias.Lexer.StaticDdg

/-!
# Statistics — the dynamic dependence graph

`produceStatistics` of `main.cpp` cuts the static dependence graph down to what has been found: between
two instructions of the loop only the kinds of dependences are kept that a found pair stands for.  On
the way it checks whether the three traces name the same instructions, and whether every found pair
has an edge.
-/

namespace CamAlias

open Lib

def DEP_RAW : BitVec 32 := 0x1

def DEP_WAR : BitVec 32 := 0x2

def DEP_WAW : BitVec 32 := 0x4

/-- Both are the same two instructions, in either order. -/
def pairMatch (a0 a1 b0 b1 : UInt64) : Bool :=
  (a0 = b0 && a1 = b1) || (a0 = b1 && a1 = b0)

/-- What is written to `cout`, and what becomes of a text that is collected on the way. -/
structure Remarks where
  out : List Char := []
  comments : List Char := []
  deriving DecidableEq

/-! ## The checks -/

/-- The comment on that many pairs without an edge. -/
def extraComment (extraDeps : Nat) : List Char :=
  "DDDG>SDDG(".toList ++ decimal extraDeps ++ ");".toList

/-- The line that is printed for a pair without an edge. -/
def missingLine (dep : DependencePair) : List Char :=
  "Dynamic dependence not found in static DDG: ".toList ++ printPair dep

/-- The loop of `checkDynamicDDGIsSubset`: the number of pairs without an edge, and the comment of the
last one. -/
def checkDynamicDDG (localStaticDDG : List DdgEdge) :
    List DependencePair → Nat × List Char × List Char → Nat × List Char × List Char
  | [], st => st
  | dep :: pairs, (extraDeps, additional, out) =>
      if localStaticDDG.any fun d => pairMatch dep.1 dep.2 d.source d.target then
        checkDynamicDDG localStaticDDG pairs (extraDeps, additional, out)
      else
        checkDynamicDDG localStaticDDG pairs
          (extraDeps + 1, extraComment (extraDeps + 1), out ++ missingLine dep)

/-- `checkDynamicDDGIsSubset`, with the number that it returns. -/
def checkDynamicDDGIsSubset (pairs : Finset DependencePair) (localStaticDDG : List DdgEdge)
    (r : Remarks) : Nat × Remarks :=
  let (extraDeps, additional, out) := checkDynamicDDG localStaticDDG (pairs.sort pairLe) (0, [], [])
  (extraDeps, { out := r.out ++ out, comments := r.comments ++ additional })

/-- One of the three loops of `doInstrumentationConsistencyCheck`. -/
def checkIDs (known : UInt64 → Bool) (additional message : String) (ids : List UInt64) (r : Remarks) :
    Remarks :=
  let unknown := ids.filter fun id => !known id
  { out := r.out ++ unknown.flatMap fun id => message.toList ++ decimal id.toNat ++ ['\n']
    comments := if unknown = [] then r.comments else r.comments ++ additional.toList }

/-- `doInstrumentationConsistencyCheck`. -/
def doInstrumentationConsistencyCheck (memtraceInstrIDs : List UInt64 × List UInt64)
    (instrList callList subInstrList : Finset UInt64) (r : Remarks) : Remarks :=
  let memtraceIDs := memtraceInstrIDs.1 ++ memtraceInstrIDs.2
  let r := checkIDs (fun instr => instr ∈ instrList || instr ∈ subInstrList) "memtrace > loop/calltrace;"
    "Memory trace contained instruction not in call/loop trace: " memtraceIDs r
  let r := checkIDs (fun callid => callid ∈ instrList) "calltrace > looptrace;"
    "Call trace contained call ID not in loop trace: " (inSetOrder callList) r
  checkIDs (fun subInstr => subInstr ∈ memtraceIDs) "calltrace > memtrace;"
    "Call trace contained sub instruction not in memory trace: " (inSetOrder subInstrList) r

/-! ## The graphs -/

def setContainsPair (s : Finset DependencePair) (idA idB : UInt64) : Bool :=
  (s.sort pairLe).any fun p => pairMatch p.1 p.2 idA idB

/-- `filterMask`. -/
def filterMask (reads writes : Finset DependencePair) (idA idB : UInt64) (staticmask : BitVec 32) :
    BitVec 32 :=
  let staticmask :=
    if staticmask &&& (DEP_MRAW ||| DEP_MWAR ||| DEP_RAW ||| DEP_WAR) ≠ 0 then
      if !setContainsPair reads idA idB then
        staticmask &&& ~~~(DEP_MRAW ||| DEP_MWAR ||| DEP_RAW ||| DEP_WAR)
      else staticmask
    else staticmask
  if staticmask &&& (DEP_MWAW ||| DEP_WAW) ≠ 0 then
    if !setContainsPair writes idA idB then staticmask &&& ~~~(DEP_MWAW ||| DEP_WAW)
    else staticmask
  else staticmask

/-- The edges between two instructions of the loop. -/
def localStaticDDG (instrList : Finset UInt64) (staticDDG : List DdgEdge) : List DdgEdge :=
  staticDDG.filter fun dep => dep.source ∈ instrList && dep.target ∈ instrList

/-- The order of the edges in a `set`. -/
def edgeLe (a b : DdgEdge) : Prop :=
  a.source < b.source ∨ (a.source = b.source ∧
    (a.target < b.target ∨ (a.target = b.target ∧ a.mask ≤ b.mask)))

instance : DecidableRel edgeLe := fun a b =>
  inferInstanceAs (Decidable (a.source < b.source ∨ (a.source = b.source ∧
    (a.target < b.target ∨ (a.target = b.target ∧ a.mask ≤ b.mask)))))

theorem edgeLe_iff {a b : DdgEdge} :
    edgeLe a b ↔ a.source.toNat < b.source.toNat ∨ (a.source.toNat = b.source.toNat ∧
      (a.target.toNat < b.target.toNat ∨
        (a.target.toNat = b.target.toNat ∧ a.mask.toNat ≤ b.mask.toNat))) := by
  rw [edgeLe, UInt64.lt_iff_toNat_lt, UInt64.lt_iff_toNat_lt, UInt64.toNat_inj, UInt64.toNat_inj,
    BitVec.le_def]

instance : IsTrans DdgEdge edgeLe where
  trans a b c hab hbc := by
    rw [edgeLe_iff] at hab hbc ⊢
    omega

instance : Std.Antisymm edgeLe where
  antisymm a b hab hba := by
    rw [edgeLe_iff] at hab hba
    have hsource : a.source.toNat = b.source.toNat := by omega
    have htarget : a.target.toNat = b.target.toNat := by omega
    have hmask : a.mask.toNat = b.mask.toNat := by omega
    rcases a with ⟨source, target, mask⟩
    rcases b with ⟨source', target', mask'⟩
    obtain rfl := UInt64.toNat_inj.1 hsource
    obtain rfl := UInt64.toNat_inj.1 htarget
    obtain rfl := BitVec.eq_of_toNat_eq hmask
    rfl

instance : Std.Total edgeLe where
  total a b := by
    rw [edgeLe_iff, edgeLe_iff]
    omega

/-- One of the two tests of an edge, with the bits that it is for and the pairs that it looks at. -/
def insertIfMatched (bits : BitVec 32) (pairs : Finset DependencePair) (dep : DdgEdge)
    (localDynamicDDG : Finset DdgEdge) : Finset DdgEdge :=
  if dep.mask &&& bits ≠ 0 ∧
      (pairs.sort pairLe).any (fun dyn => pairMatch dep.source dep.target dyn.1 dyn.2) then
    insert dep localDynamicDDG
  else localDynamicDDG

/-- The edges that any found pair matches, as they are in the static graph. -/
def localDynamicDDG (reads writes : Finset DependencePair) (localStaticDDG : List DdgEdge) :
    Finset DdgEdge :=
  localStaticDDG.foldl (fun localDynamicDDG dep =>
    insertIfMatched (DEP_MWAW ||| DEP_WAW) writes dep
      (insertIfMatched (DEP_MRAW ||| DEP_MWAR ||| DEP_RAW ||| DEP_WAR) reads dep localDynamicDDG)) ∅

/-- The dynamic graph, with the edges that leave the loop as they are. -/
def dynamicDDG (reads writes : Finset DependencePair) (instrList : Finset UInt64)
    (staticDDG : List DdgEdge) : List DdgEdge :=
  staticDDG.filterMap fun staticdep =>
    if staticdep.source ∈ instrList ∧ staticdep.target ∈ instrList then
      let mask := filterMask reads writes staticdep.source staticdep.target staticdep.mask
      if mask ≠ 0 then some { staticdep with mask } else none
    else some staticdep

/-! ## The statistics -/

/-- The files that `produceStatistics` writes, and what it writes to `cout`. -/
structure Statistics where
  static_ddg : List Char
  dynamic_ddg_static_subset : List Char
  dynamic_ddg : List Char
  cam_stats : List Char
  out : List Char

/-- `parse_dependence_pairs`; without the file it exits. -/
def parse_dependence_pairs (file : Option (List Char)) :
    Except Fault (Finset DependencePair × Finset DependencePair) :=
  match file with
  | none => .error .abort
  | some text => (deppairslex {} ∅ ∅ text).map fun l => (l.rw_pairs, l.ww_pairs)

/-- The numbers of the statistics, up to the comments. -/
def printCounts (counts : List Nat) : List Char :=
  counts.flatMap fun count => decimal count ++ [',']

/-- `produceStatistics`, with the state of the graph lexer in front of it. -/
def produceStatistics (instrList callList subInstrList : Finset UInt64)
    (memtraceInstrIDs : List UInt64 × List UInt64) (dependence_pairs : Option (List Char))
    (sdl : StaticDDGLex) (static_inst_dependences : Option (List Char)) : Except Fault Statistics :=
  match parse_dependence_pairs dependence_pairs with
  | .error e => .error e
  | .ok pairs =>
      match parse_ddg sdl static_inst_dependences with
      | .error e => .error e
      | .ok (_, staticDDG) =>
          let r := doInstrumentationConsistencyCheck memtraceInstrIDs instrList callList subInstrList {}
          let numRead := memtraceInstrIDs.1.countP fun instr => instr ∉ memtraceInstrIDs.2
          let numReadWrite := memtraceInstrIDs.1.countP fun instr => instr ∈ memtraceInstrIDs.2
          let numWrite := memtraceInstrIDs.2.countP fun instr => instr ∉ memtraceInstrIDs.1
          let numCall := 0
          let static := localStaticDDG instrList staticDDG
          let dynamic := localDynamicDDG pairs.1 pairs.2 static
          let (extraReads, r) := checkDynamicDDGIsSubset pairs.1 static r
          let (extraWrites, r) := checkDynamicDDGIsSubset pairs.2 static r
          let numDynamic := dynamic.card + extraReads + extraWrites
          .ok {
            static_ddg := printDdg static
            dynamic_ddg_static_subset := printDdg (dynamic.sort edgeLe)
            dynamic_ddg := printDdg (dynamicDDG pairs.1 pairs.2 instrList staticDDG)
            cam_stats :=
              ("num_read_instr,num_write_instr,num_read_write_instr,num_call_instr," ++
                "num_static_deps,num_dynamic_deps,comments\n").toList ++
                printCounts [numRead, numWrite, numReadWrite, numCall, static.length, numDynamic] ++
                r.comments ++ ['\n', '\n']
            out := r.out }

end CamAlias
