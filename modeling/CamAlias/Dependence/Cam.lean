import CamAlias.Dependence.IsAlias
import CamAlias.Dependence.LoopAnalysis
import CamAlias.Dependence.Statistics

/-!
# Cam — the runs of the analyser

`main` of `main.cpp` works on the files of a directory: with `-p` it analyses the traces and writes the
dependences that it finds, or prints them, and with `-s` it produces the statistics from what has been
written.  So a run reads what an earlier one has left.
-/

namespace CamAlias

open Lib

/-- The options that settle what a run does. -/
structure CamOptions where
  deppairs : Bool := false
  statistics : Bool := false
  adjacent : Bool := false
  checkstaticdepsonly : Bool := false
  deriving DecidableEq

def CamOptions.args (opts : CamOptions) : AnalysisArgs where
  adjacent := opts.adjacent
  checkstaticdepsonly := opts.checkstaticdepsonly

/-- The working directory.  The compressed traces are in the reads that they come in. -/
structure Directory where
  loopTrace : List BzRead
  callTrace : List BzRead
  memtraceInstrIDs : List UInt64 × List UInt64
  memoryTraces : UInt64 × Stream → List BzRead
  static_inst_dependences : Option (List Char) := none
  dependence_pairs : Option (List Char) := none
  static_ddg : Option (List Char) := none
  dynamic_ddg_static_subset : Option (List Char) := none
  dynamic_ddg : Option (List Char) := none
  cam_stats : Option (List Char) := none

namespace Directory

def ddgs (dir : Directory) : DdgFiles where
  static_inst_dependences := dir.static_inst_dependences
  dynamic_ddg := dir.dynamic_ddg

/-- The files of `produceStatistics`. -/
def writeStatistics (dir : Directory) (stats : Statistics) : Directory :=
  { dir with
    static_ddg := some stats.static_ddg
    dynamic_ddg_static_subset := some stats.dynamic_ddg_static_subset
    dynamic_ddg := some stats.dynamic_ddg
    cam_stats := some stats.cam_stats }

end Directory

/-- The end of `loop_analysis_memeff`: the pairs are written, or those that are left are printed.  A
`set` with more elements than a `size_t` counts is never built. -/
def outputFindings (opts : CamOptions) (findings : Findings) (dir : Directory) :
    Except Fault (List Char × Directory) :=
  if opts.adjacent then
    .ok ((findings.pairMenu.rw_menu ++ findings.pairMenu.ww_menu).flatMap printPair, dir)
  else if h : findings.rw_dependence_pairs.card < 2 ^ 64 ∧
      findings.ww_dependence_pairs.card < 2 ^ 64 then
    .ok ([],
      { dir with
        dependence_pairs := some (outputDependencePairs ⟨findings.rw_dependence_pairs, h.1⟩
          ⟨findings.ww_dependence_pairs, h.2⟩) })
  else .error .abort

/-- What `main` does for `deppairs`: the graph lexer behind it, what has been written to `cout` and the
directory. -/
def runDeppairs (opts : CamOptions) (sorter : StartSort Nat MemSetEntry) (fuel : Nat)
    (dir : Directory) : Except Fault (StaticDDGLex × List Char × Directory) :=
  if opts.deppairs then
    match dependence_analysis opts.args isAlias sorter fuel dir.loopTrace dir.callTrace dir.ddgs
        dir.memtraceInstrIDs dir.memoryTraces with
    | .error e => .error e
    | .ok (sdl, findings) => (outputFindings opts findings dir).map fun written => (sdl, written)
  else .ok ({}, [], dir)

/-- `main`, with what it writes to `cout` and the directory behind it. -/
def cam (opts : CamOptions) (sorter : StartSort Nat MemSetEntry) (fuel : Nat) (dir : Directory) :
    Except Fault (List Char × Directory) :=
  if opts.deppairs || opts.statistics then
    match LoopTraceStreamer.parseForInstructionList dir.loopTrace with
    | .error e => .error e
    | .ok (instrList, _) =>
        match CallTraceStreamer.parseForInstructionLists dir.callTrace with
        | .error e => .error e
        | .ok (callList, subInstrList) =>
            -- the lists are read before the option is looked at
            match runDeppairs opts sorter fuel dir with
            | .error e => .error e
            | .ok (sdl, out, dir) =>
                if opts.statistics then
                  (produceStatistics instrList callList subInstrList dir.memtraceInstrIDs
                    dir.dependence_pairs sdl dir.static_inst_dependences).map fun stats =>
                      (out ++ stats.out, dir.writeStatistics stats)
                else .ok (out, dir)
  else .ok (if opts.adjacent || opts.checkstaticdepsonly then [] else "cam: 64 bit\n".toList, dir)

end CamAlias
