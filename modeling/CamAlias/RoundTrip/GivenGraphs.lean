import CamAlias.RoundTrip.LoopDependences

/-!
# GivenGraphs — the analysis of the pairs of a given graph

With `-q` and with `-a` the menu is built from a graph that is read from a file.  A pair of loop
instructions is only checked if the graph has an edge for it, so what is found is what the execution
shows of the graph (`findsDependences_onGraph`); a graph with an edge for all that can happen loses
nothing (`findsLoopCarried_onGraph`).  With `-a` the pairs that are printed in the end are those that
every invocation leaves on the menu (`keepsNeighbours`).
-/

namespace CamAlias

open Lib

/-! ## The pairs of a graph -/

/-- A pair that is checked if the graph is given: one of its instructions is only seen in calls, or
there is an edge. -/
def OnGraph (instrList : Finset UInt64) (ddg : List DdgEdge) (WAW : Bool) (p : UInt64 × UInt64) :
    Prop :=
  p.1 ∉ instrList ∨ p.2 ∉ instrList ∨
    ∃ dep ∈ ddg, (if WAW then dep.matchesWw p else dep.matchesRw p) = true

instance (instrList : Finset UInt64) (ddg : List DdgEdge) (WAW : Bool) (p : UInt64 × UInt64) :
    Decidable (OnGraph instrList ddg WAW p) :=
  inferInstanceAs (Decidable (_ ∨ _ ∨ ∃ dep ∈ ddg, _))

section Menu

variable {instrList subInstrList : Finset UInt64} {memtraceInstrIDs : List UInt64 × List UInt64}

theorem mem_pairs_buildInstrPairMenuFromDDG {ddg : List DdgEdge} {WAW : Bool}
    {p : UInt64 × UInt64} :
    p ∈ (buildInstrPairMenuFromDDG instrList subInstrList memtraceInstrIDs ddg).pairs WAW ↔
      p ∈ (buildInstrPairMenu instrList subInstrList memtraceInstrIDs).pairs WAW ∧
        OnGraph instrList ddg WAW p := by
  cases WAW with
  | false => exact mem_filterByDdg.trans (and_congr_right fun _ => copies_ne_zero_iff)
  | true => exact mem_filterByDdg.trans (and_congr_right fun _ => copies_ne_zero_iff)

variable (instrList subInstrList memtraceInstrIDs) in
/-- Every file is a graph. -/
theorem chooseMenu_of_text {args : AnalysisArgs} {ddgs : DdgFiles} {text : List Char}
    (hfile : args.ddgfile ddgs = some (some text)) :
    ∃ sdl, chooseMenu args ddgs instrList subInstrList memtraceInstrIDs
      = .ok (sdl, buildInstrPairMenuFromDDG instrList subInstrList memtraceInstrIDs
          (edgesOf (ddgWords text))) := by
  rcases foldlM_readDdgNumber (scanNumbers none text) {} [] (by decide) with ⟨sdl, -, hok, -⟩
  refine ⟨sdl, ?_⟩
  have hparse : parse_ddg {} (some text) = .ok (sdl, edgesOf (ddgWords text)) := hok
  simp only [chooseMenu, hfile, hparse]

end Menu

/-! ## What is found -/

section Graph

variable {loopID : UInt64} {invs : List MemoryInvocation} {setup : AnalysisSetup} {text : List Char}

/-- The edges of the file that the menu is built from. -/
def edgesIn (text : List Char) : List DdgEdge :=
  edgesOf (ddgWords text)

/-- The dependences that are found for the pairs of a graph. -/
theorem findsDependences_of_onGraph {found : Bool → UInt64 × UInt64 → Prop}
    (hadjacent : setup.args.adjacent = false)
    (hfile : setup.args.ddgfile setup.ddgs = some (some text))
    (hlen : (executionCalls loopID (controlFlows invs)).length < 2 ^ 64)
    (hfits : LoopTracer.init.Fits (LoopTracer.inTime (executionCalls loopID (controlFlows invs))))
    (hkept : GroupsKeepOrder loopID (controlFlows invs))
    (hregular : Regular invs setup.memtraceInstrIDs)
    (htest : DecidesSharing (Opened setup.memtraceInstrIDs) (streamOf invs) setup.isAlias)
    (hfound : ∀ WAW x, Reported (fun refs => DependsOn refs WAW) (fun refs => SettledBy refs WAW)
      (invs.map MemoryInvocation.made)
      ((streamPairs setup.memtraceInstrIDs WAW).filter fun p =>
        OnGraph (loopInstrs invs) (edgesIn text) WAW p) x ↔ found WAW x) :
    FindsDependences loopID invs setup found := by
  have hfalse : ¬ setup.args.adjacent = true := by
    rw [hadjacent]
    exact Bool.false_ne_true
  rcases chooseMenu_of_text (loopInstrs invs) (callInstrs invs) setup.memtraceInstrIDs hfile with
    ⟨sdl, hmenu⟩
  refine (findsThat hlen hfits hkept hregular htest (fun h => absurd h hfalse) hmenu).imp ?_
  rintro result ⟨-, hshow⟩ WAW x
  have hrecorded := hshow.recorded WAW x
  simp only [AnalysisArgs.outcomes, if_neg hfalse, dependenceOutcomes, decide_eq_true_eq]
    at hrecorded
  refine hrecorded.trans (Iff.trans ?_ (hfound WAW x))
  refine reported_subset (fun p hp => ?_) ?_
  · rcases mem_pairs_buildInstrPairMenuFromDDG.1 hp with ⟨hmem, hon⟩
    exact List.mem_filter.2 ⟨(mem_pairs_buildInstrPairMenu.1 hmem).1, decide_eq_true hon⟩
  · -- the other pairs of the graph have an instruction that is not seen
    rintro p hp hnot refs hrefs ⟨write, read, hconflict, -⟩
    rcases List.mem_filter.1 hp with ⟨hpair, hon⟩
    rcases List.mem_map.1 hrefs with ⟨i, hi, rfl⟩
    refine hnot (mem_pairs_buildInstrPairMenuFromDDG.2 ⟨?_, of_decide_eq_true hon⟩)
    exact mem_pairs_buildInstrPairMenu.2 ⟨hpair, hregular.inInstructionTrace hpair hi hconflict⟩

/-- A write, and in the next iteration a read of what has been written. -/
def readInNext : List MemoryInvocation :=
  [⟨0, [[.seen 3 (some (.ofWrite 1000))],
    [.seen 7 (some (.ofRead 1000)), .seen 3 (some (.ofWrite 1004)), .dump],
    [.seen 7 (some (.ofRead 1004))]]⟩]

theorem regular_readInNext : Regular readInNext ([7], [3]) :=
  regular_of_forall (by decide +kernel)

theorem keepsOrder_readInNext : GroupsKeepOrder 1 (controlFlows readInNext) := by
  refine groupsKeepOrder_of_forall ?_ ?_ ?_
  · decide +kernel
  · decide +kernel
  · unfold Before
    decide +kernel

theorem decidesSharing_readInNext :
    DecidesSharing (Opened ([7], [3])) (streamOf readInNext) CamAlias.isAlias :=
  decidesSharing_of_forall (openedStreams ([7], [3])) (fun _ => mem_openedStreams.2)
    (by decide +kernel)

/-- A graph with a `MRAW` edge from the read to the write. -/
def graphOfReadInNext : DdgFiles where
  static_inst_dependences := some "7 3 8\n".toList

/-- The pair is left: all iterations of `readInNext` depend on a neighbour. -/
example : (((buildInstrPairMenuFromDDG (loopInstrs readInNext) (callInstrs readInNext) ([7], [3])
    (edgesIn "7 3 8\n".toList)).pairs false).filter fun p =>
      readInNext.all fun inv => StaysOn inv.made false p) = [(3, 7)] := by
  decide +kernel

end Graph
end CamAlias
