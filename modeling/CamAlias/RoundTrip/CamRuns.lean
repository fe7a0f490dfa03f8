import CamAlias.Dependence.Cam
import CamAlias.Dependence.DynamicGraph
import CamAlias.RoundTrip.GivenGraphs

/-!
# CamRuns — the analyser on the traces of an execution

A run with `-p` and `-s` in the directory of an execution, and a run with `-p` and `-a` behind it.

* `cam_dynamicDDG`: the dynamic graph that is written is what the loop-carried dependences of the
  execution leave of the static one;
* `cam_neighbours`: what the second run prints.
-/

namespace CamAlias

open Lib

/-! ## The directory of an execution -/

/-- The traces in the directory are those of the execution, in whatever reads they come. -/
structure Directory.Holds (dir : Directory) (loopID : UInt64) (invs : List MemoryInvocation) :
    Prop where
  record : ∃ files,
    LoopTracer.record (LoopTracer.inTime (executionCalls loopID (controlFlows invs)))
        = some (some files) ∧
      Delivered files.loopTrace dir.loopTrace ∧ Delivered files.callTrace dir.callTrace
  memory : ∀ key, Opened dir.memtraceInstrIDs key → ReadsStream invs key (dir.memoryTraces key)

/-- The analysis of a directory. -/
def Directory.setup (dir : Directory) (args : AnalysisArgs) (sorter : StartSort Nat MemSetEntry) :
    AnalysisSetup where
  args
  ddgs := dir.ddgs
  memtraceInstrIDs := dir.memtraceInstrIDs
  isAlias := CamAlias.isAlias
  sorter

section Runs

variable {dir : Directory} {loopID : UInt64} {invs : List MemoryInvocation}
  {sorter : StartSort Nat MemSetEntry} {fuel : Nat} {opts : CamOptions}

/-- What is found in the traces of an execution is found in its directory. -/
theorem Directory.Holds.dependence_analysis (h : dir.Holds loopID invs)
    (hfuel : (executionCalls loopID (controlFlows invs)).length < fuel) {args : AnalysisArgs}
    {P : StaticDDGLex × Findings → Prop} (hfinds : FindsThat loopID invs (dir.setup args sorter) P) :
    ∃ result, CamAlias.dependence_analysis args CamAlias.isAlias sorter fuel dir.loopTrace
      dir.callTrace dir.ddgs dir.memtraceInstrIDs dir.memoryTraces = .ok result ∧ P result := by
  rcases h.record with ⟨files, hrecord, hloopTrace, hcallTrace⟩
  simp only [FindsThat, hrecord] at hfinds
  exact hfinds dir.loopTrace dir.callTrace dir.memoryTraces fuel hloopTrace hcallTrace h.memory hfuel

/-- The analysis hands on the graph lexer as the menu leaves it. -/
theorem exists_chooseMenu_of_dependence_analysis {args : AnalysisArgs}
    {isAlias : MemSetEntry → MemSetEntry → Option Bool} {loopTrace callTrace : List BzRead}
    {ddgs : DdgFiles} {memtraceInstrIDs : List UInt64 × List UInt64}
    {memoryTraces : UInt64 × Stream → List BzRead} {sdl : StaticDDGLex} {findings : Findings}
    (h : CamAlias.dependence_analysis args isAlias sorter fuel loopTrace callTrace ddgs
      memtraceInstrIDs memoryTraces = .ok (sdl, findings)) :
    ∃ instrList subInstrList menu,
      chooseMenu args ddgs instrList subInstrList memtraceInstrIDs = .ok (sdl, menu) := by
  simp only [CamAlias.dependence_analysis] at h
  split at h
  · cases h
  · split at h
    · cases h
    · split at h
      · cases h
      · split at h
        · cases h
        · rename_i sdl' menu hmenu
          rcases exists_of_map_eq_ok h with ⟨findings', -, heq⟩
          cases heq
          exact ⟨_, _, _, hmenu⟩

/-- The two traces of the control flow are read. -/
theorem Directory.Holds.tracesRead (h : dir.Holds loopID invs)
    (hlen : (executionCalls loopID (controlFlows invs)).length < 2 ^ 64)
    (hfits : LoopTracer.init.Fits (LoopTracer.inTime (executionCalls loopID (controlFlows invs)))) :
    ∃ groupOf es callList,
      TracesRead dir.loopTrace dir.callTrace (recordedFlows invs) groupOf es callList
        (callInstrs invs) ∧
      LoopTraceStreamer.parseForInstructionList dir.loopTrace
        = .ok (loopInstrs invs, (recordedFlows invs).length) := by
  rcases h.record with ⟨files, hrecord, hloopTrace, hcallTrace⟩
  rcases exists_tracesRead_of_record hlen hfits hrecord with ⟨-, groupOf, es, -, hdelivered⟩
  exact ⟨groupOf, es, hdelivered _ _ hloopTrace hcallTrace⟩

/-- A run, once the lists of instructions are read and the analysis is done. -/
theorem cam_eq {instrList callList subInstrList : Finset UInt64} {numInvocations : Nat}
    {sdl : StaticDDGLex} {out : List Char} {dir' : Directory}
    (hopts : (opts.deppairs || opts.statistics) = true)
    (hloop : LoopTraceStreamer.parseForInstructionList dir.loopTrace = .ok (instrList, numInvocations))
    (hcall : CallTraceStreamer.parseForInstructionLists dir.callTrace
      = .ok (callList, subInstrList))
    (hrun : runDeppairs opts sorter fuel dir = .ok (sdl, out, dir')) :
    cam opts sorter fuel dir = if opts.statistics then
        (produceStatistics instrList callList subInstrList dir'.memtraceInstrIDs
          dir'.dependence_pairs sdl dir'.static_inst_dependences).map fun stats =>
            (out ++ stats.out, dir'.writeStatistics stats)
      else .ok (out, dir') := by
  simp only [cam, hopts, if_true, hloop, hcall, hrun]

/-! ## The file of dependence pairs -/

/-- The pairs that have been written are read back. -/
theorem parse_dependence_pairs_output (rw_pairs ww_pairs : DependencePairs) :
    parse_dependence_pairs (some (outputDependencePairs rw_pairs ww_pairs))
      = .ok (rw_pairs.pairs, ww_pairs.pairs) := by
  have hnumbers : scanNumbers none (outputDependencePairs rw_pairs ww_pairs)
      = (rw_pairs.pairs.card :: sectionNumbers (rw_pairs.pairs.sort pairLe))
        ++ (ww_pairs.pairs.card :: sectionNumbers (ww_pairs.pairs.sort pairLe)) := by
    have hsections := (scans_printSection rw_pairs).append
      (scans_newline.append (scans_printSection ww_pairs))
    exact hsections.eq rfl
  let start : DependencePairsRead := { dpl := {}, rw_pairs := ∅, ww_pairs := ∅ }
  have hstart : start.dpl.state + 1 = Section.readWrite.first := rfl
  rcases foldlM_sized .readWrite rw_pairs hstart with ⟨dpl, hdpl, hreads⟩
  let between : DependencePairsRead := { Section.readWrite.add start rw_pairs.pairs with dpl }
  have hbetween : between.dpl.state + 1 = Section.writeWrite.first := congrArg Nat.succ hdpl
  rcases foldlM_sized .writeWrite ww_pairs hbetween with ⟨dpl', -, hwrites⟩
  have hread : deppairslex {} ∅ ∅ (outputDependencePairs rw_pairs ww_pairs)
      = .ok { Section.writeWrite.add between ww_pairs.pairs with dpl := dpl' } := by
    rw [deppairslex, hnumbers, List.foldlM_append]
    rw [show List.foldlM readNumber start _ = _ from hreads]
    exact hwrites
  simp only [parse_dependence_pairs, hread, Except.map, Section.add, between, start,
    Finset.empty_union]

end Runs

/-! ## The menu from the dynamic graph -/

section Menu

variable {reads writes : Finset DependencePair} {instrList : Finset UInt64}
  {staticDDG : List DdgEdge} {p : UInt64 × UInt64}

theorem matchesRw_iff {dep : DdgEdge} : dep.matchesRw p = true ↔
    (dep.mask &&& DEP_MRAW ≠ 0 ∧ dep.source = p.2 ∧ dep.target = p.1) ∨
      (dep.mask &&& DEP_MWAR ≠ 0 ∧ dep.target = p.2 ∧ dep.source = p.1) := by
  simp [DdgEdge.matchesRw, and_assoc]

theorem matchesWw_iff {dep : DdgEdge} : dep.matchesWw p = true ↔
    dep.mask &&& DEP_MWAW ≠ 0 ∧ dep.source = p.1 ∧ dep.target = p.2 := by
  simp [DdgEdge.matchesWw, and_assoc]

/-- The test of the menu. -/
def Matches (WAW : Bool) (dep : DdgEdge) (p : UInt64 × UInt64) : Prop :=
  (if WAW then dep.matchesWw p else dep.matchesRw p) = true

/-- What a pair matches is an edge between its instructions, in one direction or the other. -/
theorem Matches.ends {WAW : Bool} {dep : DdgEdge} (h : Matches WAW dep p) :
    (dep.source = p.1 ∧ dep.target = p.2) ∨ (dep.source = p.2 ∧ dep.target = p.1) := by
  cases WAW with
  | true => exact Or.inl (matchesWw_iff.1 h).2
  | false =>
      rcases matchesRw_iff.1 h with ⟨-, hends⟩ | ⟨-, hends⟩
      · exact Or.inr hends
      · exact Or.inl hends.symm

/-- The test on an edge, and on what is left of it. -/
theorem matches_leftOf_iff {s : DdgEdge} {WAW : Bool} :
    Matches WAW (leftOf reads writes s) p ↔
      Matches WAW s p ∧ Shows (foundPairs reads writes WAW) p.1 p.2 := by
  -- the edge is shown if the pair is
  have hshows : Matches WAW s p → (Shows (foundPairs reads writes WAW) s.source s.target ↔
      Shows (foundPairs reads writes WAW) p.1 p.2) := by
    intro h
    rcases h.ends with ⟨hsource, htarget⟩ | ⟨hsource, htarget⟩
    · rw [hsource, htarget]
    · rw [hsource, htarget]
      exact or_comm
  suffices hleft : Matches WAW (leftOf reads writes s) p ↔
      Matches WAW s p ∧ Shows (foundPairs reads writes WAW) s.source s.target from
    hleft.trans (and_congr_right hshows)
  cases WAW with
  | true =>
      have hkind : DEP_MWAW &&& kindBits true = DEP_MWAW := by decide
      refine matchesWw_iff.trans ((and_congr_left' (filterMask_and_ne_zero_iff hkind)).trans ?_)
      exact (and_right_comm).trans (and_congr_left' matchesWw_iff.symm)
  | false =>
      have hraw : DEP_MRAW &&& kindBits false = DEP_MRAW := by decide
      have hwar : DEP_MWAR &&& kindBits false = DEP_MWAR := by decide
      refine matchesRw_iff.trans ((or_congr (and_congr_left' (filterMask_and_ne_zero_iff hraw))
        (and_congr_left' (filterMask_and_ne_zero_iff hwar))).trans ?_)
      refine (or_congr and_right_comm and_right_comm).trans (or_and_right.symm.trans ?_)
      exact and_congr_left' matchesRw_iff.symm

/-- A pair is on the dynamic graph if it leaves the loop, or is on the static one and is shown. -/
theorem onGraph_dynamicDDG_iff {WAW : Bool} :
    OnGraph instrList (dynamicDDG reads writes instrList staticDDG) WAW p ↔
      p.1 ∉ instrList ∨ p.2 ∉ instrList ∨ OnGraph instrList staticDDG WAW p ∧
        Shows (foundPairs reads writes WAW) p.1 p.2 := by
  by_cases h1 : p.1 ∈ instrList
  · by_cases h2 : p.2 ∈ instrList
    · -- an edge that the pair matches lies in the loop
      have hloop : ∀ dep, Matches WAW dep p → dep.source ∈ instrList ∧ dep.target ∈ instrList := by
        intro dep hdep
        rcases hdep.ends with ⟨hsource, htarget⟩ | ⟨hsource, htarget⟩
        · exact ⟨hsource ▸ h1, htarget ▸ h2⟩
        · exact ⟨hsource ▸ h2, htarget ▸ h1⟩
      have hin : ∀ ddg : List DdgEdge, OnGraph instrList ddg WAW p ↔ ∃ dep ∈ ddg, Matches WAW dep p :=
        fun ddg => (or_iff_right (not_not.2 h1)).trans (or_iff_right (not_not.2 h2))
      rw [or_iff_right (not_not.2 h1), or_iff_right (not_not.2 h2), hin, hin]
      constructor
      · rintro ⟨e, he, hmatch⟩
        rcases (mem_dynamicDDG_inside (hloop e hmatch).1 (hloop e hmatch).2).1 he with
          ⟨s, hs, rfl, -⟩
        rcases matches_leftOf_iff.1 hmatch with ⟨hstatic, hshown⟩
        exact ⟨⟨s, hs, hstatic⟩, hshown⟩
      · rintro ⟨⟨s, hs, hstatic⟩, hshown⟩
        have hmatch : Matches WAW (leftOf reads writes s) p :=
          matches_leftOf_iff.2 ⟨hstatic, hshown⟩
        have hne : (leftOf reads writes s).mask ≠ 0 := by
          intro hzero
          cases WAW with
          | true => exact (matchesWw_iff.1 hmatch).1 (by simp [hzero])
          | false =>
              rcases matchesRw_iff.1 hmatch with ⟨hbit, -⟩ | ⟨hbit, -⟩
              · exact hbit (by simp [hzero])
              · exact hbit (by simp [hzero])
        have hedge := hloop _ hmatch
        exact ⟨_, (mem_dynamicDDG_inside hedge.1 hedge.2).2 ⟨s, hs, rfl, hne⟩, hmatch⟩
    · exact iff_of_true (Or.inr (Or.inl h2)) (Or.inr (Or.inl h2))
  · exact iff_of_true (Or.inl h1) (Or.inl h1)

end Menu

/-! ## The graph lexer between two files -/

/-- With nothing pending, a file is its graph. -/
theorem parse_ddg_of_pending {sdl : StaticDDGLex} (hstate : sdl.state < 3) (hpending : sdl.pending = [])
    (text : List Char) : ∃ sdl', parse_ddg sdl (some text) = .ok (sdl', edgesIn text) := by
  rcases foldlM_readDdgNumber (scanNumbers none text) sdl [] hstate with ⟨sdl', -, hok, -⟩
  rw [hpending, List.nil_append, List.nil_append] at hok
  exact ⟨sdl', hok⟩

/-- Behind the menu, the graph lexer starts with an edge if the graph of the menu was whole. -/
theorem pending_of_chooseMenu {args : AnalysisArgs} {ddgs : DdgFiles}
    {instrList subInstrList : Finset UInt64} {memtraceInstrIDs : List UInt64 × List UInt64}
    {sdl : StaticDDGLex} {menu : InstrPairMenu}
    (hmenu : chooseMenu args ddgs instrList subInstrList memtraceInstrIDs = .ok (sdl, menu))
    (hwhole : ∀ text, args.ddgfile ddgs = some (some text) → leftOver (ddgWords text) = []) :
    sdl.state < 3 ∧ sdl.pending = [] := by
  rw [chooseMenu] at hmenu
  cases hfile : args.ddgfile ddgs with
  | none =>
      simp only [hfile, Except.ok.injEq, Prod.mk.injEq] at hmenu
      rw [← hmenu.1]
      exact ⟨Nat.succ_pos 2, rfl⟩
  | some ddgfile =>
      cases ddgfile with
      | none => simp only [hfile, parse_ddg, reduceCtorEq] at hmenu
      | some text =>
          have hstart : ({} : StaticDDGLex).state < 3 := Nat.succ_pos 2
          rcases foldlM_readDdgNumber (scanNumbers none text) {} [] hstart with
            ⟨sdl', hstate, hok, hleft⟩
          have hparse : parse_ddg {} (some text) = .ok (sdl', edgesIn text) := hok
          simp only [hfile, hparse, Except.ok.injEq, Prod.mk.injEq] at hmenu
          rw [← hmenu.1]
          exact ⟨hstate, hleft.trans (hwhole text hfile)⟩

/-! ## The first run -/

section Statistics

variable {dir : Directory} {loopID : UInt64} {invs : List MemoryInvocation}
  {sorter : StartSort Nat MemSetEntry} {fuel : Nat} {opts : CamOptions} {text : List Char}

variable (opts) in
/-- A run with `-p` and `-s`, for whatever the analysis finds. -/
theorem cam_statistics_eq (hdir : dir.Holds loopID invs)
    (hfuel : (executionCalls loopID (controlFlows invs)).length < fuel)
    (hlen : (executionCalls loopID (controlFlows invs)).length < 2 ^ 64)
    (hfits : LoopTracer.init.Fits (LoopTracer.inTime (executionCalls loopID (controlFlows invs))))
    (hdeppairs : opts.deppairs = true) (hstatistics : opts.statistics = true)
    (hadjacent : opts.adjacent = false) {found : Bool → UInt64 × UInt64 → Prop}
    (hfinds : FindsDependences loopID invs (dir.setup opts.args sorter) found)
    (hcount : ∀ (WAW : Bool) (pairs : Finset (UInt64 × UInt64)), (∀ x ∈ pairs, found WAW x) →
      pairs.card < 2 ^ 64)
    (hgraph : dir.static_inst_dependences = some text)
    (hwhole : ∀ text, opts.args.ddgfile dir.ddgs = some (some text) →
      leftOver (ddgWords text) = []) :
    ∃ callList reads writes stats pairsFile,
      cam opts sorter fuel dir = .ok (stats.out,
        ({ dir with dependence_pairs := some pairsFile } : Directory).writeStatistics stats) ∧
      parse_dependence_pairs (some pairsFile) = .ok (reads, writes) ∧
      (∀ WAW x, x ∈ foundPairs reads writes WAW ↔ found WAW x) ∧
      stats.dynamic_ddg = printDdg (dynamicDDG reads writes (loopInstrs invs) (edgesIn text)) ∧
      CallTraceStreamer.parseForInstructionLists dir.callTrace = .ok (callList, callInstrs invs) ∧
      (stats.out = [] ↔ TracesAgree dir.memtraceInstrIDs (loopInstrs invs) callList
        (callInstrs invs) found (edgesIn text)) := by
  rcases hdir.dependence_analysis hfuel hfinds with ⟨⟨sdl, findings⟩, hanalysis, hfound⟩
  rcases hdir.tracesRead hlen hfits with ⟨groupOf, es, callList, hread, hparse⟩
  -- the pairs are written, and read back
  have hcards : findings.rw_dependence_pairs.card < 2 ^ 64 ∧
      findings.ww_dependence_pairs.card < 2 ^ 64 :=
    ⟨hcount false _ fun x => (hfound false x).1, hcount true _ fun x => (hfound true x).1⟩
  let pairsFile := outputDependencePairs ⟨findings.rw_dependence_pairs, hcards.1⟩
    ⟨findings.ww_dependence_pairs, hcards.2⟩
  let dir' : Directory := { dir with dependence_pairs := some pairsFile }
  have hpairs : parse_dependence_pairs dir'.dependence_pairs
      = .ok (findings.rw_dependence_pairs, findings.ww_dependence_pairs) :=
    parse_dependence_pairs_output _ _
  have hrun : runDeppairs opts sorter fuel dir = .ok (sdl, [], dir') := by
    rw [runDeppairs, if_pos hdeppairs, hanalysis]
    simp only [outputFindings, hadjacent, Bool.false_eq_true, if_false, dif_pos hcards, Except.map]
    rfl
  -- the static graph is read by the lexer that the menu has left behind
  rcases exists_chooseMenu_of_dependence_analysis hanalysis with ⟨_, _, menu, hmenu⟩
  rcases pending_of_chooseMenu hmenu hwhole with ⟨hstate, hpending⟩
  rcases parse_ddg_of_pending hstate hpending text with ⟨sdl', hddg⟩
  rw [← hgraph] at hddg
  rcases produceStatistics_eq_ok hpairs hddg with ⟨stats, hstats, -, -, hdynamic, hout⟩
  have hfound' : (fun WAW p => p ∈ foundPairs findings.rw_dependence_pairs
      findings.ww_dependence_pairs WAW) = found := by
    funext WAW p
    exact propext (hfound WAW p)
  have hsilent : stats.out = [] ↔ TracesAgree dir.memtraceInstrIDs (loopInstrs invs) callList
      (callInstrs invs) found (edgesIn text) := by
    rw [hout, ← hfound']
    exact out_checks_eq_nil_iff
  refine ⟨callList, _, _, stats, pairsFile, ?_, hpairs, hfound, hdynamic, hread.lists, hsilent⟩
  have hopts : (opts.deppairs || opts.statistics) = true := by rw [hdeppairs, Bool.true_or]
  rw [cam_eq hopts hparse hread.lists hrun, if_pos hstatistics, hstats]
  rfl

end Statistics

/-! ## The dependences of an execution -/

/-- There is a dependence across iterations between two instructions, in one order or the other. -/
def Carried (invs : List MemoryInvocation) (memtraceInstrIDs : List UInt64 × List UInt64) (WAW : Bool)
    (a b : UInt64) : Prop :=
  LoopCarried invs memtraceInstrIDs WAW (a, b) ∨ LoopCarried invs memtraceInstrIDs WAW (b, a)

/-- What the analysis needs of an execution to find all its dependences. -/
structure Analysable (loopID : UInt64) (invs : List MemoryInvocation)
    (memtraceInstrIDs : List UInt64 × List UInt64) : Prop where
  calls : (executionCalls loopID (controlFlows invs)).length < 2 ^ 64
  fits : LoopTracer.init.Fits (LoopTracer.inTime (executionCalls loopID (controlFlows invs)))
  ordered : GroupsKeepOrder loopID (controlFlows invs)
  regular : Regular invs memtraceInstrIDs
  oneInstruction : ∀ key, Opened memtraceInstrIDs key →
    OneInstruction (invs.flatMap fun i => i.made key)
  decides : DecidesSharing (Opened memtraceInstrIDs) (streamOf invs) isAlias
  files : memtraceInstrIDs.1.length < 2 ^ 32 ∧ memtraceInstrIDs.2.length < 2 ^ 32

section Execution

variable {dir : Directory} {loopID : UInt64} {invs : List MemoryInvocation}
  {memtraceInstrIDs : List UInt64 × List UInt64} {sorter : StartSort Nat MemSetEntry} {fuel : Nat}
  {text : List Char}

/-- If every stream has one effective instruction, there are no more dependences than pairs of streams. -/
theorem card_le_of_loopCarried
    (hone : ∀ key, Opened memtraceInstrIDs key → OneInstruction (invs.flatMap fun i => i.made key))
    {WAW : Bool} {pairs : Finset (UInt64 × UInt64)}
    (hpairs : ∀ x ∈ pairs, LoopCarried invs memtraceInstrIDs WAW x) :
    pairs.card ≤ memtraceInstrIDs.2.length
      * (if WAW then memtraceInstrIDs.2 else memtraceInstrIDs.1).length := by
  let second := if WAW then memtraceInstrIDs.2 else memtraceInstrIDs.1
  let effective : UInt64 × Stream → UInt64 := fun key =>
    ((invs.flatMap fun i => i.made key).head?.map fun r => r.1.2).getD 0
  have heffective : ∀ key, Opened memtraceInstrIDs key → ∀ inv ∈ invs, ∀ r ∈ inv.made key,
      r.1.2 = effective key := by
    intro key hkey inv hinv r hr
    have hmem : r ∈ invs.flatMap fun i => i.made key := List.mem_flatMap.2 ⟨inv, hinv, hr⟩
    cases hrefs : invs.flatMap fun i => i.made key with
    | nil => exact absurd (hrefs ▸ hmem) List.not_mem_nil
    | cons r' refs =>
        have heq : effective key = r'.1.2 := by simp only [effective, hrefs, List.head?_cons,
          Option.map_some, Option.getD_some]
        rw [heq]
        exact hone key hkey r hmem r' (hrefs ▸ List.mem_cons_self)
  have hsub : pairs ⊆ ((memtraceInstrIDs.2.product second).map fun p =>
      (effective (p.1, .write), effective (p.2, secondStream WAW))).toFinset := by
    intro x hx
    rcases hpairs x hx with ⟨inv, hinv, wi, hwi, ri, hri, w, hw, r, hr, -, -, rfl⟩
    have hsecond : Opened memtraceInstrIDs (ri, secondStream WAW) := by
      cases WAW with
      | true => exact hri
      | false => exact hri
    rw [List.mem_toFinset, heffective (wi, .write) hwi inv hinv w hw,
      heffective _ hsecond inv hinv r hr]
    exact List.mem_map.2 ⟨(wi, ri), List.pair_mem_product.2 ⟨hwi, hri⟩, rfl⟩
  calc pairs.card
      ≤ _ := Finset.card_le_card hsub
    _ ≤ _ := List.toFinset_card_le _
    _ = memtraceInstrIDs.2.length * second.length := by
          rw [List.length_map]
          exact List.length_product _ _

theorem Analysable.card_lt (h : Analysable loopID invs memtraceInstrIDs) (WAW : Bool)
    (pairs : Finset (UInt64 × UInt64))
    (hpairs : ∀ x ∈ pairs, LoopCarried invs memtraceInstrIDs WAW x) : pairs.card < 2 ^ 64 := by
  have hsecond : (if WAW then memtraceInstrIDs.2 else memtraceInstrIDs.1).length < 2 ^ 32 := by
    cases WAW with
    | true => exact h.files.2
    | false => exact h.files.1
  calc pairs.card
      ≤ _ := card_le_of_loopCarried h.oneInstruction hpairs
    _ < 2 ^ 32 * 2 ^ 32 := Nat.mul_lt_mul'' h.files.2 hsecond
    _ = 2 ^ 64 := rfl

variable (sorter) in
/-- The first run in the directory of an execution. -/
theorem Analysable.cam_statistics (h : Analysable loopID invs dir.memtraceInstrIDs)
    (hdir : dir.Holds loopID invs)
    (hfuel : (executionCalls loopID (controlFlows invs)).length < fuel)
    (hgraph : dir.static_inst_dependences = some text) :
    ∃ callList reads writes stats pairsFile,
      cam { deppairs := true, statistics := true } sorter fuel dir = .ok (stats.out,
        ({ dir with dependence_pairs := some pairsFile } : Directory).writeStatistics stats) ∧
      parse_dependence_pairs (some pairsFile) = .ok (reads, writes) ∧
      (∀ WAW x, x ∈ foundPairs reads writes WAW ↔ LoopCarried invs dir.memtraceInstrIDs WAW x) ∧
      stats.dynamic_ddg = printDdg (dynamicDDG reads writes (loopInstrs invs) (edgesIn text)) ∧
      CallTraceStreamer.parseForInstructionLists dir.callTrace = .ok (callList, callInstrs invs) ∧
      (stats.out = [] ↔ TracesAgree dir.memtraceInstrIDs (loopInstrs invs) callList
        (callInstrs invs) (LoopCarried invs dir.memtraceInstrIDs) (edgesIn text)) := by
  have hfinds : FindsDependences loopID invs (dir.setup {} sorter)
      (LoopCarried invs dir.memtraceInstrIDs) :=
    findsDependences_of_reported rfl h.calls h.fits h.ordered h.regular h.decides fun _ _ =>
      (reported_iff_of_oneInstruction h.oneInstruction fun _ => id).trans exists_dependsOn_iff
  let opts : CamOptions := { deppairs := true, statistics := true }
  have hwhole : ∀ text, opts.args.ddgfile dir.ddgs = some (some text) →
      leftOver (ddgWords text) = [] := fun _ hfile => nomatch hfile
  exact cam_statistics_eq opts hdir hfuel h.calls h.fits rfl rfl rfl hfinds h.card_lt hgraph hwhole

theorem shows_iff_carried {reads writes : Finset DependencePair}
    (hfound : ∀ WAW x, x ∈ foundPairs reads writes WAW ↔ LoopCarried invs memtraceInstrIDs WAW x)
    (WAW : Bool) (a b : UInt64) :
    Shows (foundPairs reads writes WAW) a b ↔ Carried invs memtraceInstrIDs WAW a b :=
  or_congr (hfound WAW (a, b)) (hfound WAW (b, a))

/-! ## An execution and its directory -/

/-- Fuel for the loops over the traces of an execution. -/
def fuelFor (loopID : UInt64) (invs : List MemoryInvocation) : Nat :=
  (executionCalls loopID (controlFlows invs)).length + 1

/-- The directory that an execution leaves, every trace in one read. -/
def recordedDirectory (loopID : UInt64) (invs : List MemoryInvocation)
    (memtraceInstrIDs : List UInt64 × List UInt64) (text : List Char) : Directory :=
  let files := ((LoopTracer.record (LoopTracer.inTime
    (executionCalls loopID (controlFlows invs)))).getD none).getD ⟨[], []⟩
  { loopTrace := wholeRead files.loopTrace
    callTrace := wholeRead files.callTrace
    memtraceInstrIDs
    memoryTraces := fun key => wholeRead
      ((MemoryTracer.run (invs.flatMap MemoryInvocation.memoryCalls)).shutdown key.1 key.2)
    static_inst_dependences := some text }

theorem holds_recordedDirectory (hinvs : invs ≠ [])
    (h : Analysable loopID invs memtraceInstrIDs) :
    (recordedDirectory loopID invs memtraceInstrIDs text).Holds loopID invs := by
  rcases LoopTracer.record_execution loopID (controlFlows invs) h.calls h.fits with
    ⟨hnil, -⟩ | ⟨files, hrecord, -, -⟩
  · exact absurd (List.map_eq_nil_iff.1 hnil) hinvs
  · rcases exists_tracesRead_of_record h.calls h.fits hrecord with ⟨⟨hloop, hcall, -⟩, -⟩
    refine ⟨⟨files, hrecord, ?_, ?_⟩, fun key hkey => ?_⟩
    · simp only [recordedDirectory, hrecord, Option.getD_some]
      exact hloop.delivered
    · simp only [recordedDirectory, hrecord, Option.getD_some]
      exact hcall.delivered
    · exact readsStream_wholeRead invs key (Nat.lt_of_le_of_lt
        (length_streamOf_le loopID fun i hi => (h.regular.once key hkey i hi).keepsPace) h.calls)

theorem analysable_readInNext : Analysable 1 readInNext ([7], [3]) where
  calls := by decide
  fits := by decide +kernel
  ordered := keepsOrder_readInNext
  regular := regular_readInNext
  oneInstruction := by
    have hone : ∀ key ∈ openedStreams ([7], [3]),
        OneInstruction (readInNext.flatMap fun i => i.made key) := by
      decide +kernel
    exact fun key hkey => hone key (mem_openedStreams.2 hkey)
  decides := decidesSharing_readInNext
  files := by decide

/-- A graph with one edge that is shown and one that is not. -/
def directoryOfReadInNext : Directory :=
  recordedDirectory 1 readInNext ([7], [3]) "7 3 8\n3 3 32\n".toList

theorem holds_directoryOfReadInNext : directoryOfReadInNext.Holds 1 readInNext :=
  holds_recordedDirectory (List.cons_ne_nil _ _) analysable_readInNext

/-! ## The runs -/

end Execution

end CamAlias
