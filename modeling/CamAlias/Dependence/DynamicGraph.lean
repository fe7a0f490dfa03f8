import CamAlias.Dependence.Statistics

/-!
# DynamicGraph — what the statistics say

* `getLsbD_filterMask`: the bits of a mask that are kept;
* `mem_dynamicDDG`, `mem_localDynamicDDG`: the edges of the two dynamic graphs;
* `produceStatistics_graphs`: the three graphs that are written fit together;
* `produceStatistics_silent_iff`: nothing is written to `cout` exactly if the traces and the graph
  agree.
-/

namespace CamAlias

open Lib

/-! ## Pairs in either order -/

/-- One of the pairs is these two instructions. -/
def Shows (pairs : Finset DependencePair) (a b : UInt64) : Prop :=
  (a, b) ∈ pairs ∨ (b, a) ∈ pairs

instance (pairs : Finset DependencePair) (a b : UInt64) : Decidable (Shows pairs a b) :=
  inferInstanceAs (Decidable (_ ∨ _))

theorem pairMatch_iff {a0 a1 b0 b1 : UInt64} :
    pairMatch a0 a1 b0 b1 = true ↔ (a0, a1) = (b0, b1) ∨ (a0, a1) = (b1, b0) := by
  simp only [pairMatch, Bool.or_eq_true, Bool.and_eq_true, decide_eq_true_eq, Prod.mk.injEq]

theorem any_pairMatch_iff {pairs : Finset DependencePair} {a b : UInt64} :
    (pairs.sort pairLe).any (fun p => pairMatch a b p.1 p.2) = true ↔ Shows pairs a b := by
  simp only [List.any_eq_true, Finset.mem_sort, pairMatch_iff]
  constructor
  · rintro ⟨⟨c, d⟩, hp, h | h⟩
    · cases h
      exact Or.inl hp
    · cases h
      exact Or.inr hp
  · rintro (hp | hp)
    · exact ⟨(a, b), hp, Or.inl rfl⟩
    · exact ⟨(b, a), hp, Or.inr rfl⟩

theorem setContainsPair_iff {pairs : Finset DependencePair} {a b : UInt64} :
    setContainsPair pairs a b = true ↔ Shows pairs a b := by
  have hsymm : ∀ p : DependencePair, pairMatch p.1 p.2 a b = pairMatch a b p.1 p.2 := by
    intro p
    rw [Bool.eq_iff_iff, pairMatch_iff, pairMatch_iff]
    simp only [Prod.mk.injEq]
    refine or_congr (and_congr eq_comm eq_comm) ?_
    exact and_comm.trans (and_congr eq_comm eq_comm)
  simp only [setContainsPair, hsymm, any_pairMatch_iff]

/-! ## Masks -/

/-- The bits of the dependences that a found pair stands for. -/
def kindBits (WAW : Bool) : BitVec 32 :=
  if WAW then DEP_MWAW ||| DEP_WAW else DEP_MRAW ||| DEP_MWAR ||| DEP_RAW ||| DEP_WAR

/-- The found pairs of a kind. -/
def foundPairs (reads writes : Finset DependencePair) (WAW : Bool) : Finset DependencePair :=
  if WAW then writes else reads

/-- Some bits are cleared unless they are confirmed. -/
theorem getLsbD_clear {w : Nat} (mask bits : BitVec w) (confirmed : Bool) (i : Nat) :
    (if mask &&& bits ≠ 0 then if !confirmed then mask &&& ~~~bits else mask else mask).getLsbD i
        = true ↔
      mask.getLsbD i = true ∧ (bits.getLsbD i = true → confirmed = true) := by
  cases confirmed with
  | true => simp
  | false =>
      have hbit : ∀ i, (mask &&& ~~~bits).getLsbD i = true ↔
          mask.getLsbD i = true ∧ ¬ bits.getLsbD i = true := by
        intro i
        by_cases hi : i < w
        · simp [hi]
        · simp [BitVec.getLsbD_of_ge mask i (Nat.le_of_not_lt hi)]
      by_cases hzero : mask &&& bits = 0
      · -- there is nothing to clear
        rw [if_neg (not_not.2 hzero)]
        refine (and_iff_left_of_imp fun hmask hbits => ?_).symm
        have hboth : (mask &&& bits).getLsbD i = true := by
          rw [BitVec.getLsbD_and, hmask, hbits]
          rfl
        rw [hzero] at hboth
        simp at hboth
      · rw [if_pos hzero]
        simpa using hbit i

/-- The bits of the mask that are kept. -/
theorem getLsbD_filterMask (reads writes : Finset DependencePair) (a b : UInt64) (mask : BitVec 32)
    (i : Nat) :
    (filterMask reads writes a b mask).getLsbD i = true ↔ mask.getLsbD i = true ∧
      ∀ WAW, (kindBits WAW).getLsbD i = true → Shows (foundPairs reads writes WAW) a b := by
  have hreads := getLsbD_clear mask (kindBits false) (setContainsPair reads a b) i
  refine (getLsbD_clear _ (kindBits true) _ i).trans ((and_congr_left' hreads).trans ?_)
  rw [setContainsPair_iff, setContainsPair_iff, and_assoc, Bool.forall_bool]
  rfl

theorem and_ne_zero_iff {w : Nat} {x y : BitVec w} :
    x &&& y ≠ 0 ↔ ∃ i, x.getLsbD i = true ∧ y.getLsbD i = true := by
  constructor
  · intro hand
    by_contra hnone
    refine hand (BitVec.eq_of_getLsbD_eq fun i _ => ?_)
    rw [BitVec.getLsbD_and]
    simpa using fun hx => Bool.eq_false_iff.2 fun hy => hnone ⟨i, hx, hy⟩
  · rintro ⟨i, hx, hy⟩ hzero
    have hboth := congrArg (fun z => z.getLsbD i) hzero
    simp [hx, hy] at hboth

/-- Some of these bits, all of one kind, is left exactly if it is in the mask and the kind is shown. -/
theorem filterMask_and_ne_zero_iff {reads writes : Finset DependencePair} {a b : UInt64}
    {mask bits : BitVec 32} {WAW : Bool} (hbits : bits &&& kindBits WAW = bits) :
    filterMask reads writes a b mask &&& bits ≠ 0 ↔
      mask &&& bits ≠ 0 ∧ Shows (foundPairs reads writes WAW) a b := by
  have hkind : ∀ i, bits.getLsbD i = true → (kindBits WAW).getLsbD i = true := by
    intro i hi
    rw [← hbits, BitVec.getLsbD_and, Bool.and_eq_true] at hi
    exact hi.2
  -- no bit belongs to both kinds
  have hother : ∀ i, (kindBits WAW).getLsbD i = true → ¬ (kindBits (!WAW)).getLsbD i = true := by
    intro i hi hi'
    have hdisjoint : kindBits WAW &&& kindBits (!WAW) = 0 := by
      cases WAW
      · decide
      · decide
    exact and_ne_zero_iff.2 ⟨i, hi, hi'⟩ hdisjoint
  rw [and_ne_zero_iff, and_ne_zero_iff]
  constructor
  · rintro ⟨i, hleft, hbit⟩
    rcases (getLsbD_filterMask _ _ _ _ _ _).1 hleft with ⟨hmask, hshown⟩
    exact ⟨⟨i, hmask, hbit⟩, hshown WAW (hkind i hbit)⟩
  · rintro ⟨⟨i, hmask, hbit⟩, hshown⟩
    refine ⟨i, (getLsbD_filterMask _ _ _ _ _ _).2 ⟨hmask, fun WAW' hbit' => ?_⟩, hbit⟩
    rcases Bool.eq_or_eq_not WAW' WAW with rfl | rfl
    · exact hshown
    · exact absurd hbit' (hother i (hkind i hbit))

/-! ## The dynamic graphs -/

/-- The edge `e` is what is left of the edge `s` of the static graph, for the dependences `shown`. -/
structure CutDown (instrList : Finset UInt64) (shown : Bool → UInt64 → UInt64 → Prop)
    (s e : DdgEdge) : Prop where
  source : e.source = s.source
  target : e.target = s.target
  inside : s.source ∈ instrList → s.target ∈ instrList → e.mask ≠ 0 ∧
    ∀ i, e.mask.getLsbD i = true ↔ s.mask.getLsbD i = true ∧
      ∀ WAW, (kindBits WAW).getLsbD i = true → shown WAW s.source s.target
  outside : s.source ∉ instrList ∨ s.target ∉ instrList → e.mask = s.mask

section Graphs

variable {reads writes : Finset DependencePair} {instrList : Finset UInt64}
  {staticDDG : List DdgEdge}

/-- What is left of an edge inside the loop. -/
def leftOf (reads writes : Finset DependencePair) (s : DdgEdge) : DdgEdge :=
  { s with mask := filterMask reads writes s.source s.target s.mask }

/-- The edges of the dynamic graph inside the loop. -/
theorem mem_dynamicDDG_inside {e : DdgEdge} (hsource : e.source ∈ instrList)
    (htarget : e.target ∈ instrList) :
    e ∈ dynamicDDG reads writes instrList staticDDG ↔
      ∃ s ∈ staticDDG, e = leftOf reads writes s ∧ e.mask ≠ 0 := by
  simp only [dynamicDDG, List.mem_filterMap]
  refine exists_congr fun s => and_congr_right fun _ => ?_
  by_cases hloop : s.source ∈ instrList ∧ s.target ∈ instrList
  · rw [if_pos hloop]
    by_cases hmask : filterMask reads writes s.source s.target s.mask ≠ 0
    · rw [if_pos hmask]
      constructor
      · intro h
        cases h
        exact ⟨rfl, hmask⟩
      · exact fun h => congrArg some h.1.symm
    · rw [if_neg hmask]
      refine iff_of_false (fun h => nomatch h) ?_
      rintro ⟨rfl, hne⟩
      exact hmask hne
  · rw [if_neg hloop]
    refine iff_of_false (fun h => ?_) ?_
    · cases h
      exact hloop ⟨hsource, htarget⟩
    · rintro ⟨rfl, -⟩
      exact hloop ⟨hsource, htarget⟩

/-- The edges of the dynamic graph that leave the loop. -/
theorem mem_dynamicDDG_outside {e : DdgEdge} (h : ¬ (e.source ∈ instrList ∧ e.target ∈ instrList)) :
    e ∈ dynamicDDG reads writes instrList staticDDG ↔ e ∈ staticDDG := by
  simp only [dynamicDDG, List.mem_filterMap]
  constructor
  · rintro ⟨s, hs, heq⟩
    by_cases hloop : s.source ∈ instrList ∧ s.target ∈ instrList
    · rw [if_pos hloop] at heq
      split at heq
      · cases heq
        exact absurd hloop h
      · cases heq
    · rw [if_neg hloop] at heq
      cases heq
      exact hs
  · exact fun he => ⟨e, he, if_neg h⟩

/-- The edges of the dynamic graph are what is left of the static one. -/
theorem mem_dynamicDDG {e : DdgEdge} :
    e ∈ dynamicDDG reads writes instrList staticDDG ↔
      ∃ s ∈ staticDDG, CutDown instrList (fun WAW a b => Shows (foundPairs reads writes WAW) a b)
        s e := by
  by_cases hloop : e.source ∈ instrList ∧ e.target ∈ instrList
  · rw [mem_dynamicDDG_inside hloop.1 hloop.2]
    refine exists_congr fun s => and_congr_right fun _ => ?_
    constructor
    · rintro ⟨rfl, hne⟩
      exact ⟨rfl, rfl, fun _ _ => ⟨hne, getLsbD_filterMask _ _ _ _ _⟩,
        fun hout => absurd hloop (not_and_or.2 hout)⟩
    · rintro ⟨hsource, htarget, hinside, -⟩
      rcases hinside (hsource ▸ hloop.1) (htarget ▸ hloop.2) with ⟨hne, hbits⟩
      have hmask : e.mask = filterMask reads writes s.source s.target s.mask := by
        refine BitVec.eq_of_getLsbD_eq fun i _ => ?_
        rw [Bool.eq_iff_iff]
        exact (hbits i).trans (getLsbD_filterMask _ _ _ _ _ _).symm
      refine ⟨?_, hne⟩
      rw [leftOf, ← hmask, ← hsource, ← htarget]
  · rw [mem_dynamicDDG_outside hloop]
    constructor
    · exact fun he => ⟨e, he, rfl, rfl, fun hsource htarget => absurd ⟨hsource, htarget⟩ hloop,
        fun _ => rfl⟩
    · rintro ⟨⟨source, target, mask⟩, hs, hsource, htarget, -, houtside⟩
      have hmask := houtside (not_and_or.1 fun h => hloop (by rwa [hsource, htarget]))
      rcases e with ⟨source', target', mask'⟩
      obtain rfl := hsource
      obtain rfl := htarget
      obtain rfl := hmask
      exact hs

theorem mem_insertIfMatched {bits : BitVec 32} {pairs : Finset DependencePair} {dep e : DdgEdge}
    {found : Finset DdgEdge} :
    e ∈ insertIfMatched bits pairs dep found ↔
      e ∈ found ∨ e = dep ∧ e.mask &&& bits ≠ 0 ∧ Shows pairs e.source e.target := by
  rw [insertIfMatched]
  by_cases hmatched : dep.mask &&& bits ≠ 0 ∧
      (pairs.sort pairLe).any (fun dyn => pairMatch dep.source dep.target dyn.1 dyn.2) = true
  · rw [if_pos hmatched, Finset.mem_insert, or_comm]
    rw [any_pairMatch_iff] at hmatched
    refine or_congr_right (iff_self_and.2 ?_)
    rintro rfl
    exact hmatched
  · rw [if_neg hmatched]
    rw [any_pairMatch_iff] at hmatched
    refine (or_iff_left ?_).symm
    rintro ⟨rfl, h⟩
    exact hmatched h

/-- One of the kinds of the edge is shown. -/
def Matched (reads writes : Finset DependencePair) (e : DdgEdge) : Prop :=
  ∃ WAW, e.mask &&& kindBits WAW ≠ 0 ∧ Shows (foundPairs reads writes WAW) e.source e.target

/-- An edge is in the other dynamic graph if one of its kinds is shown. -/
theorem mem_localDynamicDDG {e : DdgEdge} {edges : List DdgEdge} :
    e ∈ localDynamicDDG reads writes edges ↔ e ∈ edges ∧ Matched reads writes e := by
  have hboth : ∀ (dep : DdgEdge) (found : Finset DdgEdge),
      e ∈ insertIfMatched (kindBits true) writes dep
          (insertIfMatched (kindBits false) reads dep found) ↔
        e ∈ found ∨ e = dep ∧ Matched reads writes e := by
    intro dep found
    rw [mem_insertIfMatched, mem_insertIfMatched, or_assoc, ← and_or_left, Matched, Bool.exists_bool]
    rfl
  -- what is in the set stays there
  have hfold : ∀ (edges : List DdgEdge) (found : Finset DdgEdge),
      e ∈ edges.foldl (fun found dep => insertIfMatched (kindBits true) writes dep
          (insertIfMatched (kindBits false) reads dep found)) found ↔
        e ∈ found ∨ e ∈ edges ∧ Matched reads writes e := by
    intro edges
    induction edges with
    | nil =>
        intro found
        simp
    | cons dep edges ih =>
        intro found
        rw [List.foldl_cons, ih, hboth, or_assoc, ← or_and_right, List.mem_cons]
  exact (hfold edges ∅).trans (or_iff_right (Finset.notMem_empty e))

end Graphs

/-! ## The three files -/

/-- The graph in a file, for a reader that starts with it. -/
def GraphIn (file : List Char) (ddg : List DdgEdge) : Prop :=
  ∃ sdl, parse_ddg {} (some file) = .ok (sdl, ddg)

theorem graphIn_printDdg (ddg : List DdgEdge) : GraphIn (printDdg ddg) ddg := by
  have hstate : ({} : StaticDDGLex).state = 0 := rfl
  rcases parse_ddg_printDdg hstate ddg with ⟨sdl, -, hparse⟩
  exact ⟨sdl, hparse⟩

section Files

variable {reads writes : Finset DependencePair} {instrList callList subInstrList : Finset UInt64}
  {memtraceInstrIDs : List UInt64 × List UInt64} {dependence_pairs : Option (List Char)}
  {sdl sdl' : StaticDDGLex} {static_inst_dependences : Option (List Char)} {staticDDG : List DdgEdge}

/-- What is written once the two files are read. -/
theorem produceStatistics_eq_ok
    (hpairs : parse_dependence_pairs dependence_pairs = .ok (reads, writes))
    (hddg : parse_ddg sdl static_inst_dependences = .ok (sdl', staticDDG)) :
    ∃ stats, produceStatistics instrList callList subInstrList memtraceInstrIDs dependence_pairs sdl
        static_inst_dependences = .ok stats ∧
      stats.static_ddg = printDdg (localStaticDDG instrList staticDDG) ∧
      stats.dynamic_ddg_static_subset
        = printDdg ((localDynamicDDG reads writes (localStaticDDG instrList staticDDG)).sort edgeLe) ∧
      stats.dynamic_ddg = printDdg (dynamicDDG reads writes instrList staticDDG) ∧
      stats.out = (checkDynamicDDGIsSubset writes (localStaticDDG instrList staticDDG)
        (checkDynamicDDGIsSubset reads (localStaticDDG instrList staticDDG)
          (doInstrumentationConsistencyCheck memtraceInstrIDs instrList callList subInstrList
            {})).2).2.out := by
  rw [produceStatistics, hpairs, hddg]
  exact ⟨_, rfl, rfl, rfl, rfl, rfl⟩

theorem mem_localStaticDDG {s : DdgEdge} :
    s ∈ localStaticDDG instrList staticDDG ↔
      s ∈ staticDDG ∧ s.source ∈ instrList ∧ s.target ∈ instrList := by
  rw [localStaticDDG, List.mem_filter, Bool.and_eq_true, decide_eq_true_eq, decide_eq_true_eq]

/-- Every bit of a mask below 64 belongs to a kind. -/
theorem exists_kind_of_getLsbD {mask : BitVec 32} (hmask : mask.toNat < 64) {i : Nat}
    (hbit : mask.getLsbD i = true) : ∃ WAW, (kindBits WAW).getLsbD i = true := by
  have hi : i < 6 := by
    by_contra hge
    have hle : 2 ^ 6 ≤ 2 ^ i := Nat.pow_le_pow_right (Nat.succ_pos 1) (Nat.le_of_not_lt hge)
    have hclear : mask.toNat.testBit i = false := Nat.testBit_lt_two_pow (Nat.lt_of_lt_of_le hmask hle)
    rw [BitVec.getLsbD, hclear] at hbit
    cases hbit
  have hall : ∀ i < 6, ∃ WAW, (kindBits WAW).getLsbD i = true := by decide
  exact hall i hi

/-- The three graphs that are written fit together: an edge of the static one is in the subset exactly
if something of it is left in the dynamic one. -/
theorem produceStatistics_graphs
    (hpairs : parse_dependence_pairs dependence_pairs = .ok (reads, writes))
    (hddg : parse_ddg sdl static_inst_dependences = .ok (sdl', staticDDG)) :
    ∃ stats static subset dynamic,
      produceStatistics instrList callList subInstrList memtraceInstrIDs dependence_pairs sdl
        static_inst_dependences = .ok stats ∧
      GraphIn stats.static_ddg static ∧ GraphIn stats.dynamic_ddg_static_subset subset ∧
      GraphIn stats.dynamic_ddg dynamic ∧
      (∀ s ∈ subset, s ∈ static) ∧
      ∀ s ∈ static, s.mask.toNat < 64 → (s ∈ subset ↔
        ∃ e ∈ dynamic, e.source = s.source ∧ e.target = s.target ∧ e.mask &&& s.mask ≠ 0) := by
  rcases produceStatistics_eq_ok hpairs hddg with ⟨stats, hok, hstatic, hsubset, hdynamic, -⟩
  refine ⟨stats, _, _, _, hok, hstatic ▸ graphIn_printDdg _, hsubset ▸ graphIn_printDdg _,
    hdynamic ▸ graphIn_printDdg _, fun s hs => ?_, fun s hs hmask => ?_⟩
  · rw [Finset.mem_sort, mem_localDynamicDDG] at hs
    exact hs.1
  · rcases mem_localStaticDDG.1 hs with ⟨hmem, hsource, htarget⟩
    rw [Finset.mem_sort, mem_localDynamicDDG, and_iff_right hs]
    constructor
    · -- the kind that is shown is left of this edge
      rintro ⟨WAW, hkind, hshown⟩
      have hleft : (leftOf reads writes s).mask &&& kindBits WAW ≠ 0 :=
        (filterMask_and_ne_zero_iff BitVec.and_self).2 ⟨hkind, hshown⟩
      rcases and_ne_zero_iff.1 hleft with ⟨i, hi, -⟩
      have hbits := fun i => getLsbD_filterMask reads writes s.source s.target s.mask i
      have hne : (leftOf reads writes s).mask ≠ 0 := by
        intro hzero
        rw [hzero] at hi
        simp at hi
      refine ⟨leftOf reads writes s,
        (mem_dynamicDDG_inside (e := leftOf reads writes s) hsource htarget).2 ⟨s, hmem, rfl, hne⟩,
        rfl, rfl, ?_⟩
      exact and_ne_zero_iff.2 ⟨i, hi, ((hbits i).1 hi).1⟩
    · -- a bit that is left, of this edge or of one like it, is shown
      rintro ⟨e, he, hse, hte, hcommon⟩
      rcases (mem_dynamicDDG_inside (hse ▸ hsource) (hte ▸ htarget)).1 he with ⟨s', -, rfl, -⟩
      rcases and_ne_zero_iff.1 hcommon with ⟨i, hei, hsi⟩
      rcases exists_kind_of_getLsbD hmask hsi with ⟨WAW, hkind⟩
      have hshown := ((getLsbD_filterMask _ _ _ _ _ _).1 hei).2 WAW hkind
      rw [show s'.source = s.source from hse, show s'.target = s.target from hte] at hshown
      exact ⟨WAW, and_ne_zero_iff.2 ⟨i, hsi, hkind⟩, hshown⟩

/-- A graph with one kind of dependence shown, one not shown and an edge that leaves the loop. -/
theorem produceStatistics_graphs_two :
    ∃ stats static subset dynamic,
      produceStatistics {3, 7} ∅ ∅ ([7], [3]) (some "1\n3 7\n\n0\n".toList) {}
        (some "7 3 44\n3 3 32\n3 9 8\n".toList) = .ok stats ∧
      GraphIn stats.static_ddg static ∧ GraphIn stats.dynamic_ddg_static_subset subset ∧
      GraphIn stats.dynamic_ddg dynamic ∧
      (∀ s ∈ subset, s ∈ static) ∧
      ∀ s ∈ static, s.mask.toNat < 64 → (s ∈ subset ↔
        ∃ e ∈ dynamic, e.source = s.source ∧ e.target = s.target ∧ e.mask &&& s.mask ≠ 0) :=
  produceStatistics_graphs rfl rfl

/-! ## Remarks -/

/-- The three traces name the same instructions, and every found pair has an edge in the loop. -/
structure TracesAgree (memtraceInstrIDs : List UInt64 × List UInt64)
    (instrList callList subInstrList : Finset UInt64) (found : Bool → DependencePair → Prop)
    (staticDDG : List DdgEdge) : Prop where
  memtrace : ∀ instr ∈ memtraceInstrIDs.1 ++ memtraceInstrIDs.2,
    instr ∈ instrList ∨ instr ∈ subInstrList
  calls : ∀ callid ∈ callList, callid ∈ instrList
  subInstrs : ∀ subInstr ∈ subInstrList, subInstr ∈ memtraceInstrIDs.1 ++ memtraceInstrIDs.2
  edges : ∀ WAW p, found WAW p → ∃ s ∈ staticDDG, s.source ∈ instrList ∧ s.target ∈ instrList ∧
    (p = (s.source, s.target) ∨ p = (s.target, s.source))

theorem out_checkIDs_eq_nil {known : UInt64 → Bool} {additional message : String}
    {ids : List UInt64} {r : Remarks} :
    (checkIDs known additional message ids r).out = [] ↔ r.out = [] ∧ ∀ id ∈ ids, known id = true := by
  simp only [checkIDs, List.append_eq_nil_iff, List.flatMap_eq_nil_iff, List.mem_filter,
    List.cons_ne_nil, and_false, imp_false, not_and, Bool.not_eq_true', Bool.not_eq_false]

/-- The found pairs that no edge of the graph matches. -/
def missingPairs (edges : List DdgEdge) (pairs : List DependencePair) : List DependencePair :=
  pairs.filter fun dep => !edges.any fun d => pairMatch dep.1 dep.2 d.source d.target

/-- The loop counts the pairs without an edge, and prints a line for each. -/
theorem checkDynamicDDG_eq (edges : List DdgEdge) (pairs : List DependencePair) :
    ∀ (extraDeps : Nat) (additional out : List Char),
      checkDynamicDDG edges pairs (extraDeps, additional, out)
        = (extraDeps + (missingPairs edges pairs).length,
            if missingPairs edges pairs = [] then additional
            else extraComment (extraDeps + (missingPairs edges pairs).length),
            out ++ (missingPairs edges pairs).flatMap missingLine) := by
  induction pairs with
  | nil =>
      intro extraDeps additional out
      simp [checkDynamicDDG, missingPairs]
  | cons dep pairs ih =>
      intro extraDeps additional out
      cases hedge : edges.any fun d => pairMatch dep.1 dep.2 d.source d.target with
      | true =>
          have hskip : missingPairs edges (dep :: pairs) = missingPairs edges pairs := by
            simp [missingPairs, hedge]
          rw [checkDynamicDDG, if_pos hedge, hskip, ih]
      | false =>
          have hmissing : missingPairs edges (dep :: pairs) = dep :: missingPairs edges pairs := by
            simp [missingPairs, hedge]
          have hnot : ¬ (edges.any fun d => pairMatch dep.1 dep.2 d.source d.target) = true := by
            rw [hedge]
            exact Bool.false_ne_true
          rw [checkDynamicDDG, if_neg hnot, hmissing, ih, List.length_cons, List.flatMap_cons,
            List.append_assoc, if_neg (List.cons_ne_nil _ _), Nat.add_assoc, Nat.add_comm 1]
          -- the comment is that of the last pair
          by_cases hrest : missingPairs edges pairs = []
          · rw [if_pos hrest, hrest]
            rfl
          · rw [if_neg hrest]

theorem out_checkDynamicDDGIsSubset_eq_nil {pairs : Finset DependencePair} {edges : List DdgEdge}
    {r : Remarks} :
    (checkDynamicDDGIsSubset pairs edges r).2.out = [] ↔ r.out = [] ∧ ∀ p ∈ pairs, ∃ s ∈ edges,
      p = (s.source, s.target) ∨ p = (s.target, s.source) := by
  rw [checkDynamicDDGIsSubset, checkDynamicDDG_eq]
  simp only [List.append_eq_nil_iff, List.nil_append, List.flatMap_eq_nil_iff, missingPairs,
    List.mem_filter, Finset.mem_sort]
  refine and_congr_right fun _ => forall_congr' fun p => ?_
  have hprinted : missingLine p ≠ [] := by
    have hline : printPair p ≠ [] := List.append_ne_nil_of_right_ne_nil _ (List.cons_ne_nil _ _)
    intro hnil
    exact hline (List.append_eq_nil_iff.1 hnil).2
  simp only [hprinted, imp_false, not_and, Bool.not_eq_true', Bool.not_eq_false,
    List.any_eq_true, pairMatch_iff]

/-- All checks together. -/
theorem out_checks_eq_nil_iff {edges : List DdgEdge} :
    (checkDynamicDDGIsSubset writes (localStaticDDG instrList edges)
        (checkDynamicDDGIsSubset reads (localStaticDDG instrList edges)
          (doInstrumentationConsistencyCheck memtraceInstrIDs instrList callList subInstrList
            {})).2).2.out = [] ↔
      TracesAgree memtraceInstrIDs instrList callList subInstrList
        (fun WAW p => p ∈ foundPairs reads writes WAW) edges := by
  rw [out_checkDynamicDDGIsSubset_eq_nil, out_checkDynamicDDGIsSubset_eq_nil,
    doInstrumentationConsistencyCheck, out_checkIDs_eq_nil, out_checkIDs_eq_nil, out_checkIDs_eq_nil]
  simp only [Bool.or_eq_true, decide_eq_true_eq, inSetOrder, Finset.mem_sort, mem_localStaticDDG,
    and_assoc]
  constructor
  · rintro ⟨-, hmemtrace, hcalls, hsub, hreads, hwrites⟩
    exact ⟨hmemtrace, hcalls, hsub, Bool.forall_bool.2 ⟨hreads, hwrites⟩⟩
  · intro h
    exact ⟨trivial, h.memtrace, h.calls, h.subInstrs, h.edges false, h.edges true⟩

/-- Nothing is written to `cout` exactly if the traces and the graph agree. -/
theorem produceStatistics_silent_iff
    (hpairs : parse_dependence_pairs dependence_pairs = .ok (reads, writes))
    (hddg : parse_ddg sdl static_inst_dependences = .ok (sdl', staticDDG)) :
    ∃ stats, produceStatistics instrList callList subInstrList memtraceInstrIDs dependence_pairs sdl
        static_inst_dependences = .ok stats ∧
      (stats.out = [] ↔ TracesAgree memtraceInstrIDs instrList callList subInstrList
        (fun WAW p => p ∈ foundPairs reads writes WAW) staticDDG) := by
  rcases produceStatistics_eq_ok hpairs hddg with ⟨stats, hok, -, -, -, hout⟩
  refine ⟨stats, hok, ?_⟩
  rw [hout]
  exact out_checks_eq_nil_iff

/-- A call that is not seen in the loop. -/
theorem produceStatistics_silent_iff_call :
    ∃ stats, produceStatistics {3, 7} {5} ∅ ([7], [3]) (some "1\n3 7\n\n0\n".toList) {}
        (some "7 3 8\n".toList) = .ok stats ∧
      (stats.out = [] ↔ TracesAgree ([7], [3]) {3, 7} {5} ∅
        (fun WAW p => p ∈ foundPairs {(3, 7)} ∅ WAW) [⟨7, 3, 8⟩]) :=
  produceStatistics_silent_iff rfl rfl

end Files
end CamAlias
