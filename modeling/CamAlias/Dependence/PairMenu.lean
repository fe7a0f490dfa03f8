import Mathlib.Data.Finset.Basic
import Mathlib.Data.List.Nodup
import Mathlib.Data.Sym.Sym2

/-!
# PairMenu — which pairs of instructions are checked for dependences

`buildInstrPairMenu` of `dependence_analysis.cpp` lists every write with every read and every
unordered pair of writes.  `buildInstrPairMenuFromDDG` goes through these lists with the static
dependence graph, and adds a pair of loop instructions once for every edge that matches it.

- `buildInstrPairMenuFromDDG_filters_iff`: when that is each wanted pair once.
-/

namespace CamAlias

/-- `tuple<uintptr_t, uintptr_t, unsigned int>`, an edge of a dependence graph. -/
structure DdgEdge where
  source : UInt64
  target : UInt64
  mask : BitVec 32
  deriving DecidableEq, Repr

def DEP_MRAW : BitVec 32 := 0x8

def DEP_MWAR : BitVec 32 := 0x10

def DEP_MWAW : BitVec 32 := 0x20

/-- The pairs to be checked: a write and a read, and two writes. -/
structure InstrPairMenu where
  rw_menu : List (UInt64 × UInt64)
  ww_menu : List (UInt64 × UInt64)
  deriving DecidableEq, Repr

/-- `instructionPairIsInInstructionTrace`. -/
def instructionPairIsInInstructionTrace (instrList subInstrList : Finset UInt64) (a b : UInt64) :
    Bool :=
  if a ∉ instrList ∧ a ∉ subInstrList then false
  else if b ∉ instrList ∧ b ∉ subInstrList then false
  else true

/-- The write-read pairs that pass a test. -/
def rwPairs (test : UInt64 → UInt64 → Bool) (writes reads : List UInt64) : List (UInt64 × UInt64) :=
  writes.flatMap fun wi => (reads.filter (test wi)).map (Prod.mk wi)

/-- The pairs of a write and itself or a later write that pass a test. -/
def wwPairs (test : UInt64 → UInt64 → Bool) : List UInt64 → List (UInt64 × UInt64)
  | [] => []
  | wi :: rest => ((wi :: rest).filter (test wi)).map (Prod.mk wi) ++ wwPairs test rest

/-- `buildInstrPairMenu`.  `memtraceInstrIDs` are the instructions with a read and with a write
stream. -/
def buildInstrPairMenu (instrList subInstrList : Finset UInt64)
    (memtraceInstrIDs : List UInt64 × List UInt64) : InstrPairMenu where
  rw_menu := rwPairs (instructionPairIsInInstructionTrace instrList subInstrList)
    memtraceInstrIDs.2 memtraceInstrIDs.1
  ww_menu := wwPairs (instructionPairIsInInstructionTrace instrList subInstrList)
    memtraceInstrIDs.2

namespace DdgEdge

/-- The test for a write-read pair. -/
def matchesRw (dep : DdgEdge) (rw_pair : UInt64 × UInt64) : Bool :=
  (dep.mask &&& DEP_MRAW ≠ 0 && dep.source = rw_pair.2 && dep.target = rw_pair.1) ||
    (dep.mask &&& DEP_MWAR ≠ 0 && dep.target = rw_pair.2 && dep.source = rw_pair.1)

/-- The test for a write-write pair. -/
def matchesWw (dep : DdgEdge) (ww_pair : UInt64 × UInt64) : Bool :=
  dep.mask &&& DEP_MWAW ≠ 0 && dep.source = ww_pair.1 && dep.target = ww_pair.2

end DdgEdge

/-- One of the two loops over the exhaustive menu.  The `continue` behind a match continues the
loop over the edges. -/
def filterByDdg (instrList : Finset UInt64) (static_ddg : List DdgEdge)
    (test : DdgEdge → UInt64 × UInt64 → Bool) (menu : List (UInt64 × UInt64)) :
    List (UInt64 × UInt64) :=
  menu.flatMap fun pair =>
    if pair.1 ∈ instrList ∧ pair.2 ∈ instrList then
      static_ddg.flatMap fun dep => if test dep pair then [pair] else []
    else [pair]

/-- `buildInstrPairMenuFromDDG`, on the parsed dependence graph. -/
def buildInstrPairMenuFromDDG (instrList subInstrList : Finset UInt64)
    (memtraceInstrIDs : List UInt64 × List UInt64) (static_ddg : List DdgEdge) : InstrPairMenu :=
  let exhaustiveMenu := buildInstrPairMenu instrList subInstrList memtraceInstrIDs
  { rw_menu := filterByDdg instrList static_ddg DdgEdge.matchesRw exhaustiveMenu.rw_menu
    ww_menu := filterByDdg instrList static_ddg DdgEdge.matchesWw exhaustiveMenu.ww_menu }

/-! ## What the menu should be -/

/-- A write-read pair that must be checked: it leaves the loop or has an edge. -/
def RwWanted (instrList : Finset UInt64) (static_ddg : List DdgEdge) (p : UInt64 × UInt64) : Prop :=
  p.1 ∉ instrList ∨ p.2 ∉ instrList ∨ ∃ dep ∈ static_ddg, dep.matchesRw p = true

/-- A pair of writes that must be checked, an edge counting in either direction. -/
def WwWanted (instrList : Finset UInt64) (static_ddg : List DdgEdge) (u : Sym2 UInt64) : Prop :=
  (∃ x ∈ u, x ∉ instrList) ∨
    ∃ dep ∈ static_ddg, dep.mask &&& DEP_MWAW ≠ 0 ∧ s(dep.source, dep.target) = u

/-- The pairs of a list without their order. -/
def unordered (menu : List (UInt64 × UInt64)) : List (Sym2 UInt64) :=
  menu.map fun p => s(p.1, p.2)

/-- The menu holds each wanted pair of the exhaustive menu once, and no other pair. -/
structure Filters (instrList : Finset UInt64) (static_ddg : List DdgEdge)
    (exhaustive menu : InstrPairMenu) : Prop where
  rw_once : ∀ p ∈ exhaustive.rw_menu, RwWanted instrList static_ddg p → menu.rw_menu.count p = 1
  rw_only : ∀ p ∈ menu.rw_menu, p ∈ exhaustive.rw_menu ∧ RwWanted instrList static_ddg p
  ww_once : ∀ u ∈ unordered exhaustive.ww_menu, WwWanted instrList static_ddg u →
    (unordered menu.ww_menu).count u = 1
  ww_only : ∀ u ∈ unordered menu.ww_menu,
    u ∈ unordered exhaustive.ww_menu ∧ WwWanted instrList static_ddg u

/-- No pair of loop instructions has two matching edges; and where the graph has a dependence
between two writes against the order in which the exhaustive menu lists them, it has one in that
order as well. -/
structure SingleEdges (instrList : Finset UInt64) (static_ddg : List DdgEdge)
    (exhaustive : InstrPairMenu) : Prop where
  rw : ∀ p ∈ exhaustive.rw_menu, p.1 ∈ instrList → p.2 ∈ instrList →
    static_ddg.countP (·.matchesRw p) ≤ 1
  ww : ∀ p ∈ exhaustive.ww_menu, p.1 ∈ instrList → p.2 ∈ instrList →
    static_ddg.countP (·.matchesWw p) ≤ 1
  directed : ∀ p ∈ exhaustive.ww_menu, p.1 ∈ instrList → p.2 ∈ instrList →
    (∃ dep ∈ static_ddg, dep.matchesWw p.swap = true) →
      ∃ dep ∈ static_ddg, dep.matchesWw p = true

/-! ## The exhaustive menu lists each pair once -/

section Exhaustive

variable (test : UInt64 → UInt64 → Bool) {writes reads : List UInt64}

theorem nodup_rwPairs (hw : writes.Nodup) (hr : reads.Nodup) : (rwPairs test writes reads).Nodup := by
  rw [rwPairs, List.nodup_flatMap]
  constructor
  · intro wi _
    exact (hr.filter _).map (Prod.mk_right_injective wi)
  · refine hw.imp ?_
    intro wi wi' hne p hp hp'
    rcases List.mem_map.1 hp with ⟨ri, _, rfl⟩
    rcases List.mem_map.1 hp' with ⟨ri', _, heq⟩
    exact hne (congrArg Prod.fst heq).symm

theorem mem_of_mem_wwPairs {p : UInt64 × UInt64} :
    ∀ {writes : List UInt64}, p ∈ wwPairs test writes → p.1 ∈ writes ∧ p.2 ∈ writes
  | wi :: rest, h => by
      rcases List.mem_append.1 h with h | h
      · rcases List.mem_map.1 h with ⟨wi', hwi', rfl⟩
        exact ⟨List.mem_cons_self, (List.mem_filter.1 hwi').1⟩
      · rcases mem_of_mem_wwPairs h with ⟨h1, h2⟩
        exact ⟨List.mem_cons_of_mem _ h1, List.mem_cons_of_mem _ h2⟩

theorem mem_rwPairs {p : UInt64 × UInt64} :
    p ∈ rwPairs test writes reads ↔ p.1 ∈ writes ∧ p.2 ∈ reads ∧ test p.1 p.2 = true := by
  simp only [rwPairs, List.mem_flatMap, List.mem_map, List.mem_filter]
  constructor
  · rintro ⟨wi, hwi, ri, ⟨hri, htest⟩, rfl⟩
    exact ⟨hwi, hri, htest⟩
  · rintro ⟨hwi, hri, htest⟩
    exact ⟨p.1, hwi, p.2, ⟨hri, htest⟩, rfl⟩

/-- The test leaves the order of the pairs as it is. -/
theorem mem_wwPairs {p : UInt64 × UInt64} :
    p ∈ wwPairs test writes ↔ p ∈ wwPairs (fun _ _ => true) writes ∧ test p.1 p.2 = true := by
  induction writes with
  | nil => simp [wwPairs]
  | cons wi rest ih =>
      have hfirst : p ∈ ((wi :: rest).filter (test wi)).map (Prod.mk wi) ↔
          p ∈ ((wi :: rest).filter fun _ => true).map (Prod.mk wi) ∧ test p.1 p.2 = true := by
        simp only [List.mem_map, List.mem_filter]
        constructor
        · rintro ⟨wi', ⟨hmem, htest⟩, rfl⟩
          exact ⟨⟨wi', ⟨hmem, trivial⟩, rfl⟩, htest⟩
        · rintro ⟨⟨wi', ⟨hmem, -⟩, rfl⟩, htest⟩
          exact ⟨wi', ⟨hmem, htest⟩, rfl⟩
      rw [wwPairs, wwPairs, List.mem_append, List.mem_append, ih, hfirst, or_and_right]

/-- Two writes are a pair in one order or the other. -/
theorem mem_wwPairs_or {a b : UInt64} (ha : a ∈ writes) (hb : b ∈ writes) :
    (a, b) ∈ wwPairs (fun _ _ => true) writes ∨ (b, a) ∈ wwPairs (fun _ _ => true) writes := by
  induction writes with
  | nil => cases ha
  | cons wi rest ih =>
      have hfirst : ∀ c ∈ wi :: rest, (wi, c) ∈ wwPairs (fun _ _ => true) (wi :: rest) := by
        intro c hc
        refine List.mem_append_left _ (List.mem_map.2 ⟨c, ?_, rfl⟩)
        exact List.mem_filter.2 ⟨hc, rfl⟩
      rcases List.mem_cons.1 ha with rfl | ha'
      · exact Or.inl (hfirst b hb)
      · rcases List.mem_cons.1 hb with rfl | hb'
        · exact Or.inr (hfirst a ha)
        · exact (ih ha' hb').imp (List.mem_append_right _) (List.mem_append_right _)

theorem nodup_unordered_wwPairs : ∀ {writes : List UInt64}, writes.Nodup →
    (unordered (wwPairs test writes)).Nodup
  | [], _ => List.nodup_nil
  | wi :: rest, h => by
      rcases List.nodup_cons.1 h with ⟨hwi, hrest⟩
      rw [wwPairs, unordered, List.map_append, List.map_map]
      refine List.nodup_append.2 ⟨?_, nodup_unordered_wwPairs hrest, ?_⟩
      · refine List.Nodup.map ?_ (h.filter _)
        intro x y hxy
        exact Sym2.congr_right.1 hxy
      · intro u hu v hv huv
        rcases List.mem_map.1 hu with ⟨x, _, rfl⟩
        rcases List.mem_map.1 hv with ⟨p, hp, rfl⟩
        rcases mem_of_mem_wwPairs test hp with ⟨h1, h2⟩
        -- the first list has `wi` in every pair, the second one in none
        have hmem : wi ∈ s(p.1, p.2) := huv ▸ Sym2.mem_mk_left wi x
        rcases Sym2.mem_iff.1 hmem with rfl | rfl
        · exact hwi h1
        · exact hwi h2

end Exhaustive

/-! ## How often the filter adds a pair -/

section Copies

variable {instrList : Finset UInt64} {static_ddg : List DdgEdge}
  {test : DdgEdge → UInt64 × UInt64 → Bool} {menu : List (UInt64 × UInt64)}
  {p : UInt64 × UInt64}

/-- How often a pair of the exhaustive menu is added. -/
def copies (instrList : Finset UInt64) (static_ddg : List DdgEdge)
    (test : DdgEdge → UInt64 × UInt64 → Bool) (p : UInt64 × UInt64) : Nat :=
  if p.1 ∈ instrList ∧ p.2 ∈ instrList then static_ddg.countP (test · p) else 1

theorem filterByDdg_eq (instrList : Finset UInt64) (static_ddg : List DdgEdge)
    (test : DdgEdge → UInt64 × UInt64 → Bool) (menu : List (UInt64 × UInt64)) :
    filterByDdg instrList static_ddg test menu
      = menu.flatMap fun p => List.replicate (copies instrList static_ddg test p) p := by
  have hedges : ∀ p, (static_ddg.flatMap fun dep => if test dep p then [p] else [])
      = List.replicate (static_ddg.countP (test · p)) p := by
    intro p
    induction static_ddg with
    | nil => rfl
    | cons dep deps ih =>
        rw [List.flatMap_cons, ih]
        by_cases htest : test dep p = true
        · simp only [List.countP_cons, htest, if_true, List.replicate_succ, List.singleton_append]
        · simp only [List.countP_cons, if_neg htest, Nat.add_zero, List.nil_append]
  rw [filterByDdg]
  refine List.flatMap_congr fun p _ => ?_
  rw [copies, hedges]
  split <;> rfl

theorem mem_filterByDdg :
    p ∈ filterByDdg instrList static_ddg test menu ↔
      p ∈ menu ∧ copies instrList static_ddg test p ≠ 0 := by
  rw [filterByDdg_eq, List.mem_flatMap]
  constructor
  · rintro ⟨q, hq, hp⟩
    rcases List.mem_replicate.1 hp with ⟨hne, rfl⟩
    exact ⟨hq, hne⟩
  · rintro ⟨hp, hne⟩
    exact ⟨p, hp, List.mem_replicate.2 ⟨hne, rfl⟩⟩

/-- A pair whose key is unique in the menu is added `copies` times. -/
theorem count_filterByDdg (instrList : Finset UInt64) (static_ddg : List DdgEdge)
    (test : DdgEdge → UInt64 × UInt64 → Bool) {κ : Type} [BEq κ] [LawfulBEq κ]
    (key : UInt64 × UInt64 → κ) (hnodup : (menu.map key).Nodup) (hp : p ∈ menu) :
    ((filterByDdg instrList static_ddg test menu).map key).count (key p)
      = copies instrList static_ddg test p := by
  rw [filterByDdg_eq]
  induction menu with
  | nil => cases hp
  | cons q menu ih =>
      rw [List.map_cons, List.nodup_cons] at hnodup
      rcases hnodup with ⟨hq, hmenu⟩
      rw [List.flatMap_cons, List.map_append, List.map_replicate, List.count_append,
        List.count_replicate]
      rcases List.mem_cons.1 hp with rfl | hp
      · have hnone : ((menu.flatMap fun q =>
            List.replicate (copies instrList static_ddg test q) q).map key).count (key p) = 0 := by
          refine List.count_eq_zero_of_not_mem fun hmem => ?_
          rcases List.mem_map.1 hmem with ⟨r, hr, hkey⟩
          rw [← filterByDdg_eq] at hr
          exact hq (List.mem_map.2 ⟨r, (mem_filterByDdg.1 hr).1, hkey⟩)
        rw [hnone, beq_self_eq_true, if_pos rfl, Nat.add_zero]
      · have hne : ¬ (key q == key p) = true := by
          intro heq
          exact hq (List.mem_map.2 ⟨p, hp, (beq_iff_eq.1 heq).symm⟩)
        rw [if_neg hne, Nat.zero_add]
        exact ih hmenu hp

theorem copies_ne_zero_iff :
    copies instrList static_ddg test p ≠ 0 ↔
      p.1 ∉ instrList ∨ p.2 ∉ instrList ∨ ∃ dep ∈ static_ddg, test dep p = true := by
  rw [copies]
  by_cases hboth : p.1 ∈ instrList ∧ p.2 ∈ instrList
  · rw [if_pos hboth, ← Nat.pos_iff_ne_zero, List.countP_pos_iff]
    exact ⟨fun h => Or.inr (Or.inr h), fun h =>
      (h.resolve_left (not_not.2 hboth.1)).resolve_left (not_not.2 hboth.2)⟩
  · rw [if_neg hboth]
    refine iff_of_true Nat.one_ne_zero ?_
    by_contra hnot
    rw [not_or, not_or, not_not, not_not] at hnot
    exact hboth ⟨hnot.1, hnot.2.1⟩

theorem copies_eq_one_iff :
    copies instrList static_ddg test p = 1 ↔
      copies instrList static_ddg test p ≠ 0 ∧
        (p.1 ∈ instrList → p.2 ∈ instrList → static_ddg.countP (test · p) ≤ 1) := by
  rw [copies]
  split
  · rename_i hboth
    have h1 := hboth.1
    have h2 := hboth.2
    simp only [h1, h2, true_imp_iff]
    omega
  · rename_i hboth
    exact iff_of_true rfl ⟨Nat.one_ne_zero, fun h1 h2 => absurd ⟨h1, h2⟩ hboth⟩

end Copies

/-- A pair of writes in terms of the edges in both directions. -/
theorem wwWanted_iff {instrList : Finset UInt64} {static_ddg : List DdgEdge}
    {p : UInt64 × UInt64} : WwWanted instrList static_ddg s(p.1, p.2) ↔
      copies instrList static_ddg DdgEdge.matchesWw p ≠ 0 ∨
        ∃ dep ∈ static_ddg, dep.matchesWw p.swap = true := by
  have hmatches : ∀ (dep : DdgEdge) (q : UInt64 × UInt64), dep.matchesWw q = true ↔
      dep.mask &&& DEP_MWAW ≠ 0 ∧ dep.source = q.1 ∧ dep.target = q.2 := by
    intro dep q
    simp [DdgEdge.matchesWw, and_assoc]
  have hedge : ∀ dep : DdgEdge,
      dep.mask &&& DEP_MWAW ≠ 0 ∧ s(dep.source, dep.target) = s(p.1, p.2) ↔
        dep.matchesWw p = true ∨ dep.matchesWw p.swap = true := by
    intro dep
    rw [hmatches, hmatches, Sym2.eq_iff, ← and_or_left]
    rfl
  rw [WwWanted, copies_ne_zero_iff]
  simp only [hedge, Sym2.mem_iff, and_or_left, exists_or]
  constructor
  · rintro (⟨x, rfl | rfl, hx⟩ | h | h)
    · exact Or.inl (Or.inl hx)
    · exact Or.inl (Or.inr (Or.inl hx))
    · exact Or.inl (Or.inr (Or.inr h))
    · exact Or.inr h
  · rintro ((hx | hx | h) | h)
    · exact Or.inl ⟨_, Or.inl rfl, hx⟩
    · exact Or.inl ⟨_, Or.inr rfl, hx⟩
    · exact Or.inr (Or.inl h)
    · exact Or.inr (Or.inr h)

/-- The menu from the dependence graph is each wanted pair of the exhaustive menu once, exactly
if no pair has several edges and no dependence between writes only goes against their order. -/
theorem buildInstrPairMenuFromDDG_filters_iff (instrList subInstrList : Finset UInt64)
    (memtraceInstrIDs : List UInt64 × List UInt64) (static_ddg : List DdgEdge)
    (hreads : memtraceInstrIDs.1.Nodup) (hwrites : memtraceInstrIDs.2.Nodup) :
    Filters instrList static_ddg (buildInstrPairMenu instrList subInstrList memtraceInstrIDs)
        (buildInstrPairMenuFromDDG instrList subInstrList memtraceInstrIDs static_ddg) ↔
      SingleEdges instrList static_ddg
        (buildInstrPairMenu instrList subInstrList memtraceInstrIDs) := by
  have hrw : ∀ p ∈ (buildInstrPairMenu instrList subInstrList memtraceInstrIDs).rw_menu,
      (buildInstrPairMenuFromDDG instrList subInstrList memtraceInstrIDs static_ddg).rw_menu.count p
        = copies instrList static_ddg DdgEdge.matchesRw p := by
    intro p hp
    have hnodup := nodup_rwPairs (instructionPairIsInInstructionTrace instrList subInstrList)
      hwrites hreads
    have hcount := count_filterByDdg instrList static_ddg DdgEdge.matchesRw id
      (by rwa [List.map_id]) hp
    rw [List.map_id] at hcount
    exact hcount
  have hww : ∀ p ∈ (buildInstrPairMenu instrList subInstrList memtraceInstrIDs).ww_menu,
      (unordered (buildInstrPairMenuFromDDG instrList subInstrList memtraceInstrIDs
        static_ddg).ww_menu).count s(p.1, p.2)
        = copies instrList static_ddg DdgEdge.matchesWw p := fun p hp =>
    count_filterByDdg instrList static_ddg DdgEdge.matchesWw (fun p => s(p.1, p.2))
      (nodup_unordered_wwPairs _ hwrites) hp
  constructor
  · intro h
    have hwwOne : ∀ p ∈ (buildInstrPairMenu instrList subInstrList memtraceInstrIDs).ww_menu,
        WwWanted instrList static_ddg s(p.1, p.2) →
          copies instrList static_ddg DdgEdge.matchesWw p = 1 := by
      intro p hp hwanted
      rw [← hww p hp]
      exact h.ww_once _ (List.mem_map_of_mem hp) hwanted
    refine ⟨?_, ?_, ?_⟩
    · intro p hp h1 h2
      by_cases hzero : copies instrList static_ddg DdgEdge.matchesRw p = 0
      · rw [copies, if_pos ⟨h1, h2⟩] at hzero
        omega
      · have hone := h.rw_once p hp (copies_ne_zero_iff.1 hzero)
        rw [hrw p hp] at hone
        exact (copies_eq_one_iff.1 hone).2 h1 h2
    · intro p hp h1 h2
      by_cases hzero : copies instrList static_ddg DdgEdge.matchesWw p = 0
      · rw [copies, if_pos ⟨h1, h2⟩] at hzero
        omega
      · exact (copies_eq_one_iff.1 (hwwOne p hp (wwWanted_iff.2 (Or.inl hzero)))).2 h1 h2
    · intro p hp h1 h2 hreverse
      have hone := hwwOne p hp (wwWanted_iff.2 (Or.inr hreverse))
      have hne := copies_ne_zero_iff.1 (copies_eq_one_iff.1 hone).1
      exact (hne.resolve_left (not_not.2 h1)).resolve_left (not_not.2 h2)
  · intro h
    refine ⟨?_, ?_, ?_, ?_⟩
    · intro p hp hwanted
      rw [hrw p hp]
      exact copies_eq_one_iff.2 ⟨copies_ne_zero_iff.2 hwanted, h.rw p hp⟩
    · intro p hp
      rcases mem_filterByDdg.1 hp with ⟨hmem, hne⟩
      exact ⟨hmem, copies_ne_zero_iff.1 hne⟩
    · intro u hu hwanted
      rcases List.mem_map.1 hu with ⟨p, hp, rfl⟩
      have hne : copies instrList static_ddg DdgEdge.matchesWw p ≠ 0 := by
        rcases wwWanted_iff.1 hwanted with hne | hreverse
        · exact hne
        · rw [copies_ne_zero_iff]
          by_contra hnot
          rw [not_or, not_or, not_not, not_not] at hnot
          exact hnot.2.2 (h.directed p hp hnot.1 hnot.2.1 hreverse)
      rw [hww p hp]
      exact copies_eq_one_iff.2 ⟨hne, h.ww p hp⟩
    · intro u hu
      rcases List.mem_map.1 hu with ⟨p, hp, rfl⟩
      rcases mem_filterByDdg.1 hp with ⟨hmem, hne⟩
      exact ⟨List.mem_map_of_mem hmem, wwWanted_iff.2 (Or.inl hne)⟩

/-- Loop instructions 1 and 2 write, and the only edge is a WAW dependence from 2 to 1: the pair is
listed as 1, 2 and dropped.  A RAW and a WAR edge list the pair of write 1 and read 3 twice. -/
theorem buildInstrPairMenuFromDDG_drops_pair :
    let ddg : List DdgEdge := [⟨2, 1, 0x20⟩, ⟨3, 1, 0x8⟩, ⟨1, 3, 0x10⟩]
    let exhaustive := buildInstrPairMenu {1, 2, 3} ∅ ([3], [1, 2])
    let menu := buildInstrPairMenuFromDDG {1, 2, 3} ∅ ([3], [1, 2]) ddg
    exhaustive = ⟨[(1, 3), (2, 3)], [(1, 1), (1, 2), (2, 2)]⟩ ∧ menu = ⟨[(1, 3), (1, 3)], []⟩ ∧
      ¬ Filters {1, 2, 3} ddg exhaustive menu := by
  intro ddg exhaustive menu
  refine ⟨by decide, by decide, ?_⟩
  intro h
  have hwanted : WwWanted {1, 2, 3} ddg s(1, 2) :=
    Or.inr ⟨⟨2, 1, 0x20⟩, List.mem_cons_self, by decide, Sym2.eq_swap⟩
  have hone := h.ww_once s(1, 2) (List.mem_map.2 ⟨(1, 2), by decide, rfl⟩) hwanted
  exact absurd hone (by decide)

/-- The same writes with the edge from 1 to 2, and one RAW edge. -/
theorem buildInstrPairMenuFromDDG_filters_iff_raw :
    let ddg : List DdgEdge := [⟨1, 2, 0x20⟩, ⟨3, 1, 0x8⟩]
    let exhaustive := buildInstrPairMenu {1, 2, 3} ∅ ([3], [1, 2])
    SingleEdges {1, 2, 3} ddg exhaustive ∧
      (Filters {1, 2, 3} ddg exhaustive
          (buildInstrPairMenuFromDDG {1, 2, 3} ∅ ([3], [1, 2]) ddg) ↔
        SingleEdges {1, 2, 3} ddg exhaustive) := by
  intro ddg exhaustive
  have hrw : exhaustive.rw_menu = [(1, 3), (2, 3)] := by decide
  have hww : exhaustive.ww_menu = [(1, 1), (1, 2), (2, 2)] := by decide
  have hedges : SingleEdges {1, 2, 3} ddg exhaustive := by
    refine ⟨?_, ?_, ?_⟩
    · rw [hrw, List.forall_mem_cons, List.forall_mem_cons]
      exact ⟨fun _ _ => by decide, fun _ _ => by decide, by simp⟩
    · rw [hww, List.forall_mem_cons, List.forall_mem_cons, List.forall_mem_cons]
      exact ⟨fun _ _ => by decide, fun _ _ => by decide, fun _ _ => by decide, by simp⟩
    · rw [hww, List.forall_mem_cons, List.forall_mem_cons, List.forall_mem_cons]
      exact ⟨fun _ _ => by decide, fun _ _ => by decide, fun _ _ => by decide, by simp⟩
  exact ⟨hedges, buildInstrPairMenuFromDDG_filters_iff {1, 2, 3} ∅ ([3], [1, 2]) ddg (by decide)
    (by decide)⟩

end CamAlias
