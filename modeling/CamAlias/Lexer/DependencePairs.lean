import CamAlias.Analyser.CompressionPattern
import CamAlias.Lib.Decimal
import CamAlias.Lib.Scan
import Mathlib.Data.Finset.Sort

/-!
# DependencePairs — the file of dependence pairs

`outputDependencePairs` writes two sets of pairs, each behind its size; `deppairslex` reads the
numbers of the file with a machine of seven states.  Numbers are all it looks at, so the counts alone
tell it where a section ends.

* `foldl_readPairs`: the pairs of one section are read into their set;
* `deppairslex_outputDependencePairs`: the file is read back as it was written.
-/

namespace CamAlias

open Lib

/-! ## Writing -/

/-- `pair<uintptr_t, uintptr_t>`. -/
abbrev DependencePair := UInt64 × UInt64

/-- The order of the pairs in a `set`. -/
def pairLe (a b : DependencePair) : Prop :=
  a.1 < b.1 ∨ (a.1 = b.1 ∧ a.2 ≤ b.2)

instance : DecidableRel pairLe :=
  fun a b => inferInstanceAs (Decidable (a.1 < b.1 ∨ (a.1 = b.1 ∧ a.2 ≤ b.2)))

theorem pairLe_iff {a b : DependencePair} :
    pairLe a b ↔ a.1.toNat < b.1.toNat ∨ (a.1.toNat = b.1.toNat ∧ a.2.toNat ≤ b.2.toNat) := by
  rw [pairLe, UInt64.lt_iff_toNat_lt, UInt64.le_iff_toNat_le, UInt64.toNat_inj]

instance : IsTrans DependencePair pairLe where
  trans a b c hab hbc := by
    rw [pairLe_iff] at hab hbc ⊢
    omega

instance : Std.Antisymm pairLe where
  antisymm a b hab hba := by
    rw [pairLe_iff] at hab hba
    have hfst : a.1.toNat = b.1.toNat := by omega
    have hsnd : a.2.toNat = b.2.toNat := by omega
    exact Prod.ext (UInt64.toNat_inj.1 hfst) (UInt64.toNat_inj.1 hsnd)

instance : Std.Total pairLe where
  total a b := by
    rw [pairLe_iff, pairLe_iff]
    omega

/-- `set<pair<uintptr_t, uintptr_t>>`; its size is a `size_t`. -/
structure DependencePairs where
  pairs : Finset DependencePair
  card_lt : pairs.card < 2 ^ 64

/-- One line of a section. -/
def printPair (p : DependencePair) : List Char :=
  decimal p.1.toNat ++ ' ' :: decimal p.2.toNat ++ ['\n']

/-- A size and the pairs in their order. -/
def printSection (ps : DependencePairs) : List Char :=
  decimal ps.pairs.card ++ '\n' :: (ps.pairs.sort pairLe).flatMap printPair

/-- `outputDependencePairs`, the text of the file. -/
def outputDependencePairs (rw_dependence_pairs ww_dependence_pairs : DependencePairs) : List Char :=
  printSection rw_dependence_pairs ++ '\n' :: printSection ww_dependence_pairs

/-! ## Scanning -/

/-- The `NUMBER`s of a text; the other rules have empty actions.  `acc` is the value of the digits
read so far. -/
def scanNumbers : Option Nat → List Char → List Nat
  | acc, [] => acc.toList
  | acc, c :: cs =>
      if c.isDigit then scanNumbers (some (10 * acc.getD 0 + (c.toNat - '0'.toNat))) cs
      else acc.toList ++ scanNumbers none cs

theorem scanNumbers_digits : ∀ (ds : List Char) (acc : Option Nat) (rest : List Char),
    (∀ d ∈ ds, d.isDigit = true) → ds ≠ [] →
    scanNumbers acc (ds ++ rest) = scanNumbers (some (Nat.ofDigitChars 10 ds (acc.getD 0))) rest := by
  intro ds
  induction ds with
  | nil =>
      intro acc rest _ hne
      exact absurd rfl hne
  | cons d ds ih =>
      intro acc rest hds _
      have hstep : scanNumbers acc (d :: ds ++ rest)
          = scanNumbers (some (10 * acc.getD 0 + (d.toNat - '0'.toNat))) (ds ++ rest) := by
        simp [scanNumbers, hds d List.mem_cons_self]
      rw [hstep]
      cases ds with
      | nil => simp [Nat.ofDigitChars]
      | cons d' ds =>
          rw [ih _ _ (fun x hx => hds x (List.mem_cons_of_mem _ hx)) (List.cons_ne_nil _ _)]
          simp [Nat.ofDigitChars]

/-- A printed number in front of a character that is no digit. -/
theorem scans_decimal {c : Char} (hc : c.isDigit = false) (n : Nat) :
    Scans (scanNumbers none) (decimal n ++ [c]) [n] := by
  intro rest
  rw [List.append_assoc, scanNumbers_digits _ _ _ (fun d hd => isDigit_of_mem_decimal hd)
    (decimal_ne_nil n), List.singleton_append]
  simp [scanNumbers, hc, ofDigitChars_decimal]

theorem scans_newline : Scans (scanNumbers none) ['\n'] [] := by
  intro rest
  simp [scanNumbers]

theorem scans_printPair (p : DependencePair) :
    Scans (scanNumbers none) (printPair p) [p.1.toNat, p.2.toNat] := by
  have hfirst := scans_decimal (c := ' ') (by decide) p.1.toNat
  have hsecond := scans_decimal (c := '\n') (by decide) p.2.toNat
  have hboth := hfirst.append hsecond
  simpa only [printPair, List.append_assoc, List.singleton_append, List.cons_append,
    List.nil_append] using hboth

/-- The numbers of a section. -/
def sectionNumbers (ps : List DependencePair) : List Nat :=
  ps.flatMap fun p => [p.1.toNat, p.2.toNat]

theorem scans_printSection (ps : DependencePairs) :
    Scans (scanNumbers none) (printSection ps)
      (ps.pairs.card :: sectionNumbers (ps.pairs.sort pairLe)) := by
  have hsize := scans_decimal (c := '\n') (by decide) ps.pairs.card
  have hpairs : Scans (scanNumbers none) ((ps.pairs.sort pairLe).flatMap printPair)
      (sectionNumbers (ps.pairs.sort pairLe)) := Scans.flatMap fun p _ => scans_printPair p
  have hboth := hsize.append hpairs
  simpa only [printSection, sectionNumbers, List.append_assoc, List.singleton_append,
    List.cons_append, List.nil_append] using hboth

/-! ## Reading -/

/-- `DependencePairsLex`; a fresh one is in state 0. -/
structure DependencePairsLex where
  state : Nat := 0
  firstEntry : UInt64 := 0
  numEntries : UInt64 := 0
  deriving DecidableEq

/-- `readPair`.  In other states it prints an error. -/
def readPair (dpl : DependencePairsLex) (pairs : Finset DependencePair) (value : Nat) :
    DependencePairsLex × Finset DependencePair :=
  if dpl.state = 1 ∨ dpl.state = 4 then
    ({ dpl with firstEntry := UInt64.ofNat (strtoull value), state := dpl.state + 1 }, pairs)
  else if dpl.state = 2 ∨ dpl.state = 5 then
    let numEntries := dpl.numEntries - 1
    ({ dpl with
        numEntries
        state := if numEntries = 0 then dpl.state + 1 else dpl.state - 1 },
      insert (dpl.firstEntry, UInt64.ofNat (strtoull value)) pairs)
  else (dpl, pairs)

/-- The lexer and the two sets that it fills. -/
structure DependencePairsRead where
  dpl : DependencePairsLex
  rw_pairs : Finset DependencePair
  ww_pairs : Finset DependencePair

/-- The action of `NUMBER`. -/
def readNumber (l : DependencePairsRead) (value : Nat) : Except Fault DependencePairsRead :=
  if l.dpl.state = 0 then
    let numEntries := UInt64.ofNat (strtoull value)
    .ok { l with dpl := { l.dpl with numEntries, state := if 0 < numEntries then 1 else 3 } }
  else if l.dpl.state = 1 ∨ l.dpl.state = 2 then
    let r := readPair l.dpl l.rw_pairs value
    .ok { l with dpl := r.1, rw_pairs := r.2 }
  else if l.dpl.state = 3 then
    let numEntries := UInt64.ofNat (strtoull value)
    .ok { l with dpl := { l.dpl with numEntries, state := if 0 < numEntries then 4 else 6 } }
  else if l.dpl.state = 4 ∨ l.dpl.state = 5 then
    let r := readPair l.dpl l.ww_pairs value
    .ok { l with dpl := r.1, ww_pairs := r.2 }
  else .error .abort

/-- `deppairslex` on a whole text, with the state it starts in. -/
def deppairslex (dpl : DependencePairsLex) (rw_pairs ww_pairs : Finset DependencePair)
    (text : List Char) : Except Fault DependencePairsRead :=
  (scanNumbers none text).foldlM readNumber { dpl, rw_pairs, ww_pairs }

/-! ## A section is read back -/

/-- The two sections, by the state in front of their first pair. -/
inductive Section
  | readWrite
  | writeWrite

namespace Section

def first : Section → Nat
  | readWrite => 1
  | writeWrite => 4

/-- The reader with some more pairs in the set of the section. -/
def add : Section → DependencePairsRead → Finset DependencePair → DependencePairsRead
  | readWrite, l, ps => { l with rw_pairs := l.rw_pairs ∪ ps }
  | writeWrite, l, ps => { l with ww_pairs := l.ww_pairs ∪ ps }

end Section

/-- The two numbers of one pair. -/
theorem foldlM_pair (sec : Section) {l : DependencePairsRead} (p : DependencePair)
    (hstate : l.dpl.state = sec.first) :
    [p.1.toNat, p.2.toNat].foldlM readNumber l = .ok
      { sec.add l {p} with
        dpl :=
          { state := if l.dpl.numEntries - 1 = 0 then sec.first + 2 else sec.first
            firstEntry := p.1
            numEntries := l.dpl.numEntries - 1 } } := by
  have hfst := ofNat_strtoull_toNat p.1
  have hsnd := ofNat_strtoull_toNat p.2
  cases sec with
  | readWrite =>
      have hstate : l.dpl.state = 1 := hstate
      simp [readNumber, readPair, hstate, hfst, hsnd, Section.first, Section.add,
        Finset.union_singleton]
      rfl
  | writeWrite =>
      have hstate : l.dpl.state = 4 := hstate
      simp [readNumber, readPair, hstate, hfst, hsnd, Section.first, Section.add,
        Finset.union_singleton]
      rfl

theorem Section.add_add (sec : Section) (l : DependencePairsRead) (ps qs : Finset DependencePair)
    (dpl dpl' : DependencePairsLex) :
    { sec.add { sec.add l ps with dpl } qs with dpl := dpl' }
      = { sec.add l (ps ∪ qs) with dpl := dpl' } := by
  cases sec with
  | readWrite => simp [Section.add, Finset.union_assoc]
  | writeWrite => simp [Section.add, Finset.union_assoc]

/-- Induction on the pairs: the counter is the number of those that are left. -/
theorem foldlM_section (sec : Section) : ∀ (ps : List DependencePair) (l : DependencePairsRead),
    ps ≠ [] → l.dpl.state = sec.first → l.dpl.numEntries.toNat = ps.length →
    ∃ dpl : DependencePairsLex, dpl.state = sec.first + 2 ∧
      (sectionNumbers ps).foldlM readNumber l = .ok { sec.add l ps.toFinset with dpl } := by
  intro ps
  induction ps with
  | nil =>
      intro l hne _ _
      exact absurd rfl hne
  | cons p ps ih =>
      intro l _ hstate hcount
      have hpos : 1 ≤ l.dpl.numEntries := by
        rw [UInt64.le_iff_toNat_le, hcount]
        exact Nat.succ_le_succ (Nat.zero_le _)
      have hleft : (l.dpl.numEntries - 1).toNat = ps.length := by
        rw [UInt64.toNat_sub_of_le _ _ hpos, hcount]
        rfl
      have hsplit : sectionNumbers (p :: ps) = [p.1.toNat, p.2.toNat] ++ sectionNumbers ps := rfl
      rw [hsplit, List.foldlM_append, foldlM_pair sec p hstate]
      cases ps with
      | nil =>
          have hzero : l.dpl.numEntries - 1 = 0 := UInt64.toNat_inj.1 hleft
          rw [if_pos hzero]
          exact ⟨_, rfl, rfl⟩
      | cons p' ps =>
          have hmore : l.dpl.numEntries - 1 ≠ 0 := by
            intro hzero
            rw [hzero] at hleft
            cases hleft
          rw [if_neg hmore]
          let l' : DependencePairsRead :=
            { sec.add l {p} with
              dpl :=
                { state := sec.first, firstEntry := p.1, numEntries := l.dpl.numEntries - 1 } }
          rcases ih l' (List.cons_ne_nil _ _) rfl hleft with ⟨dpl, hdpl, hrest⟩
          refine ⟨dpl, hdpl, hrest.trans (congrArg Except.ok ?_)⟩
          rw [Section.add_add, List.toFinset_cons (a := p), Finset.insert_eq]

/-- The size of a section and its pairs, from the state in front of the size. -/
theorem foldlM_sized (sec : Section) (ps : DependencePairs) {l : DependencePairsRead}
    (hstate : l.dpl.state + 1 = sec.first) :
    ∃ dpl : DependencePairsLex, dpl.state = sec.first + 2 ∧
      (ps.pairs.card :: sectionNumbers (ps.pairs.sort pairLe)).foldlM readNumber l
        = .ok { sec.add l ps.pairs with dpl } := by
  have hcount : strtoull ps.pairs.card = ps.pairs.card := strtoull_of_lt ps.card_lt
  have htoNat : (UInt64.ofNat ps.pairs.card).toNat = ps.pairs.card :=
    UInt64.toNat_ofNat_of_lt' ps.card_lt
  have hpos : 0 < UInt64.ofNat ps.pairs.card ↔ 0 < ps.pairs.card := by
    rw [UInt64.lt_iff_toNat_lt, htoNat]
    rfl
  have hsize : readNumber l ps.pairs.card = .ok
      { l with
        dpl :=
          { l.dpl with
            numEntries := UInt64.ofNat ps.pairs.card
            state := if 0 < ps.pairs.card then sec.first else sec.first + 2 } } := by
    cases sec with
    | readWrite =>
        have hstate : l.dpl.state = 0 := Nat.succ.inj hstate
        simp only [readNumber, hstate, hcount, hpos, if_true, Section.first]
    | writeWrite =>
        have hstate : l.dpl.state = 3 := Nat.succ.inj hstate
        simp [readNumber, hstate, hcount, hpos, Section.first]
  rw [List.foldlM_cons, hsize]
  rcases Nat.eq_zero_or_pos ps.pairs.card with hzero | hsome
  · -- an empty section: the next number belongs to the section behind it
    have hempty : ps.pairs = ∅ := Finset.card_eq_zero.1 hzero
    have hnone : sectionNumbers (ps.pairs.sort pairLe) = [] := by
      rw [hempty, Finset.sort_empty]
      rfl
    rw [hnone, hzero, hempty]
    refine ⟨{ l.dpl with numEntries := UInt64.ofNat 0, state := sec.first + 2 }, rfl, ?_⟩
    cases sec with
    | readWrite => simp [Section.add]
    | writeWrite => simp [Section.add]
  · rw [if_pos hsome]
    have hlength : (ps.pairs.sort pairLe).length = ps.pairs.card := Finset.length_sort _
    have hne : ps.pairs.sort pairLe ≠ [] := by
      intro hnil
      rw [hnil] at hlength
      exact absurd hsome (by rw [← hlength]; exact Nat.lt_irrefl 0)
    let l' : DependencePairsRead :=
      { l with
        dpl := { l.dpl with numEntries := UInt64.ofNat ps.pairs.card, state := sec.first } }
    rcases foldlM_section sec _ l' hne rfl (htoNat.trans hlength.symm) with ⟨dpl, hdpl, hread⟩
    refine ⟨dpl, hdpl, hread.trans (congrArg Except.ok ?_)⟩
    rw [Finset.sort_toFinset]
    cases sec with
    | readWrite => rfl
    | writeWrite => rfl

/-- The file is read back as it was written. -/
theorem deppairslex_outputDependencePairs (rw_pairs ww_pairs : DependencePairs) :
    ∃ dpl, deppairslex {} ∅ ∅ (outputDependencePairs rw_pairs ww_pairs)
      = .ok { dpl, rw_pairs := rw_pairs.pairs, ww_pairs := ww_pairs.pairs } := by
  have hnumbers : scanNumbers none (outputDependencePairs rw_pairs ww_pairs)
      = (rw_pairs.pairs.card :: sectionNumbers (rw_pairs.pairs.sort pairLe))
        ++ (ww_pairs.pairs.card :: sectionNumbers (ww_pairs.pairs.sort pairLe)) := by
    have hblank := (scans_printSection rw_pairs).append
      (scans_newline.append (scans_printSection ww_pairs))
    exact hblank.eq rfl
  let start : DependencePairsRead := { dpl := {}, rw_pairs := ∅, ww_pairs := ∅ }
  rcases foldlM_sized .readWrite rw_pairs (l := start) rfl with ⟨dpl, hdpl, hrw⟩
  rcases foldlM_sized .writeWrite ww_pairs
    (l := { Section.readWrite.add start rw_pairs.pairs with dpl }) (by rw [hdpl]; rfl)
    with ⟨dpl', -, hww⟩
  refine ⟨dpl', ?_⟩
  rw [deppairslex, hnumbers, List.foldlM_append]
  rw [show List.foldlM readNumber start _ = _ from hrw]
  refine hww.trans (congrArg Except.ok ?_)
  simp [Section.add, start]

end CamAlias
