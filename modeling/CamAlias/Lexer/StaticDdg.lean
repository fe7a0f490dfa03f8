import CamAlias.Dependence.PairMenu
import CamAlias.Lexer.DependencePairs

/-!
# StaticDdg — the files of dependence graphs

`static_inst_dependences.txt`, and the two graphs that `produceStatistics` writes, have three numbers
for each edge.  `staticddglex` looks at numbers alone, and its state is a global variable: it is not
reset between two files.

* `parse_ddg_eq`: every text is read, in threes, behind what the text before it has left over;
* `parse_ddg_printDdg`: a graph that has been written is read back.
-/

namespace CamAlias

open Lib

/-! ## Reading -/

/-- `StaticDDGLex`; a fresh one is in state 0. -/
structure StaticDDGLex where
  state : Nat := 0
  firstInst : UInt64 := 0
  secondInst : UInt64 := 0
  deriving DecidableEq

/-- The action of `NUMBER`. -/
def readDdgNumber (l : StaticDDGLex × List DdgEdge) (value : Nat) :
    Except Fault (StaticDDGLex × List DdgEdge) :=
  if l.1.state = 0 then
    .ok ({ l.1 with firstInst := UInt64.ofNat (strtoull value), state := l.1.state + 1 }, l.2)
  else if l.1.state = 1 then
    .ok ({ l.1 with secondInst := UInt64.ofNat (strtoull value), state := l.1.state + 1 }, l.2)
  else if l.1.state = 2 then
    .ok ({ l.1 with state := 0 },
      l.2 ++ [{ source := l.1.firstInst, target := l.1.secondInst,
                mask := BitVec.ofNat 32 (strtoull value) }])
  else .error .abort

/-- `staticddglex` on a whole text, with the state it starts in. -/
def staticddglex (sdl : StaticDDGLex) (static_ddg : List DdgEdge) (text : List Char) :
    Except Fault (StaticDDGLex × List DdgEdge) :=
  (scanNumbers none text).foldlM readDdgNumber (sdl, static_ddg)

/-- `parse_ddg`, with the state of the lexer in front of the file; without the file it exits.  Its
warning of duplicates goes to `cerr` and changes nothing: it is left out. -/
def parse_ddg (sdl : StaticDDGLex) (ddgfile : Option (List Char)) :
    Except Fault (StaticDDGLex × List DdgEdge) :=
  match ddgfile with
  | none => .error .abort
  | some text => staticddglex sdl [] text

/-! ## Writing -/

/-- One line of `dynamic_ddg.txt` and its kin. -/
def printEdge (e : DdgEdge) : List Char :=
  decimal e.source.toNat ++ ' ' :: decimal e.target.toNat ++ ' ' :: decimal e.mask.toNat ++ ['\n']

def printDdg (ddg : List DdgEdge) : List Char :=
  ddg.flatMap printEdge

/-! ## In threes -/

/-- The words of a text, as `ALPHTONUM` and `strtoul` convert them. -/
def ddgWords (text : List Char) : List UInt64 :=
  (scanNumbers none text).map fun value => UInt64.ofNat (strtoull value)

/-- The edges of a sequence of words; one or two words at its end are no edge. -/
def edgesOf : List UInt64 → List DdgEdge
  | source :: target :: mask :: rest =>
      { source, target, mask := BitVec.ofNat 32 mask.toNat } :: edgesOf rest
  | _ => []

/-- The words behind the last edge. -/
def leftOver : List UInt64 → List UInt64
  | _ :: _ :: _ :: rest => leftOver rest
  | rest => rest

/-- What the lexer has read of an edge. -/
def StaticDDGLex.pending (sdl : StaticDDGLex) : List UInt64 :=
  [sdl.firstInst, sdl.secondInst].take sdl.state

theorem toNat_ofNat_strtoull (value : Nat) :
    (UInt64.ofNat (strtoull value)).toNat = strtoull value := by
  refine UInt64.toNat_ofNat_of_lt' ?_
  have hle : strtoull value ≤ 2 ^ 64 - 1 := Nat.min_le_right _ _
  have hsize : UInt64.size = 2 ^ 64 := rfl
  omega

/-- The numbers of a text, behind what is pending: an edge takes three of them. -/
theorem foldlM_readDdgNumber (numbers : List Nat) :
    ∀ (sdl : StaticDDGLex) (edges : List DdgEdge), sdl.state < 3 →
      let words := sdl.pending ++ numbers.map fun value => UInt64.ofNat (strtoull value)
      ∃ sdl' : StaticDDGLex, sdl'.state < 3 ∧
        numbers.foldlM readDdgNumber (sdl, edges) = .ok (sdl', edges ++ edgesOf words) ∧
        sdl'.pending = leftOver words := by
  induction numbers with
  | nil =>
      intro sdl edges hstate words
      have hcases : sdl.state = 0 ∨ sdl.state = 1 ∨ sdl.state = 2 := by omega
      have hnone : edgesOf words = [] ∧ leftOver words = sdl.pending := by
        rcases hcases with h | h | h
        · simp [words, StaticDDGLex.pending, h, edgesOf, leftOver]
        · simp [words, StaticDDGLex.pending, h, edgesOf, leftOver]
        · simp [words, StaticDDGLex.pending, h, edgesOf, leftOver]
      refine ⟨sdl, hstate, ?_, hnone.2.symm⟩
      rw [hnone.1, List.append_nil]
      rfl
  | cons value numbers ih =>
      intro sdl edges hstate words
      have hcases : sdl.state = 0 ∨ sdl.state = 1 ∨ sdl.state = 2 := by omega
      rcases hcases with h | h | h
      · -- the source of an edge
        let next : StaticDDGLex :=
          { sdl with firstInst := UInt64.ofNat (strtoull value), state := sdl.state + 1 }
        have hread : readDdgNumber (sdl, edges) value = .ok (next, edges) := if_pos h
        have hpending : words
            = next.pending ++ numbers.map fun value => UInt64.ofNat (strtoull value) := by
          simp [words, next, StaticDDGLex.pending, h]
        rcases ih next edges (by simp [next, h]) with ⟨sdl', hstate', hok, hleft⟩
        rw [hpending, List.foldlM_cons, hread]
        exact ⟨sdl', hstate', hok, hleft⟩
      · -- its target
        let next : StaticDDGLex :=
          { sdl with secondInst := UInt64.ofNat (strtoull value), state := sdl.state + 1 }
        have hread : readDdgNumber (sdl, edges) value = .ok (next, edges) := by
          simp [readDdgNumber, next, h]
        have hpending : words
            = next.pending ++ numbers.map fun value => UInt64.ofNat (strtoull value) := by
          simp [words, next, StaticDDGLex.pending, h]
        rcases ih next edges (by simp [next, h]) with ⟨sdl', hstate', hok, hleft⟩
        rw [hpending, List.foldlM_cons, hread]
        exact ⟨sdl', hstate', hok, hleft⟩
      · -- its mask
        let next : StaticDDGLex := { sdl with state := 0 }
        let edge : DdgEdge :=
          { source := sdl.firstInst, target := sdl.secondInst
            mask := BitVec.ofNat 32 (strtoull value) }
        have hread : readDdgNumber (sdl, edges) value = .ok (next, edges ++ [edge]) := by
          simp [readDdgNumber, next, edge, h]
        let rest := next.pending ++ numbers.map fun value => UInt64.ofNat (strtoull value)
        have hwords : words = sdl.firstInst :: sdl.secondInst :: UInt64.ofNat (strtoull value)
            :: rest := by
          simp [words, rest, next, StaticDDGLex.pending, h]
        have hedges : edgesOf words = edge :: edgesOf rest := by
          rw [hwords, edgesOf, toNat_ofNat_strtoull]
        have hleftOver : leftOver words = leftOver rest := by rw [hwords, leftOver]
        rcases ih next (edges ++ [edge]) (by simp [next]) with ⟨sdl', hstate', hok, hleft⟩
        rw [hedges, hleftOver, List.foldlM_cons, hread]
        refine ⟨sdl', hstate', ?_, hleft⟩
        rw [List.append_assoc, List.singleton_append] at hok
        exact hok

/-- `parse_ddg` never aborts on a file.  It reads the words of the file in threes, behind what is
pending, and leaves the rest of them pending. -/
theorem parse_ddg_eq (sdl : StaticDDGLex) (hstate : sdl.state < 3) (text : List Char) :
    ∃ sdl' : StaticDDGLex, sdl'.state < 3 ∧
      parse_ddg sdl (some text) = .ok (sdl', edgesOf (sdl.pending ++ ddgWords text)) ∧
      sdl'.pending = leftOver (sdl.pending ++ ddgWords text) :=
  foldlM_readDdgNumber (scanNumbers none text) sdl [] hstate

/-- A file that ends inside an edge, and the file behind it. -/
theorem parse_ddg_eq_cut :
    ∃ sdl' : StaticDDGLex, sdl'.state < 3 ∧
      parse_ddg { state := 2, firstInst := 1, secondInst := 2 } (some "8\n3 4".toList)
        = .ok (sdl', edgesOf ([1, 2] ++ ddgWords "8\n3 4".toList)) ∧
      sdl'.pending = leftOver ([1, 2] ++ ddgWords "8\n3 4".toList) :=
  parse_ddg_eq { state := 2, firstInst := 1, secondInst := 2 } (by decide) _

/-! ## The round trip -/

theorem scans_printEdge (e : DdgEdge) :
    Scans (scanNumbers none) (printEdge e) [e.source.toNat, e.target.toNat, e.mask.toNat] := by
  have hfirst := scans_decimal (c := ' ') (by decide) e.source.toNat
  have hsecond := scans_decimal (c := ' ') (by decide) e.target.toNat
  have hmask := scans_decimal (c := '\n') (by decide) e.mask.toNat
  have hall := hfirst.append (hsecond.append hmask)
  simpa only [printEdge, List.append_assoc, List.singleton_append, List.cons_append,
    List.nil_append] using hall

theorem ddgWords_printDdg (ddg : List DdgEdge) :
    ddgWords (printDdg ddg)
      = ddg.flatMap fun e => [e.source, e.target, UInt64.ofNat e.mask.toNat] := by
  have hscan : Scans (scanNumbers none) (printDdg ddg)
      (ddg.flatMap fun e => [e.source.toNat, e.target.toNat, e.mask.toNat]) :=
    Scans.flatMap fun e _ => scans_printEdge e
  rw [ddgWords, hscan.eq rfl, List.map_flatMap]
  refine List.flatMap_congr fun e _ => ?_
  have hmask : strtoull e.mask.toNat = e.mask.toNat := by
    refine strtoull_of_lt (Nat.lt_trans e.mask.isLt ?_)
    decide
  simp only [List.map_cons, List.map_nil, ofNat_strtoull_toNat, hmask]

theorem edgesOf_flatMap (ddg : List DdgEdge) :
    edgesOf (ddg.flatMap fun e => [e.source, e.target, UInt64.ofNat e.mask.toNat]) = ddg ∧
      leftOver (ddg.flatMap fun e => [e.source, e.target, UInt64.ofNat e.mask.toNat]) = [] := by
  induction ddg with
  | nil => exact ⟨rfl, rfl⟩
  | cons e ddg ih =>
      have hmask : BitVec.ofNat 32 (UInt64.ofNat e.mask.toNat).toNat = e.mask := by
        have hlt : e.mask.toNat < UInt64.size := Nat.lt_trans e.mask.isLt (by decide)
        rw [UInt64.toNat_ofNat_of_lt' hlt, BitVec.ofNat_toNat, BitVec.setWidth_eq]
      rw [List.flatMap_cons]
      simp only [List.cons_append, List.nil_append, edgesOf, leftOver, hmask, ih, and_self]

/-- A graph that has been written is read back, and the next file starts with an edge again. -/
theorem parse_ddg_printDdg {sdl : StaticDDGLex} (hstate : sdl.state = 0) (ddg : List DdgEdge) :
    ∃ sdl' : StaticDDGLex, sdl'.state = 0 ∧
      parse_ddg sdl (some (printDdg ddg)) = .ok (sdl', ddg) := by
  have hpending : sdl.pending = [] := by rw [StaticDDGLex.pending, hstate, List.take_zero]
  rcases foldlM_readDdgNumber (scanNumbers none (printDdg ddg)) sdl [] (by omega) with
    ⟨sdl', hlt, hok, hleft⟩
  have hwords : sdl.pending ++ (scanNumbers none (printDdg ddg)).map
      (fun value => UInt64.ofNat (strtoull value))
        = ddg.flatMap fun e => [e.source, e.target, UInt64.ofNat e.mask.toNat] := by
    rw [hpending, List.nil_append]
    exact ddgWords_printDdg ddg
  rw [hwords, (edgesOf_flatMap ddg).1, List.nil_append] at hok
  rw [hwords, (edgesOf_flatMap ddg).2] at hleft
  refine ⟨sdl', ?_, hok⟩
  have hlength := congrArg List.length hleft
  rw [StaticDDGLex.pending, List.length_take] at hlength
  simp only [List.length_cons, List.length_nil] at hlength
  omega

end CamAlias
