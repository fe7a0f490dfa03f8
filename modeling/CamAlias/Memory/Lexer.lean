import CamAlias.Lib.Decimal
import CamAlias.Lib.Scan
import CamAlias.Memory.MemSetEntry

/-!
# Lexer — the reader of memory trace files

`memory_trace_parser.lex` keeps only the numbers of a file, `-?[0-9]+`, and drops every other
character.  A five-state machine turns the numbers into entries: the instruction, the size of the
read set, its entries, the size of the write set, its entries.  Bases are differences from the
last base, which is reset with each instruction number.

- `scanSigned_number`: a printed integer is scanned back;
- `feed_entries`: reading the numbers of a set appends its entries.
-/

namespace CamAlias

/-! ## Scanning -/

/-- Where the scanner is: between numbers, after a `-`, or inside a number. -/
inductive SignedScan
  | start
  | dash
  | digits (negative : Bool) (value : Nat)

namespace SignedScan

/-- The number that ends where a digit run ends. -/
def numbers : SignedScan → List Int
  | digits negative value => [if negative then -(value : Int) else value]
  | _ => []

/-- A digit joins the run, or begins one; a `-` in front of it makes it negative. -/
def digit (d : Nat) : SignedScan → SignedScan
  | start => digits false d
  | dash => digits true d
  | digits negative value => digits negative (10 * value + d)

end SignedScan

/-- The numbers of a text; the other rules of the lexer have empty actions. -/
def scanSigned : SignedScan → List Char → List Int
  | s, [] => s.numbers
  | s, c :: cs =>
      if c.isDigit then
        scanSigned (s.digit (c.toNat - '0'.toNat)) cs
      else
        s.numbers ++ scanSigned (if c = '-' then .dash else .start) cs

/-- A piece of a memory trace file and its numbers. -/
abbrev ScansSigned : List Char → List Int → Prop :=
  Lib.Scans (scanSigned .start)

theorem scanSigned_digits (negative : Bool) (ds : List Char) (hds : ∀ d ∈ ds, d.isDigit = true)
    (value : Nat) (rest : List Char) :
    scanSigned (.digits negative value) (ds ++ rest)
      = scanSigned (.digits negative (Nat.ofDigitChars 10 ds value)) rest := by
  induction ds generalizing value with
  | nil => simp
  | cons d ds ih =>
      have hd : d.isDigit = true := hds d (by simp)
      have htail := ih (fun x hx => hds x (List.mem_cons_of_mem _ hx))
        (10 * value + (d.toNat - '0'.toNat))
      simpa [scanSigned, hd, SignedScan.digit, Nat.ofDigitChars] using htail

/-- A digit run read from its first digit on. -/
theorem scanSigned_decimal (s : SignedScan) (negative : Bool)
    (hs : ∀ d, s.digit d = .digits negative d) (n : Nat) (rest : List Char) :
    scanSigned s (Lib.decimal n ++ rest) = scanSigned (.digits negative n) rest := by
  have hdigits : ∀ d ∈ Lib.decimal n, d.isDigit = true := fun d hd =>
    Lib.isDigit_of_mem_decimal hd
  have hvalue := Lib.ofDigitChars_decimal n
  cases h : Lib.decimal n with
  | nil => exact absurd h (Lib.decimal_ne_nil n)
  | cons d ds =>
      rw [h] at hdigits hvalue
      have hd : d.isDigit = true := hdigits d (by simp)
      have htail := scanSigned_digits negative ds
        (fun x hx => hdigits x (List.mem_cons_of_mem _ hx)) (d.toNat - '0'.toNat) rest
      have hrest : Nat.ofDigitChars 10 ds (d.toNat - '0'.toNat) = n := by
        simpa [Nat.ofDigitChars] using hvalue
      rw [hrest] at htail
      simpa [scanSigned, hd, hs] using htail

/-- A printed integer is scanned back, provided the next character can not continue it. -/
theorem scanSigned_number {c : Char} (hc : c.isDigit = false) (hdash : c ≠ '-') (z : Int) :
    ScansSigned (Lib.signedDecimal z ++ [c]) [z] := by
  intro rest
  have hstop : ∀ negative n, scanSigned (.digits negative n) (c :: rest)
      = (if negative then -(n : Int) else n) :: scanSigned .start rest := by
    intro negative n
    simp [scanSigned, hc, hdash, SignedScan.numbers]
  by_cases hz : z < 0
  · -- the `-` is dropped by the scanner unless a digit follows it
    have hdashed : scanSigned .start ('-' :: (Lib.decimal z.natAbs ++ c :: rest))
        = scanSigned .dash (Lib.decimal z.natAbs ++ c :: rest) := by
      simp [scanSigned, SignedScan.numbers, Char.isDigit]
    have habs : -(z.natAbs : Int) = z := by omega
    have hdigits := scanSigned_decimal .dash true (fun _ => rfl) z.natAbs (c :: rest)
    simp only [Lib.signedDecimal, if_pos hz, List.cons_append, List.append_assoc, List.nil_append,
      hdashed, hdigits, hstop, if_true, habs]
  · have habs : (z.natAbs : Int) = z := by omega
    have hdigits := scanSigned_decimal .start false (fun _ => rfl) z.natAbs (c :: rest)
    simp only [Lib.signedDecimal, if_neg hz, List.cons_append, List.append_assoc, List.nil_append,
      hdigits, hstop, Bool.false_eq_true, if_false, habs]

/-- The same for an unsigned integer. -/
theorem scanSigned_decimal_number {c : Char} (hc : c.isDigit = false) (hdash : c ≠ '-')
    (n : Nat) : ScansSigned (Lib.decimal n ++ [c]) [(n : Int)] := by
  have hpos : ¬ ((n : Int) < 0) := by omega
  simpa [Lib.signedDecimal, hpos] using scanSigned_number hc hdash (n : Int)

/-! ## The state machine -/

structure MemoryTraceLex where
  state : Nat := 0
  remaining_groups : BitVec 64 := 0
  group_state : Nat := 0
  memset : List MemSetEntry := []
  currBase : BitVec 64 := 0
  currStride : BitVec 64 := 0
  currLength : BitVec 64 := 0
  currNumReps : BitVec 64 := 0
  lastAccess : BitVec 64 := 0
  numInstancesRequired : BitVec 64 := 0
  startInstance : BitVec 64 := 0
  nextExpectedInstance : BitVec 64 := 0

namespace MemoryTraceLex

/-- The entries that `addNumRepsToSet` pushes: two for a trivial pattern. -/
def newEntries (base stride length start numReps : BitVec 64) : List MemSetEntry :=
  let e : MemSetEntry := { base, stride, length, start, «end» := start + numReps - 1 }
  if e.isTrivialPattern then [e.splitTrivial.1, e.splitTrivial.2] else [e]

def addNumRepsToSet (mtl : MemoryTraceLex) : MemoryTraceLex :=
  { mtl with
    memset := mtl.memset ++ newEntries mtl.currBase mtl.currStride mtl.currLength
      mtl.nextExpectedInstance mtl.currNumReps
    nextExpectedInstance := mtl.nextExpectedInstance + mtl.currNumReps }

def getAbsoluteBase (mtl : MemoryTraceLex) (text : Int) : MemoryTraceLex :=
  let baseDiff := Lib.strtoll text
  let currBase :=
    if baseDiff < 0 then mtl.lastAccess - BitVec.ofNat 64 baseDiff.natAbs
    else mtl.lastAccess + BitVec.ofInt 64 baseDiff
  { mtl with currBase, lastAccess := currBase }

/-- The last number of an entry is its number of instances. -/
def endOfEntry (mtl : MemoryTraceLex) : MemoryTraceLex :=
  let remaining_groups := mtl.remaining_groups - 1
  { mtl with
    group_state := 0
    remaining_groups
    state := if remaining_groups = 0 then (mtl.state + 1) % 5 else mtl.state }

def readMemSetEntry (mtl : MemoryTraceLex) (text : Int) : MemoryTraceLex :=
  if mtl.group_state = 0 then
    { mtl.getAbsoluteBase text with group_state := 1 }
  else if mtl.group_state = 1 then
    { mtl with currStride := BitVec.ofInt 64 (Lib.strtoll text), group_state := 2 }
  else if mtl.group_state = 2 then
    { mtl with currLength := Lib.strtoullSigned text, group_state := 3 }
  else if mtl.group_state = 3 then
    ({ mtl with currNumReps := Lib.strtoullSigned text } : MemoryTraceLex).addNumRepsToSet.endOfEntry
  else mtl

/-- Enough instances are buffered: the lexer returns to its caller. -/
def enough (mtl : MemoryTraceLex) : Bool :=
  match mtl.memset.getLast? with
  | none => false
  | some back => mtl.numInstancesRequired ≤ back.end - mtl.startInstance + 1

/-- The rule for `NUMBER`, and whether it returns 1. -/
def number (mtl : MemoryTraceLex) (text : Int) : MemoryTraceLex × Bool :=
  if mtl.state = 0 then
    ({ mtl with lastAccess := 0, state := 1 }, false)
  else if mtl.state = 1 then
    if 0 < Lib.strtoullSigned text then
      ({ mtl with remaining_groups := Lib.strtoullSigned text, group_state := 0, state := 2 }, false)
    else
      ({ mtl with remaining_groups := 0, state := 3 }, false)
  else if mtl.state = 2 then
    let mtl' := mtl.readMemSetEntry text
    (mtl', mtl'.enough)
  else if mtl.state = 3 then
    if 0 < Lib.strtoullSigned text then
      ({ mtl with remaining_groups := Lib.strtoullSigned text, group_state := 0, state := 4 }, false)
    else
      ({ mtl with remaining_groups := 0, state := 0 }, false)
  else if mtl.state = 4 then
    let mtl' := mtl.readMemSetEntry text
    (mtl', mtl'.enough)
  else
    (mtl, false)

/-- One call of `memorytracelex`: the numbers not yet read, and whether it returned 1. -/
def memorytracelex (mtl : MemoryTraceLex) : List Int → MemoryTraceLex × List Int × Bool
  | [] => (mtl, [], false)
  | t :: ts =>
      match mtl.number t with
      | (mtl', true) => (mtl', ts, true)
      | (mtl', false) => memorytracelex mtl' ts

/-- Call the lexer until it reaches the end of the file. -/
def parseAll : Nat → MemoryTraceLex → List Int → MemoryTraceLex
  | 0, mtl, _ => mtl
  | calls + 1, mtl, ts =>
      match mtl.memorytracelex ts with
      | (mtl', rest, true) => parseAll calls mtl' rest
      | (mtl', _, false) => mtl'

/-- Every number in turn, whatever the lexer returns in between. -/
def feed (mtl : MemoryTraceLex) (ts : List Int) : MemoryTraceLex :=
  ts.foldl (fun m t => (m.number t).1) mtl

@[simp] theorem feed_nil (mtl : MemoryTraceLex) : mtl.feed [] = mtl := rfl

@[simp] theorem feed_cons (mtl : MemoryTraceLex) (t : Int) (ts : List Int) :
    mtl.feed (t :: ts) = (mtl.number t).1.feed ts := rfl

theorem feed_append (mtl : MemoryTraceLex) (ts us : List Int) :
    mtl.feed (ts ++ us) = (mtl.feed ts).feed us := by
  simp [feed]

/-- One call reads the first of the numbers and leaves the rest; if it did not return 1 it read
all. -/
theorem memorytracelex_prefix (ts : List Int) (mtl : MemoryTraceLex) :
    ∃ used, ts = used ++ (mtl.memorytracelex ts).2.1 ∧
      (mtl.memorytracelex ts).1 = mtl.feed used ∧
      ((mtl.memorytracelex ts).2.2 = false → (mtl.memorytracelex ts).2.1 = []) ∧
      ((mtl.memorytracelex ts).2.2 = true → used ≠ []) := by
  induction ts generalizing mtl with
  | nil => exact ⟨[], by simp [memorytracelex]⟩
  | cons t ts ih =>
      cases h : mtl.number t with
      | mk mtl' stop =>
          cases stop with
          | true => exact ⟨[t], by simp [memorytracelex, h]⟩
          | false =>
              rcases ih mtl' with ⟨used, hsplit, hfeed, hend, -⟩
              simp only [memorytracelex, h]
              refine ⟨t :: used, ?_, ?_, hend, by simp⟩
              · rw [List.cons_append, ← hsplit]
              · rw [hfeed, feed_cons, h]

/-- The call and what it left read the same as all numbers. -/
theorem feed_memorytracelex (ts : List Int) (mtl : MemoryTraceLex) :
    let r := mtl.memorytracelex ts
    r.1.feed r.2.1 = mtl.feed ts ∧
      (r.2.2 = false → r.2.1 = []) ∧ (r.2.2 = true → r.2.1.length < ts.length) := by
  intro r
  rcases memorytracelex_prefix ts mtl with ⟨used, hsplit, hfeed, hend, hused⟩
  have hlen := congrArg List.length hsplit
  rw [List.length_append] at hlen
  refine ⟨?_, hend, ?_⟩
  · have hall := feed_append mtl used (mtl.memorytracelex ts).2.1
    rw [← hsplit, ← hfeed] at hall
    exact hall.symm
  · intro hstop
    have hpos := List.length_pos_iff.2 (hused hstop)
    simp only [r]
    omega

/-- Returning early and being called again changes nothing. -/
theorem parseAll_eq_feed (calls : Nat) (mtl : MemoryTraceLex) (ts : List Int)
    (h : ts.length < calls) : parseAll calls mtl ts = mtl.feed ts := by
  induction calls generalizing mtl ts with
  | zero => exact absurd h (Nat.not_lt_zero _)
  | succ calls ih =>
      rcases feed_memorytracelex ts mtl with ⟨hfeed, hend, hlt⟩
      cases hr : mtl.memorytracelex ts with
      | mk mtl' r =>
          rcases r with ⟨rest, stop⟩
          rw [hr] at hfeed hend hlt
          cases stop with
          | true =>
              have hrest : rest.length < calls := by
                have := hlt rfl
                simp only at this
                omega
              simpa [parseAll, hr, ih mtl' rest hrest] using hfeed
          | false =>
              have hrest : rest = [] := hend rfl
              subst hrest
              simpa [parseAll, hr] using hfeed

/-! ## Reading the entries of a set -/

/-- One entry, or two of one instance each. -/
theorem newEntries_cases (base stride length start numReps : BitVec 64) :
    newEntries base stride length start numReps
        = [⟨base, stride, length, start, start + numReps - 1, 0, 0⟩] ∨
      (numReps = 2 ∧ newEntries base stride length start numReps
        = [⟨base, stride, length, start, start, 0, 0⟩,
            ⟨base + stride, stride, length, start + 1, start + 1, 0, 0⟩]) := by
  let e : MemSetEntry := ⟨base, stride, length, start, start + numReps - 1, 0, 0⟩
  by_cases htrivial : e.isTrivialPattern = true
  · right
    have hcount : e.getNumInstances = 2 := by
      simp only [MemSetEntry.isTrivialPattern, Bool.and_eq_true, decide_eq_true_eq] at htrivial
      exact htrivial.1
    have htwo : numReps = 2 := by
      simp only [MemSetEntry.getNumInstances, e] at hcount
      bv_omega
    have hend : start + numReps - 1 = start + 1 := by
      rw [htwo]
      bv_omega
    refine ⟨htwo, ?_⟩
    simp only [newEntries]
    rw [if_pos htrivial]
    simp only [MemSetEntry.splitTrivial, hend]
  · left
    simp only [newEntries]
    rw [if_neg htrivial]

/-- Splitting a trivial pattern keeps its length and its stride. -/
theorem shape_newEntries {base stride length start numReps : BitVec 64} {e : MemSetEntry}
    (he : e ∈ newEntries base stride length start numReps) : e.length = length ∧ e.stride = stride := by
  rcases newEntries_cases base stride length start numReps with hone | ⟨-, hsplit⟩
  · rw [hone] at he
    rcases List.mem_singleton.1 he with rfl
    exact ⟨rfl, rfl⟩
  · rw [hsplit] at he
    rcases List.mem_cons.1 he with rfl | he
    · exact ⟨rfl, rfl⟩
    · rcases List.mem_singleton.1 he with rfl
      exact ⟨rfl, rfl⟩

/-- Splitting a trivial pattern keeps its references. -/
theorem accesses_newEntries (base stride length start : BitVec 64) {n : Nat} (h : 0 < n)
    (hle : n ≤ 2 ^ 64) :
    (newEntries base stride length start (BitVec.ofNat 64 n)).flatMap MemSetEntry.accesses
      = references base stride length n := by
  rcases newEntries_cases base stride length start (BitVec.ofNat 64 n) with hone | ⟨htwo, hsplit⟩
  · have hcount : (start + BitVec.ofNat 64 n - 1 - start).toNat + 1 = n := by bv_omega
    simp only [hone, List.flatMap_cons, List.flatMap_nil, List.append_nil,
      MemSetEntry.accesses_eq_references, MemSetEntry.instances, hcount]
  · have hcount : n = 2 := by bv_omega
    rw [hsplit, hcount]
    simp [MemSetEntry.accesses_eq_references, MemSetEntry.instances, references,
      Lib.progression_two]

theorem consecutive_newEntries (base stride length : BitVec 64) {next n : Nat} (h : 0 < n)
    (hle : next + n ≤ 2 ^ 64) :
    Consecutive next
      (newEntries base stride length (BitVec.ofNat 64 next) (BitVec.ofNat 64 n)) (next + n) := by
  rcases newEntries_cases base stride length (BitVec.ofNat 64 next) (BitVec.ofNat 64 n) with
    hone | ⟨htwo, hsplit⟩
  · rw [hone]
    refine ⟨?_, ?_, ?_⟩
    · bv_omega
    · bv_omega
    · simp only [Consecutive]
      bv_omega
  · rw [hsplit]
    have hcount : n = 2 := by bv_omega
    subst hcount
    refine ⟨?_, Nat.le_refl _, ?_, Nat.le_refl _, ?_⟩
    · bv_omega
    · bv_omega
    · simp only [Consecutive]
      bv_omega

/-- What the lexer knows in front of an entry of the read set (state 2) or of the write set
(state 4), and in front of anything else. -/
structure At (mtl : MemoryTraceLex) (state remaining : Nat) (lastAccess : BitVec 64)
    (next : Nat) (memset : List MemSetEntry) : Prop where
  state_eq : mtl.state = state
  remaining_eq : mtl.remaining_groups = BitVec.ofNat 64 remaining
  group_state_eq : mtl.group_state = 0
  lastAccess_eq : mtl.lastAccess = lastAccess
  next_eq : mtl.nextExpectedInstance = BitVec.ofNat 64 next
  memset_eq : mtl.memset = memset

/-- The four numbers of an entry. -/
def entryNumbers (lastAccess base stride length numReps : BitVec 64) : List Int :=
  [(base - lastAccess).toInt, stride.toInt, (length.toNat : Int), (numReps.toNat : Int)]

/-- `getAbsoluteBase` adds the signed difference to the last base, modulo `2 ^ 64`. -/
theorem getAbsoluteBase_toInt (mtl : MemoryTraceLex) (diff : BitVec 64) :
    mtl.getAbsoluteBase diff.toInt
      = { mtl with currBase := mtl.lastAccess + diff, lastAccess := mtl.lastAccess + diff } := by
  by_cases hneg : diff.toInt < 0
  · have habs : (diff.toInt.natAbs : Int) = -diff.toInt := by omega
    have hword : BitVec.ofNat 64 diff.toInt.natAbs = -diff := by
      rw [← BitVec.ofInt_natCast, habs, BitVec.ofInt_neg, BitVec.ofInt_toInt]
    simp [getAbsoluteBase, Lib.strtoll_toInt, hneg, hword]
  · simp [getAbsoluteBase, Lib.strtoll_toInt, hneg]

theorem number_eq_readMemSetEntry (mtl : MemoryTraceLex) (h : mtl.state = 2 ∨ mtl.state = 4)
    (text : Int) : (mtl.number text).1 = mtl.readMemSetEntry text := by
  rcases h with h | h
  · simp [number, h]
  · simp [number, h]

/-- Reading an entry's four numbers pushes it and moves the base and the instance counter on. -/
theorem feed_entry {mtl : MemoryTraceLex} {state remaining next : Nat} {lastAccess : BitVec 64}
    {memset : List MemSetEntry} (hstate : state = 2 ∨ state = 4)
    (h : At mtl state (remaining + 1) lastAccess next memset) (hremaining : remaining < 2 ^ 64)
    (base stride length : BitVec 64) (n : Nat) :
    At (mtl.feed (entryNumbers lastAccess base stride length (BitVec.ofNat 64 n)))
      (if remaining = 0 then (state + 1) % 5 else state) remaining base (next + n)
      (memset ++ newEntries base stride length (BitVec.ofNat 64 next) (BitVec.ofNat 64 n)) := by
  rcases h with ⟨hs, hr, hg, hl, hn, hm⟩
  subst hs hl hm
  have hbase : mtl.lastAccess + (base - mtl.lastAccess) = base := by
    rw [BitVec.add_comm, BitVec.sub_add_cancel]
  -- base, stride and length are kept, and the fourth number pushes the entry
  let m₁ : MemoryTraceLex := { mtl with currBase := base, lastAccess := base, group_state := 1 }
  let m₂ : MemoryTraceLex := { m₁ with currStride := stride, group_state := 2 }
  let m₃ : MemoryTraceLex := { m₂ with currLength := length, group_state := 3 }
  have h₁ : (mtl.number (base - mtl.lastAccess).toInt).1 = m₁ := by
    rw [number_eq_readMemSetEntry mtl hstate, readMemSetEntry, if_pos hg, getAbsoluteBase_toInt, hbase]
  have h₂ : (m₁.number stride.toInt).1 = m₂ := by
    rw [number_eq_readMemSetEntry m₁ hstate]
    simp [readMemSetEntry, Lib.strtoll_toInt, m₂, m₁]
  have h₃ : (m₂.number (length.toNat : Int)).1 = m₃ := by
    rw [number_eq_readMemSetEntry m₂ hstate]
    simp [readMemSetEntry, Lib.strtoullSigned_toNat, m₃, m₂, m₁]
  have h₄ : (m₃.number ((BitVec.ofNat 64 n).toNat : Int)).1
      = ({ m₃ with currNumReps := BitVec.ofNat 64 n } : MemoryTraceLex).addNumRepsToSet.endOfEntry := by
    rw [number_eq_readMemSetEntry m₃ hstate, readMemSetEntry, Lib.strtoullSigned_toNat]
    rfl
  have hleft : mtl.remaining_groups - 1 = BitVec.ofNat 64 remaining := by
    rw [hr]
    bv_omega
  have hzero : BitVec.ofNat 64 remaining = 0 ↔ remaining = 0 := by
    constructor
    · intro h0
      bv_omega
    · intro h0
      rw [h0]
      rfl
  rw [entryNumbers, feed_cons, h₁, feed_cons, h₂, feed_cons, h₃, feed_cons, h₄, feed_nil]
  refine ⟨?_, ?_, rfl, rfl, ?_, ?_⟩
  · simp only [endOfEntry, addNumRepsToSet, m₃, m₂, m₁, hleft, hzero]
  · simp only [endOfEntry, addNumRepsToSet, m₃, m₂, m₁, hleft]
  · simp only [endOfEntry, addNumRepsToSet, m₃, m₂, m₁, hn, BitVec.ofNat_add]
  · simp only [endOfEntry, addNumRepsToSet, m₃, m₂, m₁, hn]

end MemoryTraceLex
end CamAlias
