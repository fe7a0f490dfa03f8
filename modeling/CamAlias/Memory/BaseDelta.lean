import CamAlias.Memory.Dump
import CamAlias.Memory.Lexer

/-!
# BaseDelta — entry bases on every platform

The word size of `uintptr_t` is a parameter here, since the same code is built for 32-bit and for
64-bit targets.  The first base of a set is printed as it is, every later one as the signed
difference to the base before it.  The reader converts them all with `ALPHTOSIGNED`, which is
`strtol` on every platform: the macro that would choose `strtoll` is not one that compilers
define.  `strtol` saturates at the bounds of the signed word.

- `readBases_dumpBases_iff`: the bases are read back exactly when the first of them is below half
  of the address range;
- `dumpInitialEntry_toPlatform`, `dumpEntry_toPlatform`, `currBase_getAbsoluteBase`: at 64 bits
  this is the memory tracer and its lexer.
-/

namespace CamAlias

variable {w : Nat}

/-- The fields of a `TracerMemSetEntry` that are printed, with words of `w` bits. -/
structure PlatformEntry (w : Nat) where
  base : BitVec w
  stride : BitVec w
  length : BitVec 64
  numInstances : Nat
  deriving DecidableEq

/-! ## Writing -/

namespace PlatformEntry

def dumpFields (base : List Char) (e : PlatformEntry w) : List Char :=
  base ++ ([' '] ++ (Lib.signedDecimal e.stride.toInt ++ ([' '] ++
    (Lib.decimal e.length.toNat ++ ([' '] ++ (Lib.decimal e.numInstances ++ [',']))))))

/-- `"%" PRIuPTR` for the base. -/
def dumpInitialEntry (e : PlatformEntry w) : List Char :=
  dumpFields (Lib.decimal e.base.toNat) e

/-- `"%" PRIdPTR` for the difference, which wraps around. -/
def dumpEntry (e prev : PlatformEntry w) : List Char :=
  dumpFields (Lib.signedDecimal (e.base - prev.base).toInt) e

end PlatformEntry

/-- The entries after the first. -/
def dumpBasesFrom (prev : PlatformEntry w) : List (PlatformEntry w) → List Char
  | [] => []
  | e :: es => e.dumpEntry prev ++ dumpBasesFrom e es

/-- The loop of `dumpSet` over the entries, oldest first. -/
def dumpBases : List (PlatformEntry w) → List Char
  | [] => []
  | e :: es => e.dumpInitialEntry ++ dumpBasesFrom e es

/-! ## Reading -/

/-- The value that `getAbsoluteBase` gives `currBase` and `lastAccess`. -/
def absoluteBase (lastAccess : BitVec w) (text : Int) : BitVec w :=
  let baseDiff := Lib.strtol w text
  if baseDiff < 0 then lastAccess - BitVec.ofNat w baseDiff.natAbs
  else lastAccess + BitVec.ofInt w baseDiff

/-- The part of `MemoryTraceLex` that the bases depend on, and the bases of the entries pushed. -/
structure BaseReader (w : Nat) where
  group_state : Nat := 0
  currBase : BitVec w := 0
  lastAccess : BitVec w := 0
  bases : List (BitVec w) := []

namespace BaseReader

/-- `readMemSetEntry` on one number; the fourth one of an entry pushes it. -/
def readMemSetEntry (r : BaseReader w) (text : Int) : BaseReader w :=
  if r.group_state = 0 then
    let base := absoluteBase r.lastAccess text
    { r with group_state := 1, currBase := base, lastAccess := base }
  else if r.group_state = 3 then
    { r with group_state := 0, bases := r.bases ++ [r.currBase] }
  else
    { r with group_state := r.group_state + 1 }

end BaseReader

/-- The bases read from a text, starting from `lastAccess = 0`. -/
def readBases (w : Nat) (text : List Char) : List (BitVec w) :=
  ((scanSigned .start text).foldl BaseReader.readMemSetEntry ({} : BaseReader w)).bases

/-! ## What is read -/

/-- A signed difference is added modulo the word size, whatever its sign. -/
theorem absoluteBase_toInt (lastAccess diff : BitVec w) :
    absoluteBase lastAccess diff.toInt = lastAccess + diff := by
  rw [absoluteBase, Lib.strtol_toInt diff]
  by_cases hneg : diff.toInt < 0
  · have habs : (diff.toInt.natAbs : Int) = -diff.toInt := by omega
    have hword : BitVec.ofNat w diff.toInt.natAbs = -diff := by
      calc BitVec.ofNat w diff.toInt.natAbs
          = BitVec.ofInt w (diff.toInt.natAbs : Int) := (BitVec.ofInt_natCast _ _).symm
        _ = BitVec.ofInt w (-diff.toInt) := by rw [habs]
        _ = -diff := by rw [BitVec.ofInt_neg, BitVec.ofInt_toInt]
    simp only [if_pos hneg, hword, BitVec.sub_eq_add_neg, BitVec.neg_neg]
  · simp only [if_neg hneg, BitVec.ofInt_toInt]

/-- The base read for an unsigned number: the conversion stops at the largest signed word. -/
theorem absoluteBase_zero_toNat (base : BitVec w) :
    absoluteBase 0 (base.toNat : Int) = base ↔ base.toNat < 2 ^ (w - 1) := by
  have hpos : (0 : Int) < 2 ^ (w - 1) := Int.pow_pos (by omega)
  have hcast : ((2 ^ (w - 1) : Nat) : Int) = (2 : Int) ^ (w - 1) := by simp
  constructor
  · intro hbase
    by_contra hge
    -- saturated, hence the largest positive word
    have hsat : Lib.strtol w (base.toNat : Int) = ((2 ^ (w - 1) - 1 : Nat) : Int) := by
      simp only [Lib.strtol]
      omega
    have hread : absoluteBase 0 (base.toNat : Int) = BitVec.ofNat w (2 ^ (w - 1) - 1) := by
      have hnonneg : ¬ ((2 ^ (w - 1) - 1 : Nat) : Int) < 0 := by omega
      simp only [absoluteBase, hsat, if_neg hnonneg, BitVec.ofInt_natCast]
      exact BitVec.zero_add _
    have hlt : 2 ^ (w - 1) - 1 < 2 ^ w := by
      have hmono : 2 ^ (w - 1) ≤ 2 ^ w := Nat.pow_le_pow_right (by omega) (by omega)
      have hone : 0 < 2 ^ (w - 1) := Nat.two_pow_pos _
      omega
    have hvalue : base.toNat = 2 ^ (w - 1) - 1 := by
      rw [← hbase, hread, BitVec.toNat_ofNat, Nat.mod_eq_of_lt hlt]
    have hone : 0 < 2 ^ (w - 1) := Nat.two_pow_pos _
    omega
  · intro hlt
    cases w with
    | zero => exact (BitVec.of_length_zero).trans (BitVec.of_length_zero).symm
    | succ n =>
        have hhalf : 2 * base.toNat < 2 ^ (n + 1) := by
          have hpow : 2 ^ (n + 1) = 2 * 2 ^ n := Nat.pow_succ'
          have hbound : base.toNat < 2 ^ n := hlt
          omega
        have hword : (base.toNat : Int) = base.toInt := (BitVec.toInt_eq_toNat_of_lt hhalf).symm
        rw [hword, absoluteBase_toInt]
        exact BitVec.zero_add _

/-- The numbers of an entry whose base is printed as the number `base`. -/
def PlatformEntry.numbers (base : Int) (e : PlatformEntry w) : List Int :=
  [base, e.stride.toInt, (e.length.toNat : Int), (e.numInstances : Int)]

theorem scans_platformFields {text : List Char} {base : Int} (e : PlatformEntry w)
    (hbase : ScansSigned (text ++ [' ']) [base]) :
    ScansSigned (e.dumpFields text) (e.numbers base) := by
  have hstride : ScansSigned (Lib.signedDecimal e.stride.toInt ++ [' ']) [e.stride.toInt] :=
    scanSigned_number (by decide) (by decide) _
  have hlength : ScansSigned (Lib.decimal e.length.toNat ++ [' ']) [(e.length.toNat : Int)] :=
    scanSigned_decimal_number (by decide) (by decide) _
  have hcount : ScansSigned (Lib.decimal e.numInstances ++ [',']) [(e.numInstances : Int)] :=
    scanSigned_decimal_number (by decide) (by decide) _
  have hall := hbase.append (hstride.append (hlength.append hcount))
  simpa only [PlatformEntry.dumpFields, PlatformEntry.numbers, List.append_assoc,
    List.singleton_append, List.cons_append, List.nil_append] using hall

/-- Between entries the reader holds the last base and the bases so far. -/
def BaseReader.At (r : BaseReader w) (lastAccess : BitVec w) (bases : List (BitVec w)) : Prop :=
  r.group_state = 0 ∧ r.lastAccess = lastAccess ∧ r.bases = bases

/-- The four numbers of an entry push one base. -/
theorem BaseReader.At.entry {r : BaseReader w} {lastAccess : BitVec w} {bases : List (BitVec w)}
    (h : r.At lastAccess bases) (e : PlatformEntry w) (base : Int) :
    ((e.numbers base).foldl BaseReader.readMemSetEntry r).At (absoluteBase lastAccess base)
      (bases ++ [absoluteBase lastAccess base]) := by
  rcases h with ⟨hgroup, rfl, rfl⟩
  simp [PlatformEntry.numbers, BaseReader.readMemSetEntry, BaseReader.At, hgroup]

/-- The differences: induction on the entries, the last base carries over. -/
theorem BaseReader.At.dumpBasesFrom (es : List (PlatformEntry w))
    {prev : PlatformEntry w} {r : BaseReader w} {bases : List (BitVec w)}
    (hr : r.At prev.base bases) :
    ((scanSigned .start (CamAlias.dumpBasesFrom prev es)).foldl BaseReader.readMemSetEntry
      r).bases = bases ++ es.map PlatformEntry.base := by
  induction es generalizing prev r bases with
  | nil => simpa [CamAlias.dumpBasesFrom, scanSigned, SignedScan.numbers] using hr.2.2
  | cons e es ih =>
      have hscan : ScansSigned (e.dumpEntry prev) (e.numbers (e.base - prev.base).toInt) :=
        scans_platformFields e (scanSigned_number (by decide) (by decide) _)
      have hbase : absoluteBase prev.base (e.base - prev.base).toInt = e.base := by
        rw [absoluteBase_toInt, BitVec.add_comm, BitVec.sub_add_cancel]
      have hentry := hr.entry e (e.base - prev.base).toInt
      rw [hbase] at hentry
      rw [CamAlias.dumpBasesFrom, hscan, List.foldl_append, ih hentry, List.map_cons,
        List.append_assoc, List.singleton_append]

/-- What is read back: only the first base can be wrong, but every later one is relative to it. -/
theorem readBases_dumpBases_cons (e : PlatformEntry w) (es : List (PlatformEntry w)) :
    readBases w (dumpBases (e :: es))
      = ((scanSigned .start (dumpBasesFrom e es)).foldl BaseReader.readMemSetEntry
          ((e.numbers e.base.toNat).foldl BaseReader.readMemSetEntry {})).bases := by
  have hscan : ScansSigned e.dumpInitialEntry (e.numbers e.base.toNat) :=
    scans_platformFields e (scanSigned_decimal_number (by decide) (by decide) _)
  rw [readBases, dumpBases, hscan, List.foldl_append]

/-- The bases pushed are never taken back. -/
theorem BaseReader.bases_prefix (ts : List Int) (r : BaseReader w) :
    ∃ later, (ts.foldl BaseReader.readMemSetEntry r).bases = r.bases ++ later := by
  induction ts generalizing r with
  | nil => exact ⟨[], by simp⟩
  | cons t ts ih =>
      rcases ih (r.readMemSetEntry t) with ⟨later, hlater⟩
      have hstep : ∃ new, (r.readMemSetEntry t).bases = r.bases ++ new := by
        simp only [BaseReader.readMemSetEntry]
        split
        · exact ⟨[], by simp⟩
        · split
          · exact ⟨[r.currBase], rfl⟩
          · exact ⟨[], by simp⟩
      rcases hstep with ⟨new, hnew⟩
      refine ⟨new ++ later, ?_⟩
      rw [List.foldl_cons, hlater, hnew, List.append_assoc]

/-- The bases of a set are read back exactly when the first of them is a positive signed word. -/
theorem readBases_dumpBases_iff (entries : List (PlatformEntry w)) :
    readBases w (dumpBases entries) = entries.map PlatformEntry.base ↔
      ∀ first ∈ entries.head?, first.base.toNat < 2 ^ (w - 1) := by
  cases entries with
  | nil => simp [readBases, dumpBases, scanSigned, SignedScan.numbers]
  | cons e es =>
      have hinit : ({} : BaseReader w).At 0 [] := ⟨rfl, rfl, rfl⟩
      have hfirst := hinit.entry e (e.base.toNat : Int)
      rw [readBases_dumpBases_cons]
      have hhead : (∀ first ∈ (e :: es).head?, first.base.toNat < 2 ^ (w - 1)) ↔
          absoluteBase 0 (e.base.toNat : Int) = e.base := by
        simp only [List.head?_cons, Option.mem_def, Option.some.injEq, forall_eq']
        exact (absoluteBase_zero_toNat e.base).symm
      rw [hhead]
      constructor
      · intro hread
        rcases BaseReader.bases_prefix (scanSigned .start (dumpBasesFrom e es))
          ((e.numbers e.base.toNat).foldl BaseReader.readMemSetEntry {}) with ⟨later, hlater⟩
        rw [hlater, hfirst.2.2, List.map_cons] at hread
        exact (List.cons.inj hread).1
      · intro hbase
        rw [hbase] at hfirst
        rw [hfirst.dumpBasesFrom es, List.map_cons, List.nil_append, List.singleton_append]

/-- A set with one entry whose base is a 32-bit stack address. -/
def stackEntries : List (PlatformEntry 32) :=
  [{ base := 0xbf000000, stride := 4, length := 4, numInstances := 1 }]

theorem readBases_dumpBases_saturates :
    readBases 32 (dumpBases stackEntries) = [0x7fffffff] ∧
      ¬ ∀ entries : List (PlatformEntry 32),
        readBases 32 (dumpBases entries) = entries.map PlatformEntry.base := by
  have hread : readBases 32 (dumpBases stackEntries) = [0x7fffffff] := by
    decide +kernel
  refine ⟨hread, fun hall => ?_⟩
  have hbase := hall stackEntries
  rw [hread] at hbase
  exact absurd hbase (by decide)

/-! ## The 64-bit memory tracer and its lexer -/

def TracerMemSetEntry.toPlatform (e : TracerMemSetEntry) : PlatformEntry 64 :=
  { base := e.base, stride := e.stride, length := e.length,
    numInstances := e.getNumInstances.toNat }

theorem dumpInitialEntry_toPlatform (e : TracerMemSetEntry) :
    e.toPlatform.dumpInitialEntry = e.dumpInitialEntry := rfl

theorem dumpEntry_toPlatform (e prev : TracerMemSetEntry) :
    e.toPlatform.dumpEntry prev.toPlatform = e.dumpEntry prev := rfl

theorem currBase_getAbsoluteBase (mtl : MemoryTraceLex) (text : Int) :
    (mtl.getAbsoluteBase text).currBase = absoluteBase mtl.lastAccess text ∧
      (mtl.getAbsoluteBase text).lastAccess = absoluteBase mtl.lastAccess text := ⟨rfl, rfl⟩

/-- The text of a set of the tracer is its size, its entries' text and a newline. -/
theorem dumpSet_eq_dumpBases (s : TracerMemSet) :
    s.dumpSet = (Lib.decimal s.length ++ [' ']) ++
      (dumpBases (s.reverse.map TracerMemSetEntry.toPlatform) ++ ['\n']) := by
  have hfrom : ∀ (es : List TracerMemSetEntry) (prev : TracerMemSetEntry),
      dumpBasesFrom prev.toPlatform (es.map TracerMemSetEntry.toPlatform)
        = TracerMemSet.dumpEntries prev es := by
    intro es
    induction es with
    | nil => exact fun _ => rfl
    | cons e es ih =>
        intro prev
        rw [List.map_cons, dumpBasesFrom, ih, dumpEntry_toPlatform, TracerMemSet.dumpEntries]
  rw [TracerMemSet.dumpSet]
  cases hs : s.reverse with
  | nil => rfl
  | cons e es => simp only [List.map_cons, dumpBases, dumpInitialEntry_toPlatform, hfrom]

end CamAlias
