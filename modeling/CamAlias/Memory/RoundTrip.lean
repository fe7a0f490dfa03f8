import CamAlias.Lexer.Scanner
import CamAlias.Memory.Dump
import CamAlias.Memory.Lexer

/-!
# RoundTrip — memory trace files are read back

Every dump of a stream is read by the lexer from state 0 back to state 0, and pushes entries that
stand for the references of the dumped set.

- `scans_dumpStream`: the numbers of a dump;
- `feed_streamNumbers`: reading them;
- `parseMemoryTrace_shutdown_run`: the round trip for every run of the tracer.
-/

namespace CamAlias

open MemoryTraceLex

/-! ## The numbers of a dump -/

namespace TracerMemSetEntry

def numbers (lastAccess : BitVec 64) (e : TracerMemSetEntry) : List Int :=
  entryNumbers lastAccess e.base e.stride e.length e.getNumInstances

theorem scans_dumpFields {base : List Char} {lastAccess : BitVec 64} (e : TracerMemSetEntry)
    (hbase : ScansSigned (base ++ [' ']) [(e.base - lastAccess).toInt]) :
    ScansSigned (e.dumpFields base) (e.numbers lastAccess) := by
  have hstride : ScansSigned (Lib.signedDecimal e.stride.toInt ++ [' ']) [e.stride.toInt] :=
    scanSigned_number (by decide) (by decide) _
  have hlength : ScansSigned (Lib.decimal e.length.toNat ++ [' ']) [(e.length.toNat : Int)] :=
    scanSigned_decimal_number (by decide) (by decide) _
  have hcount : ScansSigned (Lib.decimal e.getNumInstances.toNat ++ [','])
      [(e.getNumInstances.toNat : Int)] :=
    scanSigned_decimal_number (by decide) (by decide) _
  have hall := hbase.append (hstride.append (hlength.append hcount))
  simpa only [dumpFields, numbers, entryNumbers, List.append_assoc, List.singleton_append,
    List.cons_append, List.nil_append] using hall

theorem scans_dumpEntry (e prev : TracerMemSetEntry) :
    ScansSigned (e.dumpEntry prev) (e.numbers prev.base) :=
  e.scans_dumpFields (scanSigned_number (by decide) (by decide) _)

/-- The first base is printed as it is, so it has to be a positive number for `strtoll`. -/
theorem scans_dumpInitialEntry {e : TracerMemSetEntry} (h : e.base.toNat < 2 ^ 63) :
    ScansSigned e.dumpInitialEntry (e.numbers 0) := by
  have hbase : (e.base - 0).toInt = (e.base.toNat : Int) := by
    have hsub : e.base - 0 = e.base := BitVec.sub_zero e.base
    rw [hsub, BitVec.toInt_eq_toNat_of_lt (by omega)]
  refine e.scans_dumpFields ?_
  rw [hbase]
  exact scanSigned_decimal_number (by decide) (by decide) _

end TracerMemSetEntry

/-- The entries' numbers, oldest entry first. -/
def entriesNumbers (lastAccess : BitVec 64) : List TracerMemSetEntry → List Int
  | [] => []
  | e :: es => e.numbers lastAccess ++ entriesNumbers e.base es

def setNumbers (s : TracerMemSet) : List Int :=
  (s.length : Int) :: entriesNumbers 0 s.reverse

theorem scans_dumpEntries (prev : TracerMemSetEntry) (es : List TracerMemSetEntry) :
    ScansSigned (TracerMemSet.dumpEntries prev es) (entriesNumbers prev.base es) := by
  induction es generalizing prev with
  | nil => exact Lib.Scans.nil
  | cons e es ih => exact (e.scans_dumpEntry prev).append (ih e)

theorem scans_dumpSet {s : TracerMemSet} (h : ∀ e ∈ s, e.base.toNat < 2 ^ 63) :
    ScansSigned s.dumpSet (setNumbers s) := by
  have hsize : ScansSigned (Lib.decimal s.length ++ [' ']) [(s.length : Int)] :=
    scanSigned_decimal_number (by decide) (by decide) _
  have hend : ScansSigned ['\n'] [] := fun rest => by
    simp [scanSigned, SignedScan.numbers, Char.isDigit]
  have hentries : ScansSigned
      (match s.reverse with
        | [] => []
        | e :: es => e.dumpInitialEntry ++ TracerMemSet.dumpEntries e es)
      (entriesNumbers 0 s.reverse) := by
    cases hs : s.reverse with
    | nil => exact Lib.Scans.nil
    | cons e es =>
        have he : e ∈ s := List.mem_reverse.1 (by simp [hs])
        exact (TracerMemSetEntry.scans_dumpInitialEntry (h e he)).append (scans_dumpEntries e es)
  have hall := hsize.append (hentries.append hend)
  rw [List.append_nil] at hall
  exact hall

/-- The numbers of what a dump appends to a file. -/
def streamNumbers (id : UInt64) (stream : Stream) (s : TracerMemSet) : List Int :=
  if s = [] then []
  else
    (id.toNat : Int) ::
      (match stream with
        | .read => setNumbers s ++ [0]
        | .write => 0 :: setNumbers s)

theorem scans_dumpStream (id : UInt64) (stream : Stream) {s : TracerMemSet}
    (h : ∀ e ∈ s, e.base.toNat < 2 ^ 63) :
    ScansSigned (dumpStream id stream s) (streamNumbers id stream s) := by
  by_cases hs : s = []
  · simp only [dumpStream, streamNumbers, if_pos hs]
    exact Lib.Scans.nil
  · have hid : ScansSigned (Lib.decimal id.toNat ++ ['\n']) [(id.toNat : Int)] :=
      scanSigned_decimal_number (by decide) (by decide) _
    have hzero : ScansSigned ['0', '\n'] [0] :=
      scanSigned_decimal_number (by decide) (by decide) 0
    simp only [dumpStream, streamNumbers, if_neg hs]
    cases stream with
    | read => exact hid.append ((scans_dumpSet h).append hzero)
    | write => exact hid.append (hzero.append (scans_dumpSet h))

/-! ## The separators of a dump -/

theorem spaced_signedDecimal {c : Char} (hc : isSeparator c = true) (x : BitVec 64) :
    Spaced 0 (Lib.signedDecimal x.toInt ++ [c]) 0 := by
  refine Lib.GapTo.before_separator hc ?_
  have hlt : x.toInt.natAbs < 2 ^ 64 := by
    have hlo := x.le_two_mul_toInt
    have hhi := x.two_mul_toInt_lt
    omega
  have hlength := Lib.length_decimal_le hlt
  rw [Lib.signedDecimal]
  simp only [maxRemainder]
  split
  · rw [List.length_cons]
    omega
  · omega

theorem TracerMemSetEntry.spaced_dumpFields {base : List Char} (e : TracerMemSetEntry)
    (hbase : Spaced 0 (base ++ [' ']) 0) : Spaced 0 (e.dumpFields base) 0 := by
  have hlength := spaced_decimal (c := ' ') rfl e.length.isLt (Nat.succ_pos 79)
  have hcount := spaced_decimal (c := ',') rfl e.getNumInstances.isLt (Nat.succ_pos 79)
  have hall := hbase.append ((spaced_signedDecimal (c := ' ') rfl e.stride).append
    (hlength.append hcount))
  simpa only [dumpFields, List.append_assoc] using hall

theorem spaced_dumpEntries (prev : TracerMemSetEntry) (es : List TracerMemSetEntry) :
    Spaced 0 (TracerMemSet.dumpEntries prev es) 0 := by
  induction es generalizing prev with
  | nil => exact Lib.GapTo.nil
  | cons e es ih => exact (e.spaced_dumpFields (spaced_signedDecimal rfl _)).append (ih e)

theorem spaced_dumpSet {s : TracerMemSet} (hs : s.length < 2 ^ 64) : Spaced 0 s.dumpSet 0 := by
  have hsize := spaced_decimal (c := ' ') rfl hs (Nat.succ_pos 79)
  have hend : Spaced 0 ['\n'] 0 := Lib.GapTo.separator rfl
  rw [TracerMemSet.dumpSet]
  cases hrev : s.reverse with
  | nil => exact hsize.append hend
  | cons e es =>
      have hbase := spaced_decimal (c := ' ') rfl e.base.isLt (Nat.succ_pos 79)
      exact hsize.append (((e.spaced_dumpFields hbase).append (spaced_dumpEntries e es)).append hend)

/-- A dump is numbers with separators behind them, and ends with one. -/
theorem spaced_dumpStream (id : UInt64) (stream : Stream) {s : TracerMemSet}
    (hs : s.length < 2 ^ 64) : Spaced 0 (dumpStream id stream s) 0 := by
  have hid := spaced_decimal (c := '\n') rfl id.toNat_lt (Nat.succ_pos 79)
  have hzero : Spaced 0 ['0', '\n'] 0 := Lib.GapTo.before_separator (l := ['0']) rfl (by decide)
  unfold dumpStream
  split
  · exact Lib.GapTo.nil
  · cases stream with
    | read => exact hid.append ((spaced_dumpSet hs).append hzero)
    | write => exact hid.append (hzero.append (spaced_dumpSet hs))

/-- A dump ends with a newline. -/
theorem newline_dumpStream (id : UInt64) (stream : Stream) (s : TracerMemSet) :
    dumpStream id stream s = [] ∨ ∃ init, dumpStream id stream s = init ++ ['\n'] := by
  unfold dumpStream
  split
  · exact Or.inl rfl
  · cases stream with
    | read => exact Or.inr ⟨Lib.decimal id.toNat ++ ['\n'] ++ (s.dumpSet ++ ['0']), by simp⟩
    | write =>
        have hset : ∃ init, s.dumpSet = init ++ ['\n'] := ⟨_, (List.append_assoc _ _ _).symm⟩
        rcases hset with ⟨init, hinit⟩
        exact Or.inr ⟨Lib.decimal id.toNat ++ ['\n'] ++ (['0', '\n'] ++ init), by simp [hinit]⟩

/-! ## Reading a dump -/

namespace MemoryTraceLex

variable {mtl : MemoryTraceLex} {remaining next : Nat} {lastAccess : BitVec 64}
  {memset : List MemSetEntry}

/-- The instruction number starts a new base. -/
theorem At.id (h : At mtl 0 remaining lastAccess next memset) (z : Int) :
    At (mtl.number z).1 1 remaining 0 next memset := by
  rcases h with ⟨hs, hr, hg, -, hn, hm⟩
  rw [number, if_pos hs]
  exact ⟨rfl, hr, hg, rfl, hn, hm⟩

/-- The size of a set that is not empty. -/
theorem strtoullSigned_pos {n : Nat} (hn : 0 < n) (hlt : n < 2 ^ 64) :
    0 < Lib.strtoullSigned (n : Int) := by
  rw [Lib.strtoullSigned_natCast hlt]
  bv_omega

theorem At.size_read (h : At mtl 1 remaining lastAccess next memset) {n : Nat} (hn : 0 < n)
    (hlt : n < 2 ^ 64) : At (mtl.number n).1 2 n lastAccess next memset := by
  rcases h with ⟨hs, -, -, hl, hnext, hm⟩
  have hpos := strtoullSigned_pos hn hlt
  simp only [number, hs, hpos, if_true]
  exact ⟨rfl, Lib.strtoullSigned_natCast hlt, rfl, hl, hnext, hm⟩

theorem At.size_write (h : At mtl 3 remaining lastAccess next memset) {n : Nat} (hn : 0 < n)
    (hlt : n < 2 ^ 64) : At (mtl.number n).1 4 n lastAccess next memset := by
  rcases h with ⟨hs, -, -, hl, hnext, hm⟩
  have hpos := strtoullSigned_pos hn hlt
  simp only [number, hs, hpos, if_true]
  exact ⟨rfl, Lib.strtoullSigned_natCast hlt, rfl, hl, hnext, hm⟩

theorem At.no_reads (h : At mtl 1 remaining lastAccess next memset) :
    At (mtl.number 0).1 3 0 lastAccess next memset := by
  rcases h with ⟨hs, -, hg, hl, hnext, hm⟩
  simp only [number, hs]
  exact ⟨rfl, rfl, hg, hl, hnext, hm⟩

theorem At.no_writes (h : At mtl 3 remaining lastAccess next memset) :
    At (mtl.number 0).1 0 0 lastAccess next memset := by
  rcases h with ⟨hs, -, hg, hl, hnext, hm⟩
  simp only [number, hs]
  exact ⟨rfl, rfl, hg, hl, hnext, hm⟩

/-- No entry is empty. -/
theorem length_le_expand (es : List TracerMemSetEntry) :
    es.length ≤ (es.flatMap TracerMemSetEntry.expand).length := by
  induction es with
  | nil => simp
  | cons e es ih =>
      have hpos := e.instances_pos
      rw [List.flatMap_cons, List.length_append, TracerMemSetEntry.length_expand, List.length_cons]
      omega

/-- The entries that are read have the lengths and the strides of the entries that were written. -/
def ShapedBy (new : List MemSetEntry) (es : List TracerMemSetEntry) : Prop :=
  ∀ e ∈ new, ∃ t ∈ es, t.length = e.length ∧ t.stride = e.stride

theorem ShapedBy.append {new new' : List MemSetEntry} {es es' : List TracerMemSetEntry}
    (h : ShapedBy new es) (h' : ShapedBy new' es') : ShapedBy (new ++ new') (es ++ es') := by
  intro e he
  rcases List.mem_append.1 he with he | he
  · rcases h e he with ⟨t, ht, hshape⟩
    exact ⟨t, List.mem_append_left es' ht, hshape⟩
  · rcases h' e he with ⟨t, ht, hshape⟩
    exact ⟨t, List.mem_append_right es ht, hshape⟩

theorem shapedBy_newEntries (e : TracerMemSetEntry) (start numReps : BitVec 64) :
    ShapedBy (newEntries e.base e.stride e.length start numReps) [e] := by
  intro e' he'
  rcases shape_newEntries he' with ⟨hlength, hstride⟩
  exact ⟨e, List.mem_singleton_self e, hlength.symm, hstride.symm⟩

/-- Reading the entries of a set that is not empty: they stand for the same references, and their
instance numbers continue from `next`. -/
theorem feed_entries {state : Nat} (hstate : state = 2 ∨ state = 4)
    (e : TracerMemSetEntry) (es : List TracerMemSetEntry)
    (h : At mtl state (es.length + 1) lastAccess next memset)
    (hlt : next + ((e :: es).flatMap TracerMemSetEntry.expand).length < 2 ^ 64) :
    ∃ new last, At (mtl.feed (entriesNumbers lastAccess (e :: es))) ((state + 1) % 5) 0 last
        (next + ((e :: es).flatMap TracerMemSetEntry.expand).length) (memset ++ new) ∧
      new.flatMap MemSetEntry.accesses = (e :: es).flatMap TracerMemSetEntry.expand ∧
      Consecutive next new (next + ((e :: es).flatMap TracerMemSetEntry.expand).length) ∧
      ShapedBy new (e :: es) := by
  -- behind the last entry the lexer is in the next state, behind the others it counts down
  induction es generalizing mtl lastAccess next memset e with
  | nil =>
      have hle : next + e.instances < 2 ^ 64 := by simpa using hlt
      have hentry := feed_entry hstate h (by simp) e.base e.stride e.length e.instances
      have hnew := accesses_newEntries e.base e.stride e.length (BitVec.ofNat 64 next)
        e.instances_pos (by omega)
      have hfits : next + e.instances ≤ 2 ^ 64 := by omega
      have hconsecutive := consecutive_newEntries e.base e.stride e.length e.instances_pos hfits
      rw [← e.getNumInstances_eq] at hentry hnew hconsecutive
      refine ⟨newEntries e.base e.stride e.length (BitVec.ofNat 64 next) e.getNumInstances, e.base,
        ?_, ?_, ?_, shapedBy_newEntries e _ _⟩
      · simpa [entriesNumbers, TracerMemSetEntry.numbers] using hentry
      · simpa [TracerMemSetEntry.expand] using hnew
      · simpa using hconsecutive
  | cons e' es ih =>
      have hrest : next + e.instances + ((e' :: es).flatMap TracerMemSetEntry.expand).length
          < 2 ^ 64 := by
        rwa [List.flatMap_cons, List.length_append, TracerMemSetEntry.length_expand,
          ← Nat.add_assoc] at hlt
      have htail := length_le_expand (e' :: es)
      have hentry := feed_entry hstate h (by omega) e.base e.stride e.length e.instances
      have hremaining : (e' :: es).length ≠ 0 := by simp
      rw [if_neg hremaining, ← e.getNumInstances_eq] at hentry
      have hnew := accesses_newEntries e.base e.stride e.length (BitVec.ofNat 64 next)
        e.instances_pos (by omega)
      have hfits : next + e.instances ≤ 2 ^ 64 := by omega
      have hconsecutive := consecutive_newEntries e.base e.stride e.length e.instances_pos hfits
      rw [← e.getNumInstances_eq] at hnew hconsecutive
      rcases ih e' hentry hrest with ⟨new, last, hat, haccesses, htiles, hshaped⟩
      refine ⟨newEntries e.base e.stride e.length (BitVec.ofNat 64 next) e.getNumInstances ++ new,
        last, ?_, ?_, ?_, (shapedBy_newEntries e _ _).append hshaped⟩
      · rw [entriesNumbers, feed_append, List.flatMap_cons, List.length_append,
          TracerMemSetEntry.length_expand, ← Nat.add_assoc, ← List.append_assoc]
        exact hat
      · rw [List.flatMap_append, haccesses, List.flatMap_cons, hnew]
        rfl
      · rw [List.flatMap_cons, List.length_append, TracerMemSetEntry.length_expand,
          ← Nat.add_assoc]
        exact hconsecutive.append htiles

/-- Reading one dump appends entries that stand for the references of the dumped set. -/
theorem feed_streamNumbers (id : UInt64) (stream : Stream) (s : TracerMemSet)
    (h : At mtl 0 0 lastAccess next memset) (hlt : next + s.expand.length < 2 ^ 64) :
    ∃ new last, At (mtl.feed (streamNumbers id stream s)) 0 0 last (next + s.expand.length)
        (memset ++ new) ∧
      new.flatMap MemSetEntry.accesses = s.expand ∧
      Consecutive next new (next + s.expand.length) ∧ ShapedBy new s := by
  -- an empty set is not dumped
  by_cases hs : s = []
  · subst hs
    refine ⟨[], lastAccess, ?_, rfl, rfl, by simp [ShapedBy]⟩
    simpa [streamNumbers, TracerMemSet.expand] using h
  · have hsize : 0 < s.length := List.length_pos_iff.2 hs
    cases hrev : s.reverse with
    | nil => exact absurd (List.reverse_eq_nil_iff.1 hrev) hs
    | cons e es =>
        have hlength : s.length = es.length + 1 := by
          rw [← List.length_reverse, hrev, List.length_cons]
        have hexpand : s.expand = (e :: es).flatMap TracerMemSetEntry.expand := by
          rw [TracerMemSet.expand, hrev]
        have hmem : ∀ {new : List MemSetEntry}, ShapedBy new (e :: es) → ShapedBy new s := by
          intro new hshaped e' he'
          rcases hshaped e' he' with ⟨t, ht, hshape⟩
          exact ⟨t, List.mem_reverse.1 (hrev ▸ ht), hshape⟩
        have hid := h.id id.toNat
        simp only [streamNumbers, if_neg hs]
        rw [hexpand] at hlt ⊢
        have hshort : s.length < 2 ^ 64 := by
          have hle := length_le_expand (e :: es)
          rw [List.length_cons] at hle
          omega
        -- each dump has the numbers of both streams, of which one is 0
        cases stream with
        | read =>
            have hat := hid.size_read hsize hshort
            rw [hlength] at hat
            rcases feed_entries (Or.inl rfl) e es hat hlt with
              ⟨new, last, hend, hnew, htiles, hshaped⟩
            refine ⟨new, last, ?_, hnew, htiles, hmem hshaped⟩
            rw [feed_cons, feed_append, setNumbers, feed_cons, hrev, hlength, feed_cons, feed_nil]
            exact hend.no_writes
        | write =>
            have hat := hid.no_reads.size_write hsize hshort
            rw [hlength] at hat
            rcases feed_entries (Or.inr rfl) e es hat hlt with
              ⟨new, last, hend, hnew, htiles, hshaped⟩
            refine ⟨new, last, ?_, hnew, htiles, hmem hshaped⟩
            rw [feed_cons, feed_cons, setNumbers, feed_cons, hrev, hlength]
            exact hend

/-- Reading the dumps one after the other. -/
theorem feed_dumped (id : UInt64) (stream : Stream) (dumped : List TracerMemSet)
    (h : At mtl 0 0 lastAccess next memset)
    (hlt : next + (dumped.flatMap TracerMemSet.expand).length < 2 ^ 64) :
    ∃ new last, At (mtl.feed (dumped.flatMap (streamNumbers id stream))) 0 0 last
        (next + (dumped.flatMap TracerMemSet.expand).length) (memset ++ new) ∧
      new.flatMap MemSetEntry.accesses = dumped.flatMap TracerMemSet.expand ∧
      Consecutive next new (next + (dumped.flatMap TracerMemSet.expand).length) ∧
      ShapedBy new dumped.flatten := by
  induction dumped generalizing mtl lastAccess next memset with
  | nil => exact ⟨[], lastAccess, by simpa using h, rfl, rfl, by simp [ShapedBy]⟩
  | cons s dumped ih =>
      rw [List.flatMap_cons, List.length_append, ← Nat.add_assoc] at hlt
      rcases feed_streamNumbers id stream s h (by omega) with
        ⟨new, last, hat, haccesses, hconsecutive, hshaped⟩
      rcases ih hat hlt with ⟨new', last', hat', haccesses', hconsecutive', hshaped'⟩
      have hnext : next + ((s :: dumped).flatMap TracerMemSet.expand).length
          = next + s.expand.length + (dumped.flatMap TracerMemSet.expand).length := by
        rw [List.flatMap_cons, List.length_append, Nat.add_assoc]
      refine ⟨new ++ new', last', ?_, ?_, ?_, hshaped.append hshaped'⟩
      · rw [List.flatMap_cons, feed_append, hnext, ← List.append_assoc]
        exact hat'
      · rw [List.flatMap_append, haccesses, haccesses', List.flatMap_cons]
      · rw [hnext]
        exact hconsecutive.append hconsecutive'

end MemoryTraceLex

/-! ## The round trip -/

/-- Parse a memory trace file from its beginning to its end.  The lexer returns to its caller each
time `numInstancesRequired` instances are there, and is called again. -/
def parseMemoryTrace (numInstancesRequired startInstance : BitVec 64) (text : List Char) :
    List MemSetEntry :=
  let numbers := scanSigned .start text
  (parseAll (numbers.length + 1) { numInstancesRequired, startInstance } numbers).memset

theorem base_mem_expand {s : TracerMemSet} {e : TracerMemSetEntry} (he : e ∈ s) :
    ({ address := e.base, length := e.length } : Reference) ∈ s.expand := by
  have hfirst : ({ address := e.base, length := e.length } : Reference) ∈ e.expand := by
    simp only [TracerMemSetEntry.expand, references, Lib.progression, List.map_map, List.mem_map]
    exact ⟨0, List.mem_range.2 e.instances_pos, by simp⟩
  exact List.mem_flatMap.2 ⟨e, List.mem_reverse.2 he, hfirst⟩

/-- Memory trace files round trip.  For every run of the tracer, with dumps at any places, the
file of a stream is read back as entries that expand to the recorded references in order, and
whose instance intervals follow each other from 0 on. -/
theorem parseMemoryTrace_shutdown_run (calls : List MemoryCall) (id : UInt64) (stream : Stream)
    (haddress : ∀ r ∈ recorded calls id stream, r.address.toNat < 2 ^ 63)
    (hlt : (recorded calls id stream).length < 2 ^ 64)
    (numInstancesRequired startInstance : BitVec 64) :
    let entries := parseMemoryTrace numInstancesRequired startInstance
      ((MemoryTracer.run calls).shutdown id stream)
    entries.flatMap MemSetEntry.accesses = recorded calls id stream ∧
      Consecutive 0 entries (recorded calls id stream).length := by
  intro entries
  rcases MemoryTracer.shutdown_run calls id stream (Nat.le_of_lt hlt) with
    ⟨dumped, hfile, hexpand, -⟩
  have hbase : ∀ s ∈ dumped, ∀ e ∈ s, e.base.toNat < 2 ^ 63 := by
    intro s hs e he
    have hmem := List.mem_flatMap.2 ⟨s, hs, base_mem_expand he⟩
    rw [hexpand] at hmem
    exact haddress _ hmem
  have hscan : scanSigned .start ((MemoryTracer.run calls).shutdown id stream)
      = dumped.flatMap (streamNumbers id stream) := by
    rw [hfile]
    exact (Lib.Scans.flatMap fun s hs => scans_dumpStream id stream (hbase s hs)).eq rfl
  have hinit : At { numInstancesRequired, startInstance } 0 0 0 0 [] :=
    ⟨rfl, rfl, rfl, rfl, rfl, rfl⟩
  rcases feed_dumped id stream dumped hinit (by rwa [hexpand, Nat.zero_add]) with
    ⟨new, last, hat, haccesses, hconsecutive, -⟩
  have hentries : entries = new := by
    have hmemset := hat.memset_eq
    simp only [entries, parseMemoryTrace, hscan]
    rw [parseAll_eq_feed _ _ _ (Nat.lt_succ_self _), hmemset, List.nil_append]
  rw [hentries, haccesses, hexpand]
  rw [hexpand, Nat.zero_add] at hconsecutive
  exact ⟨rfl, hconsecutive⟩

theorem parseMemoryTrace_shutdown_run_dump :
    let calls : List MemoryCall :=
      [.mem 7 100 4 0 0 0 0, .mem 7 40 4 0 0 0 0, .dump, .mem 7 20 4 24 4 0 0]
    (∀ r ∈ recorded calls 7 .read, r.address.toNat < 2 ^ 63) ∧
    let entries := parseMemoryTrace 10 0 ((MemoryTracer.run calls).shutdown 7 .read)
    entries.flatMap MemSetEntry.accesses = recorded calls 7 .read ∧
      Consecutive 0 entries (recorded calls 7 .read).length := by
  intro calls
  have haddress : ∀ r ∈ recorded calls 7 .read, r.address.toNat < 2 ^ 63 := by decide
  exact ⟨haddress, parseMemoryTrace_shutdown_run calls 7 .read haddress (by decide) 10 0⟩

/-- `2 ^ 64 + 1` reads of one address are written as one read. -/
theorem not_parseMemoryTrace_shutdown_run :
    let calls := MemoryTracer.readsOf 7 100 8 (2 ^ 64 + 1)
    (∀ r ∈ recorded calls 7 .read, r.address.toNat < 2 ^ 63) ∧
      (recorded calls 7 .read).length = 2 ^ 64 + 1 ∧
      parseMemoryTrace 10 0 ((MemoryTracer.run calls).shutdown 7 .read)
        = [⟨100, 0, 8, 0, 0, 0, 0⟩] ∧
      ¬ (parseMemoryTrace 10 0 ((MemoryTracer.run calls).shutdown 7 .read)).flatMap
        MemSetEntry.accesses = recorded calls 7 .read := by
  intro calls
  have hrecorded : recorded calls 7 .read = List.replicate (2 ^ 64 + 1) ⟨100, 8⟩ :=
    MemoryTracer.recorded_readsOf 7 100 (by decide) _
  have hlength : (recorded calls 7 .read).length = 2 ^ 64 + 1 := by
    rw [hrecorded]
    exact List.length_replicate
  have hentries : parseMemoryTrace 10 0 ((MemoryTracer.run calls).shutdown 7 .read)
      = [⟨100, 0, 8, 0, 0, 0, 0⟩] := by
    rw [MemoryTracer.shutdown_readsOf 7 100 (by decide),
      TracerMemSet.recordAll_replicate ⟨100, 8⟩ (Nat.le_refl _)]
    decide +kernel
  refine ⟨?_, hlength, hentries, ?_⟩
  · intro r hr
    rw [hrecorded] at hr
    rw [List.eq_of_mem_replicate hr]
    decide
  · intro hsame
    have hlen := congrArg List.length hsame
    rw [hlength, hentries] at hlen
    simp [MemSetEntry.instances] at hlen

end CamAlias
