import CamAlias.Lexer.Delivery
import CamAlias.Lib.LowerBound
import CamAlias.Memory.RoundTrip

/-!
# Chunk — reading a memory trace in pieces

`MemoryTraceStreamer` hands out the references of a stream in chunks of requested sizes.  The
lexer reads the file block by block and may stop inside a block as soon as enough instances are
there; what a chunk does not need stays in `remainder`.

Whether the end of the file is seen makes no difference: behind the last number nothing is left to
be read for a request that can be met.

* `Reading.fill`: more of the file is read;
* `Streaming.getNextChunk`: one request;
* `getNextChunks_eq`: the chunks of all requests are the stream.
-/

namespace CamAlias

open MemoryTraceLex

/-! ## What the lexer does not look at

The entries already pushed and the two instance numbers of a request only decide where a call
stops. -/

namespace MemoryTraceLex

def withSet (m : MemoryTraceLex) (memset : List MemSetEntry)
    (numInstancesRequired startInstance : BitVec 64) : MemoryTraceLex :=
  { m with memset, numInstancesRequired, startInstance }

theorem readMemSetEntry_withSet (m : MemoryTraceLex) (t : Int) : ∃ new,
    (m.readMemSetEntry t).memset = m.memset ++ new ∧
      ∀ memset required start, (m.withSet memset required start).readMemSetEntry t
        = (m.readMemSetEntry t).withSet (memset ++ new) required start := by
  by_cases h0 : m.group_state = 0
  · exact ⟨[], by simp [readMemSetEntry, h0, getAbsoluteBase],
      fun _ _ _ => by simp [readMemSetEntry, h0, getAbsoluteBase, withSet]⟩
  · by_cases h1 : m.group_state = 1
    · exact ⟨[], by simp [readMemSetEntry, h1],
        fun _ _ _ => by simp [readMemSetEntry, h1, withSet]⟩
    · by_cases h2 : m.group_state = 2
      · exact ⟨[], by simp [readMemSetEntry, h2],
          fun _ _ _ => by simp [readMemSetEntry, h2, withSet]⟩
      · by_cases h3 : m.group_state = 3
        · exact ⟨newEntries m.currBase m.currStride m.currLength m.nextExpectedInstance
              (Lib.strtoullSigned t),
            by simp [readMemSetEntry, h3, addNumRepsToSet, endOfEntry],
            fun _ _ _ => by simp [readMemSetEntry, h3, addNumRepsToSet, endOfEntry, withSet]⟩
        · exact ⟨[], by simp [readMemSetEntry, h0, h1, h2, h3],
            fun _ _ _ => by simp [readMemSetEntry, h0, h1, h2, h3, withSet]⟩

theorem number_withSet (m : MemoryTraceLex) (t : Int) : ∃ new,
    (m.number t).1.memset = m.memset ++ new ∧
      ∀ memset required start, ((m.withSet memset required start).number t).1
        = (m.number t).1.withSet (memset ++ new) required start := by
  by_cases h24 : m.state = 2 ∨ m.state = 4
  · rcases m.readMemSetEntry_withSet t with ⟨new, hnew, hwith⟩
    refine ⟨new, by rw [number_eq_readMemSetEntry m h24, hnew], fun memset required start => ?_⟩
    rw [number_eq_readMemSetEntry m h24,
      number_eq_readMemSetEntry (m.withSet memset required start) h24, hwith]
  · -- no other state pushes an entry
    have h2 : m.state ≠ 2 := fun h => h24 (Or.inl h)
    have h4 : m.state ≠ 4 := fun h => h24 (Or.inr h)
    by_cases h0 : m.state = 0
    · exact ⟨[], by simp [number, h0], fun _ _ _ => by simp [number, h0, withSet]⟩
    · by_cases h1 : m.state = 1
      · by_cases ht : 0 < Lib.strtoullSigned t
        · exact ⟨[], by simp only [number, h1, if_pos ht, List.append_nil]; rfl,
            fun _ _ _ => by simp only [number, h1, if_pos ht, withSet, List.append_nil]; rfl⟩
        · exact ⟨[], by simp only [number, h1, if_neg ht, List.append_nil]; rfl,
            fun _ _ _ => by simp only [number, h1, if_neg ht, withSet, List.append_nil]; rfl⟩
      · by_cases h3 : m.state = 3
        · by_cases ht : 0 < Lib.strtoullSigned t
          · exact ⟨[], by simp only [number, h3, if_pos ht, List.append_nil]; rfl,
              fun _ _ _ => by simp only [number, h3, if_pos ht, withSet, List.append_nil]; rfl⟩
          · exact ⟨[], by simp only [number, h3, if_neg ht, List.append_nil]; rfl,
              fun _ _ _ => by simp only [number, h3, if_neg ht, withSet, List.append_nil]; rfl⟩
        · exact ⟨[], by simp [number, h0, h1, h2, h3, h4],
            fun _ _ _ => by simp [number, h0, h1, h2, h3, h4, withSet]⟩

theorem feed_withSet (m : MemoryTraceLex) (ts : List Int) : ∃ new,
    (m.feed ts).memset = m.memset ++ new ∧
      ∀ memset required start, (m.withSet memset required start).feed ts
        = (m.feed ts).withSet (memset ++ new) required start := by
  induction ts generalizing m with
  | nil => exact ⟨[], by simp, by simp⟩
  | cons t ts ih =>
      rcases number_withSet m t with ⟨new, hnew, hwith⟩
      rcases ih (m.number t).1 with ⟨new', hnew', hwith'⟩
      refine ⟨new ++ new', ?_, fun memset required start => ?_⟩
      · rw [feed_cons, hnew', hnew, List.append_assoc]
      · rw [feed_cons, hwith, hwith', feed_cons, List.append_assoc]

/-- The rule for `NUMBER` as the action of a lexer. -/
def lexToken (mtl : MemoryTraceLex) (t : Int) : Except Fault (MemoryTraceLex × Bool) :=
  .ok (mtl.number t)

theorem lexUntil_eq (ts : List Int) :
    ∀ mtl : MemoryTraceLex, lexUntil lexToken mtl ts = .ok (mtl.memorytracelex ts) := by
  induction ts with
  | nil => exact fun _ => rfl
  | cons t ts ih =>
      intro mtl
      simp only [lexUntil, lexToken, memorytracelex]
      split
      · rename_i h
        cases h
      · rename_i h
        rw [Except.ok.inj h]
      · rename_i h
        rw [Except.ok.inj h]
        exact ih _

/-- A call of the lexer reads the first of the numbers. -/
theorem exists_feed_of_lexUntil {mtl mtl' : MemoryTraceLex} {ts rest : List Int} {more : Bool}
    (h : lexUntil lexToken mtl ts = .ok (mtl', rest, more)) :
    ∃ us, ts = us ++ rest ∧ mtl' = mtl.feed us := by
  rw [lexUntil_eq] at h
  rcases memorytracelex_prefix ts mtl with ⟨us, hsplit, hfeed, -⟩
  rw [Except.ok.inj h] at hsplit hfeed
  exact ⟨us, hsplit, hfeed⟩

end MemoryTraceLex

/-! ## The streamer -/

structure MemoryTraceStreamer where
  remainder : List MemSetEntry
  mtl : MemoryTraceLex
  parser : BlockReader Int
  status : Bool

namespace MemoryTraceStreamer

/-- `MemoryTraceStreamer::MemoryTraceStreamer` on a file that comes in these reads. -/
def new (reads : List BzRead) : MemoryTraceStreamer where
  remainder := []
  mtl := {}
  parser := BlockReader.new reads
  status := true

/-- `getNumBufferedInstances`. -/
def getNumBufferedInstances (memset : List MemSetEntry) : BitVec 64 :=
  match memset.head?, memset.getLast? with
  | some front, some back => back.end - front.start + 1
  | _, _ => 0

/-- `while (getNumBufferedInstances(chunk) < numInstances && status)`. -/
def fill (numInstances : BitVec 64) : Nat → BlockReader Int → MemoryTraceLex → Bool →
    Except Fault (BlockReader Int × MemoryTraceLex × Bool)
  | fuel, parser, mtl, status =>
      if getNumBufferedInstances mtl.memset < numInstances ∧ status = true then
        match fuel with
        | 0 => .error .noFuel
        | fuel + 1 =>
            match parser.parseBlock memoryScanner lexToken mtl with
            | .error e => .error e
            | .ok (mtl, parser, status) => fill numInstances fuel parser mtl status
      else .ok (parser, mtl, status)

/-- The chunk up to `lastInstance`, and what goes into `remainder`. -/
def split (lastInstance : BitVec 64) (chunk : List MemSetEntry) :
    List MemSetEntry × List MemSetEntry :=
  let straddleEntry := Lib.lowerBound (fun e => e.end < lastInstance) chunk
  match chunk[straddleEntry]? with
  | none => (chunk, [])
  | some e =>
      if lastInstance < e.end then
        let (stays, rest) := e.splitOffEnd (e.end - lastInstance)
        (chunk.take straddleEntry ++ [stays], rest :: chunk.drop (straddleEntry + 1))
      else (chunk.take (straddleEntry + 1), chunk.drop (straddleEntry + 1))

/-- `getNextChunk`. -/
def getNextChunk (s : MemoryTraceStreamer) (numInstances : BitVec 64) (allowOvershoot : Bool) :
    Except Fault (List MemSetEntry × MemoryTraceStreamer) :=
  if numInstances = 0 then .ok ([], s)
  else
    let mtl := { s.mtl with memset := s.remainder, numInstancesRequired := numInstances }
    match fill numInstances (s.parser.calls memoryScanner + 1) s.parser mtl s.status with
    | .error e => .error e
    | .ok (parser, mtl, status) =>
        match mtl.memset.head? with
        | none => .ok ([], { remainder := [], mtl, parser, status })
        | some front =>
            -- what has been read beyond the chunk is kept for the next one
            let (chunk, remainder) := split (front.start + numInstances - 1) mtl.memset
            match chunk.getLast? with
            | none => .error .outOfRange
            | some back =>
                if allowOvershoot || getNumBufferedInstances chunk = numInstances then
                  .ok (chunk, { remainder, mtl := { mtl with startInstance := back.end + 1 },
                                parser, status })
                else .error .assertFailed

/-- The chunks of several requests. -/
def getNextChunks : MemoryTraceStreamer → List (BitVec 64) →
    Except Fault (List (List MemSetEntry) × MemoryTraceStreamer)
  | s, [] => .ok ([], s)
  | s, n :: ns =>
      match s.getNextChunk n false with
      | .error e => .error e
      | .ok (chunk, s') =>
          match getNextChunks s' ns with
          | .error e => .error e
          | .ok (chunks, s'') => .ok (chunk :: chunks, s'')

/-! ## Reading on -/

/-- The lexer has been given `used`, and the numbers `ts` still to come would push `rest`. -/
structure Reading (used ts : List Int) (mtl : MemoryTraceLex) (rest : List MemSetEntry) : Prop where
  mtl_eq : mtl = (feed {} used).withSet mtl.memset mtl.numInstancesRequired mtl.startInstance
  memset_eq : (feed {} (used ++ ts)).memset = (feed {} used).memset ++ rest

/-- The numbers that the buffers of the parser hold, or none once it has returned 0. -/
inductive ToCome : BlockReader Int → Bool → List Int → Prop
  | more {parser : BlockReader Int} {ts : List Int} {seen : Bool}
      (h : BlockReader.Course memoryScanner parser ts seen) : ToCome parser true ts
  | nothing {parser : BlockReader Int} : ToCome parser false []

variable {used ts us : List Int} {parser : BlockReader Int} {mtl : MemoryTraceLex} {status : Bool}
  {rest : List MemSetEntry}

/-- Nothing is left in the stream when everything has been read. -/
theorem Reading.rest_eq_nil (h : Reading used [] mtl rest) : rest = [] := by
  have hrest := h.memset_eq
  rw [List.append_nil] at hrest
  exact List.self_eq_append_right.1 hrest

/-- A request only changes what the lexer does not look at. -/
theorem Reading.withSet (h : Reading used ts mtl rest) (memset : List MemSetEntry)
    (required start : BitVec 64) : Reading used ts (mtl.withSet memset required start) rest := by
  refine ⟨?_, h.memset_eq⟩
  rw [h.mtl_eq]
  rfl

/-- The lexer is given the next numbers. -/
theorem Reading.feed (h : Reading used (us ++ ts) mtl rest) :
    ∃ new rest', rest = new ++ rest' ∧ (mtl.feed us).memset = mtl.memset ++ new ∧
      Reading (used ++ us) ts (mtl.feed us) rest' := by
  rcases feed_withSet (MemoryTraceLex.feed {} used) us with ⟨new, hnew, hwith⟩
  rcases feed_withSet (MemoryTraceLex.feed {} (used ++ us)) ts with ⟨rest', hrest', -⟩
  have hmtl : mtl.feed us = (MemoryTraceLex.feed {} (used ++ us)).withSet (mtl.memset ++ new)
      mtl.numInstancesRequired mtl.startInstance := by
    rw [feed_append, ← hwith, ← h.mtl_eq]
  refine ⟨new, rest', ?_, by rw [hmtl]; rfl, ⟨by rw [hmtl]; rfl, ?_⟩⟩
  · have hall := h.memset_eq
    rw [← List.append_assoc, feed_append, hrest', feed_append, hnew, List.append_assoc] at hall
    exact (List.append_cancel_left hall).symm
  · rw [feed_append, hrest']

/-- What the loop ends with: enough instances, or the whole stream.  It only gives up behind the last
number, where there are too few. -/
inductive Filled (n : BitVec 64) (mtl : MemoryTraceLex) (rest : List MemSetEntry) :
    Except Fault (BlockReader Int × MemoryTraceLex × Bool) → Prop
  | filled {used ts : List Int} {parser' : BlockReader Int} {mtl' : MemoryTraceLex} {status' : Bool}
      {new rest' : List MemSetEntry} (hrest : rest = new ++ rest')
      (hmemset : mtl'.memset = mtl.memset ++ new) (hreading : Reading used ts mtl' rest')
      (htocome : ToCome parser' status' ts)
      (henough : n ≤ getNumBufferedInstances mtl'.memset ∨ rest' = []) :
      Filled n mtl rest (.ok (parser', mtl', status'))
  | gaveUp (hshort : getNumBufferedInstances (mtl.memset ++ rest) < n) :
      Filled n mtl rest (.error .abort)

/-- More of the stream has been read before. -/
theorem Filled.behind {n : BitVec 64} {mtl' : MemoryTraceLex} {new rest' : List MemSetEntry}
    {r : Except Fault (BlockReader Int × MemoryTraceLex × Bool)} (h : Filled n mtl' rest' r)
    (hmemset : mtl'.memset = mtl.memset ++ new) : Filled n mtl (new ++ rest') r := by
  cases h with
  | @filled _ _ _ _ _ new' rest'' hrest hmemset' hreading htocome henough =>
      have hall : new ++ rest' = new ++ new' ++ rest'' := by rw [hrest, List.append_assoc]
      refine .filled hall ?_ hreading htocome henough
      rw [hmemset', hmemset, List.append_assoc]
  | gaveUp hshort =>
      refine .gaveUp ?_
      rwa [← List.append_assoc, ← hmemset]

theorem Reading.fill (n : BitVec 64) (fuel : Nat) : ∀ {used ts : List Int}
    {parser : BlockReader Int} {mtl : MemoryTraceLex} {status : Bool} {rest : List MemSetEntry},
    Reading used ts mtl rest → ToCome parser status ts →
    (status = true → parser.calls memoryScanner < fuel) →
    Filled n mtl rest (MemoryTraceStreamer.fill n fuel parser mtl status) := by
  induction fuel with
  | zero =>
      intro used ts parser mtl status rest h htocome hfuel
      cases htocome with
      | more _ => exact absurd (hfuel rfl) (Nat.not_lt_zero _)
      | nothing =>
          have hfill : MemoryTraceStreamer.fill n 0 parser mtl false = .ok (parser, mtl, false) := by
            simp [MemoryTraceStreamer.fill]
          rw [hfill]
          exact .filled (List.nil_append rest).symm (List.append_nil _).symm h .nothing
            (Or.inr h.rest_eq_nil)
  | succ fuel ih =>
      intro used ts parser mtl status rest h htocome hfuel
      by_cases hcond : getNumBufferedInstances mtl.memset < n ∧ status = true
      · rw [MemoryTraceStreamer.fill, if_pos hcond]
        cases htocome with
        | nothing => exact absurd hcond.2 Bool.false_ne_true
        | more hcourse =>
            have hlt := hfuel rfl
            -- the numbers of one call, and the loop behind it
            have hstep : ∀ {us ts' : List Int} {parser' : BlockReader Int} {status' : Bool},
                ts = us ++ ts' → ToCome parser' status' ts' →
                (status' = true → parser'.calls memoryScanner < fuel) →
                Filled n mtl rest (MemoryTraceStreamer.fill n fuel parser' (mtl.feed us) status') := by
              rintro us ts' parser' status' rfl htocome' hfuel'
              rcases h.feed with ⟨new, rest', rfl, hmemset, hreading⟩
              exact (ih hreading htocome' hfuel').behind hmemset
            cases hcourse.call lexToken mtl with
            | failed hlex hcall =>
                rw [lexUntil_eq] at hlex
                cases hlex
            | @stopped mtl' ts' parser' hlex hcall hless hrest =>
                rcases exists_feed_of_lexUntil hlex with ⟨us, hsplit, rfl⟩
                rw [hcall]
                exact hstep hsplit (.more hrest) fun _ => by omega
            | @wentOn mtl' us ts' parser' hsplit hlex hcall hless hrest =>
                rcases exists_feed_of_lexUntil hlex with ⟨us', rfl, rfl⟩
                rw [List.append_nil] at hsplit
                rw [hcall]
                exact hstep hsplit (.more hrest) fun _ => by omega
            | @done mtl' parser' hlex hcall hseen =>
                rcases exists_feed_of_lexUntil hlex with ⟨us, hsplit, rfl⟩
                rw [hcall]
                exact hstep hsplit .nothing fun htrue => absurd htrue Bool.false_ne_true
            | gaveUp hts hcall hseen =>
                rcases hts with rfl
                rw [hcall]
                refine .gaveUp ?_
                rw [h.rest_eq_nil, List.append_nil]
                exact hcond.1
      · rw [MemoryTraceStreamer.fill, if_neg hcond]
        refine .filled (List.nil_append rest).symm (List.append_nil _).symm h htocome ?_
        cases htocome with
        | more _ => exact Or.inl (BitVec.not_lt.1 fun hlt => hcond ⟨hlt, rfl⟩)
        | nothing => exact Or.inr h.rest_eq_nil

/-! ## Splitting -/

/-- The entry that the last instance lies in. -/
theorem exists_straddle (last : BitVec 64) {chunk : List MemSetEntry} : ∀ {k m : Nat},
    Consecutive k chunk m → k ≤ last.toNat → last.toNat < m →
    ∃ as e bs, chunk = as ++ e :: bs ∧ Consecutive k as e.start.toNat ∧ e.start ≤ last ∧
      last ≤ e.end ∧ Consecutive (e.end.toNat + 1) bs m := by
  induction chunk with
  | nil =>
      intro k m h hk hm
      have heq : k = m := h
      omega
  | cons e chunk ih =>
      intro k m h hk hm
      rcases h with ⟨rfl, hle, hrest⟩
      by_cases hend : last ≤ e.end
      · exact ⟨[], e, chunk, rfl, rfl, BitVec.le_def.2 hk, hend, hrest⟩
      · have hlt : e.end.toNat < last.toNat := by
          rw [BitVec.le_def] at hend
          omega
        rcases ih hrest hlt hm with ⟨as, e', bs, rfl, has, hstart, hend', hbs⟩
        exact ⟨e :: as, e', bs, rfl, ⟨rfl, hle, has⟩, hstart, hend', hbs⟩

/-- The binary search finds it. -/
theorem lowerBound_straddle {last : BitVec 64} {as bs : List MemSetEntry} {e : MemSetEntry}
    {k m : Nat} (has : Consecutive k as e.start.toNat) (hstart : e.start ≤ last)
    (hend : last ≤ e.end) (hbs : Consecutive (e.end.toNat + 1) bs m) :
    Lib.lowerBound (fun e => e.end < last) (as ++ e :: bs) = as.length := by
  rw [BitVec.le_def] at hstart hend
  refine Lib.lowerBound_append (fun a ha => ?_) fun b hb => ?_
  · have := has.end_lt ha
    rw [decide_eq_true_eq, BitVec.lt_def]
    omega
  · rw [decide_eq_false_iff_not, BitVec.lt_def]
    rcases List.mem_cons.1 hb with rfl | hb
    · omega
    · have := hbs.le_end hb
      omega

/-- The straddling entry keeps its references. -/
theorem accesses_splitOffEnd {e : MemSetEntry} {last : BitVec 64} (hstart : e.start ≤ last)
    (hend : last < e.end) :
    let s := e.splitOffEnd (e.end - last)
    s.1.start = e.start ∧ s.1.end = last ∧ s.2.start = last + 1 ∧ s.2.end = e.end ∧
      s.1.accesses ++ s.2.accesses = e.accesses := by
  have hremaining : e.getNumInstances - (e.end - last) = last - e.start + 1 := by
    rw [MemSetEntry.getNumInstances]
    bv_omega
  have hfirst : e.end - (e.end - last) = last := by bv_omega
  have hsecond : e.start + (last - e.start + 1) = last + 1 := by bv_omega
  have hcount : last - e.start + 1 = BitVec.ofNat 64 ((last - e.start).toNat + 1) := by
    rw [BitVec.ofNat_add, BitVec.ofNat_toNat, BitVec.setWidth_eq]
    rfl
  have hsum : (e.end - e.start).toNat + 1
      = (last - e.start).toNat + 1 + ((e.end - (last + 1)).toNat + 1) := by bv_omega
  simp only [MemSetEntry.splitOffEnd, hremaining, hfirst, hsecond]
  refine ⟨trivial, trivial, trivial, trivial, ?_⟩
  simp only [MemSetEntry.accesses_eq_references, MemSetEntry.instances, hsum, references_add, hcount]

/-- The chunk ends with the last instance asked for, and the remainder begins behind it. -/
theorem split_eq (last : BitVec 64) {chunk : List MemSetEntry} {k m : Nat}
    (h : Consecutive k chunk m) (hk : k ≤ last.toNat) (hm : last.toNat < m) :
    Consecutive k (split last chunk).1 (last.toNat + 1) ∧
      Consecutive (last.toNat + 1) (split last chunk).2 m ∧
      (split last chunk).1.flatMap MemSetEntry.accesses
        ++ (split last chunk).2.flatMap MemSetEntry.accesses
          = chunk.flatMap MemSetEntry.accesses := by
  rcases exists_straddle last h hk hm with ⟨as, e, bs, rfl, has, hstart, hend, hbs⟩
  have hget : (as ++ e :: bs)[as.length]? = some e := by simp
  have hbehind : (as ++ e :: bs).drop (as.length + 1) = bs := by simp
  simp only [split, lowerBound_straddle has hstart hend hbs, hget, hbehind]
  by_cases hlt : last < e.end
  · rcases accesses_splitOffEnd hstart hlt with ⟨hs1, he1, hs2, he2, hacc⟩
    have hnext : (last + 1).toNat = last.toNat + 1 := by bv_omega
    rw [BitVec.le_def] at hstart
    rw [BitVec.lt_def] at hlt
    simp only [BitVec.lt_def, hlt, if_true, List.take_left]
    refine ⟨has.append ⟨by rw [hs1], by rw [hs1, he1]; exact hstart, by rw [he1]; rfl⟩,
      ⟨by rw [hs2, hnext], by rw [hs2, he2, hnext]; exact hlt, by rw [he2]; exact hbs⟩, ?_⟩
    simp only [List.flatMap_append, List.flatMap_cons, List.flatMap_nil, List.append_nil,
      List.append_assoc]
    rw [← hacc, List.append_assoc]
  · have heq : last = e.end := by bv_omega
    rw [BitVec.le_def] at hstart
    have hfront : (as ++ e :: bs).take (as.length + 1) = as ++ [e] := by
      rw [List.append_cons, List.take_left' (by simp)]
    rw [if_neg hlt, hfront, heq]
    refine ⟨has.append ⟨rfl, heq ▸ hstart, rfl⟩, hbs, ?_⟩
    simp only [List.flatMap_append, List.flatMap_cons, List.flatMap_nil, List.append_nil,
      List.append_assoc]

/-- No entry changes its length or its stride. -/
theorem shape_of_mem_split {last : BitVec 64} {chunk : List MemSetEntry} {e : MemSetEntry}
    (he : e ∈ (split last chunk).1 ++ (split last chunk).2) :
    ∃ e' ∈ chunk, e'.length = e.length ∧ e'.stride = e.stride := by
  let straddleEntry := Lib.lowerBound (fun e => e.end < last) chunk
  have hstraddle : straddleEntry = Lib.lowerBound (fun e => e.end < last) chunk := rfl
  simp only [split, ← hstraddle] at he
  cases hget : chunk[straddleEntry]? with
  | none => exact ⟨e, by simpa [hget] using he, rfl, rfl⟩
  | some straddle =>
      have hmem := List.mem_of_getElem? hget
      simp only [hget] at he
      by_cases hlt : last < straddle.end
      · simp only [if_pos hlt, MemSetEntry.splitOffEnd, List.mem_append, List.mem_cons,
          List.not_mem_nil, or_false] at he
        rcases he with (he | rfl) | (rfl | he)
        · exact ⟨e, List.mem_of_mem_take he, rfl, rfl⟩
        · exact ⟨straddle, hmem, rfl, rfl⟩
        · exact ⟨straddle, hmem, rfl, rfl⟩
        · exact ⟨e, List.mem_of_mem_drop he, rfl, rfl⟩
      · simp only [if_neg hlt, List.take_append_drop] at he
        exact ⟨e, he, rfl, rfl⟩

theorem getNumBufferedInstances_eq {n m : Nat} {es : List MemSetEntry} (h : Consecutive n es m) :
    getNumBufferedInstances es = BitVec.ofNat 64 (m - n) := by
  cases es with
  | nil =>
      have heq : n = m := h
      simp [getNumBufferedInstances, heq]
  | cons e es =>
      rcases h.getLast (by simp) with ⟨back, hback, hm⟩
      have hle := h.2.2.le
      have hstart := h.1
      have hend := h.2.1
      simp only [getNumBufferedInstances, List.head?_cons, hback]
      bv_omega

/-! ## Requests -/

/-- `k` references have been handed out; the others are in `remainder`, or have not been read. -/
structure Streaming (strides : BitVec 64 → BitVec 64 → Prop) (references : List Reference) (k : Nat)
    (s : MemoryTraceStreamer) : Prop where
  few : references.length < 2 ^ 64
  exists_rest : ∃ used ts rest, Reading used ts s.mtl rest ∧ ToCome s.parser s.status ts ∧
    Consecutive k (s.remainder ++ rest) references.length ∧
    (s.remainder ++ rest).flatMap MemSetEntry.accesses = references.drop k ∧
    Strided strides (s.remainder ++ rest)

variable {strides : BitVec 64 → BitVec 64 → Prop} {references : List Reference}
  {s : MemoryTraceStreamer} {k : Nat} {n : BitVec 64}

theorem Streaming.le (h : Streaming strides references k s) : k ≤ references.length := by
  rcases h.exists_rest with ⟨used, ts, rest, -, -, hconsecutive, -⟩
  exact hconsecutive.le

/-- The loop of a request. -/
theorem Streaming.fill (h : Streaming strides references k s) (n : BitVec 64) :
    ∃ rest, Consecutive k (s.remainder ++ rest) references.length ∧
      (s.remainder ++ rest).flatMap MemSetEntry.accesses = references.drop k ∧
      Strided strides (s.remainder ++ rest) ∧
      Filled n { s.mtl with memset := s.remainder, numInstancesRequired := n } rest
        (MemoryTraceStreamer.fill n (s.parser.calls memoryScanner + 1) s.parser
          { s.mtl with memset := s.remainder, numInstancesRequired := n } s.status) := by
  rcases h.exists_rest with ⟨used, ts, rest, hreading, htocome, hconsecutive, hacc, hstrided⟩
  exact ⟨rest, hconsecutive, hacc, hstrided,
    (hreading.withSet s.remainder n s.mtl.startInstance).fill n _ htocome fun _ => Nat.lt_succ_self _⟩

/-- One request returns the next `n` references. -/
theorem Streaming.getNextChunk (h : Streaming strides references k s) (n : BitVec 64)
    (hn : k + n.toNat ≤ references.length) :
    ∃ chunk s', s.getNextChunk n false = .ok (chunk, s') ∧
      Streaming strides references (k + n.toNat) s' ∧ Consecutive k chunk (k + n.toNat) ∧
      chunk.flatMap MemSetEntry.accesses = (references.drop k).take n.toNat ∧
      Strided strides chunk := by
  have hfew := h.few
  by_cases hzero : n = 0
  · subst hzero
    exact ⟨[], s, by simp [MemoryTraceStreamer.getNextChunk], h, rfl, by simp, by simp [Strided]⟩
  · have hpos : 0 < n.toNat := by bv_omega
    rcases h.fill n with ⟨rest, hconsecutive, hacc, hstrided, hfill⟩
    generalize hresult : MemoryTraceStreamer.fill n (s.parser.calls memoryScanner + 1) s.parser
      { s.mtl with memset := s.remainder, numInstancesRequired := n } s.status = result at hfill
    cases hfill with
    | gaveUp hshort =>
        -- all of the stream is there, so there are enough
        simp only [getNumBufferedInstances_eq hconsecutive] at hshort
        bv_omega
    | @filled used ts parser' mtl' status' new rest' hrest hmemset hreading htocome henough =>
        have hmemset : mtl'.memset = s.remainder ++ new := hmemset
        rw [hrest, ← List.append_assoc, ← hmemset] at hconsecutive hacc hstrided
        rcases Consecutive.append_iff.1 hconsecutive with ⟨m, hchunk, hrest'⟩
        have hm : k + n.toNat ≤ m := by
          rcases henough with hle | hnil
          · rw [getNumBufferedInstances_eq hchunk] at hle
            have hkm := hchunk.le
            have hmlen := hrest'.le
            bv_omega
          · rw [hnil] at hrest'
            have heq : m = references.length := hrest'
            omega
        cases hhead : mtl'.memset with
        | nil =>
            rw [hhead] at hchunk
            have heq : k = m := hchunk
            omega
        | cons front es =>
            have hstart : front.start.toNat = k := by
              rw [hhead] at hchunk
              exact hchunk.1
            have hlast : (front.start + n - 1).toNat = k + n.toNat - 1 := by bv_omega
            rcases split_eq (front.start + n - 1) hchunk (by omega) (by omega) with
              ⟨hfirst, hsecond, hsplit⟩
            rw [hlast, show k + n.toNat - 1 + 1 = k + n.toNat by omega] at hfirst hsecond
            have hne : (split (front.start + n - 1) mtl'.memset).1 ≠ [] := by
              intro hnil
              rw [hnil] at hfirst
              have heq : k = k + n.toNat := hfirst
              omega
            rcases hfirst.getLast hne with ⟨back, hback, -⟩
            have hcount :
                getNumBufferedInstances (split (front.start + n - 1) mtl'.memset).1 = n := by
              rw [getNumBufferedInstances_eq hfirst, Nat.add_sub_cancel_left, BitVec.ofNat_toNat,
                BitVec.setWidth_eq]
            let s' : MemoryTraceStreamer :=
              { remainder := (split (front.start + n - 1) mtl'.memset).2
                mtl := mtl'.withSet mtl'.memset mtl'.numInstancesRequired (back.end + 1)
                parser := parser'
                status := status' }
            have hchunk' : s.getNextChunk n false
                = .ok ((split (front.start + n - 1) mtl'.memset).1, s') := by
              have hhead' : mtl'.memset.head? = some front := by rw [hhead, List.head?_cons]
              simp only [MemoryTraceStreamer.getNextChunk, if_neg hzero, hresult, hhead', hback,
                hcount, decide_true, Bool.or_true, if_true]
              rfl
            have hlen := hfirst.length_accesses
            have hall : (split (front.start + n - 1) mtl'.memset).1.flatMap MemSetEntry.accesses
                ++ ((split (front.start + n - 1) mtl'.memset).2 ++ rest').flatMap
                    MemSetEntry.accesses = references.drop k := by
              rw [List.flatMap_append, ← List.append_assoc, hsplit, ← List.flatMap_append, hacc]
            have hkept : Strided strides ((split (front.start + n - 1) mtl'.memset).1
                ++ (split (front.start + n - 1) mtl'.memset).2) := by
              intro e he
              rcases shape_of_mem_split he with ⟨e', he', hlength, hstride⟩
              rw [← hlength, ← hstride]
              exact hstrided e' (List.mem_append_left rest' he')
            refine ⟨_, s', hchunk', ⟨hfew, used, ts, rest', hreading.withSet _ _ _, htocome,
              hsecond.append hrest', ?_, fun e he => ?_⟩, hfirst, ?_,
              fun e he => hkept e (List.mem_append_left _ he)⟩
            · rw [← List.drop_drop, ← hall, List.drop_left' (by omega)]
            · rcases List.mem_append.1 he with he | he
              · exact hkept e (List.mem_append_right _ he)
              · exact hstrided e (List.mem_append_right _ he)
            · rw [← hall, List.take_left' (by omega)]

/-- A request for more than there is fails, unless there is nothing.  Behind instance `2 ^ 64` the
number of the last instance would wrap around. -/
theorem Streaming.getNextChunk_short (h : Streaming strides references k s)
    (hn : references.length < k + n.toNat) (hle : k + n.toNat ≤ 2 ^ 64) :
    (∃ f, s.getNextChunk n false = .error f) ∨ ∃ s', s.getNextChunk n false = .ok ([], s') := by
  have hfew := h.few
  have hk := h.le
  have hzero : n ≠ 0 := by bv_omega
  rcases h.fill n with ⟨rest, hconsecutive, -, -, hfill⟩
  generalize hresult : MemoryTraceStreamer.fill n (s.parser.calls memoryScanner + 1) s.parser
    { s.mtl with memset := s.remainder, numInstancesRequired := n } s.status = result at hfill
  cases hfill with
  | gaveUp _ =>
      refine Or.inl ⟨.abort, ?_⟩
      simp only [MemoryTraceStreamer.getNextChunk, if_neg hzero, hresult]
  | @filled used ts parser' mtl' status' new rest' hrest hmemset hreading htocome henough =>
      have hmemset : mtl'.memset = s.remainder ++ new := hmemset
      rw [hrest, ← List.append_assoc, ← hmemset] at hconsecutive
      rcases Consecutive.append_iff.1 hconsecutive with ⟨m, hchunk, hrest'⟩
      have hm := hrest'.le
      cases hhead : mtl'.memset with
      | nil =>
          refine Or.inr ⟨{ remainder := [], mtl := mtl', parser := parser', status := status' }, ?_⟩
          have hhead' : mtl'.memset.head? = none := by rw [hhead, List.head?_nil]
          simp only [MemoryTraceStreamer.getNextChunk, if_neg hzero, hresult, hhead']
      | cons front es =>
          -- everything has been read, and the chunk is all of it
          have hstart : front.start.toNat = k := by
            rw [hhead] at hchunk
            exact hchunk.1
          have hlast : (front.start + n - 1).toNat = k + n.toNat - 1 := by bv_omega
          have hsplit : split (front.start + n - 1) mtl'.memset = (mtl'.memset, []) := by
            have hbelow : Lib.lowerBound (fun e => e.end < front.start + n - 1) mtl'.memset
                = mtl'.memset.length := by
              have hall : ∀ e ∈ mtl'.memset, decide (e.end < front.start + n - 1) = true := by
                intro e he
                have hlt := hchunk.end_lt he
                rw [decide_eq_true_eq, BitVec.lt_def]
                omega
              have happend : Lib.lowerBound _ (mtl'.memset ++ []) = _ :=
                Lib.lowerBound_append hall (by simp)
              rwa [List.append_nil] at happend
            have hget : mtl'.memset[mtl'.memset.length]? = none :=
              List.getElem?_eq_none (Nat.le_refl _)
            simp only [split, hbelow, hget]
          have hne : mtl'.memset ≠ [] := by rw [hhead]; exact List.cons_ne_nil _ _
          rcases hchunk.getLast hne with ⟨back, hback, -⟩
          have hshort : getNumBufferedInstances mtl'.memset ≠ n := by
            have hkm := hchunk.le
            rw [getNumBufferedInstances_eq hchunk]
            bv_omega
          have hhead' : mtl'.memset.head? = some front := by rw [hhead, List.head?_cons]
          refine Or.inl ⟨.assertFailed, ?_⟩
          simp only [MemoryTraceStreamer.getNextChunk, if_neg hzero, hresult, hhead', hsplit, hback,
            hshort, decide_false, Bool.or_false, Bool.false_eq_true, if_false]

/-- All requests together. -/
theorem Streaming.getNextChunks (ns : List (BitVec 64)) :
    ∀ {k : Nat} {s : MemoryTraceStreamer}, Streaming strides references k s →
      k + (ns.map BitVec.toNat).sum ≤ references.length →
      ∃ chunks s', MemoryTraceStreamer.getNextChunks s ns = .ok (chunks, s') ∧
        List.Forall₂ (fun n chunk => (chunk.flatMap MemSetEntry.accesses).length = n.toNat)
          ns chunks ∧
        chunks.flatten.flatMap MemSetEntry.accesses
          = (references.drop k).take (ns.map BitVec.toNat).sum ∧
        Consecutive k chunks.flatten (k + (ns.map BitVec.toNat).sum) := by
  induction ns with
  | nil =>
      intro k s _ _
      exact ⟨[], s, rfl, List.Forall₂.nil, by simp, rfl⟩
  | cons n ns ih =>
      intro k s h hsum
      rw [List.map_cons, List.sum_cons] at hsum
      rcases h.getNextChunk n (by omega) with ⟨chunk, s', hchunk, hnext, hconsecutive, hacc, -⟩
      rcases ih hnext (by omega) with ⟨chunks, s'', hchunks, hcounts, hacc', hrest⟩
      have hlen : (chunk.flatMap MemSetEntry.accesses).length = n.toNat := by
        rw [hconsecutive.length_accesses]
        omega
      refine ⟨chunk :: chunks, s'', ?_, List.Forall₂.cons hlen hcounts, ?_, ?_⟩
      · simp only [MemoryTraceStreamer.getNextChunks, hchunk, hchunks]
      · rw [List.flatten_cons, List.flatMap_append, hacc, hacc', List.map_cons, List.sum_cons,
          ← List.drop_drop, ← List.take_add]
      · rw [List.flatten_cons, List.map_cons, List.sum_cons, ← Nat.add_assoc]
        exact hconsecutive.append hrest

/-! ## The stream -/

/-- The numbers of a stream, with the newline at its end or without. -/
theorem scanSigned_dropLast {text : List Char} (h : Lines text) :
    memoryScanner.tokens text.dropLast = scanSigned .start text := by
  rcases h.newline with rfl | ⟨init, rfl⟩
  · rfl
  · have hnewline : memoryScanner.tokens ['\n'] = [] := by decide
    have happend := memoryScanner.tokens_append init [] '\n' rfl
    rw [hnewline, List.append_nil] at happend
    rw [List.dropLast_concat]
    exact happend.symm

/-- The file of a stream is a text of short numbers. -/
theorem lines_dumped (id : UInt64) (stream : Stream) (dumped : List TracerMemSet)
    (hlt : (dumped.flatMap TracerMemSet.expand).length < 2 ^ 64) :
    Lines (dumped.flatMap (dumpStream id stream)) := by
  have hspaced : Spaced 0 (dumped.flatMap (dumpStream id stream)) 0 := by
    refine Lib.GapTo.flatMap fun s hs => spaced_dumpStream id stream ?_
    have hle : s.length ≤ s.expand.length := by
      rw [← List.length_reverse]
      exact length_le_expand s.reverse
    have hall : s.expand.length ≤ (dumped.flatMap TracerMemSet.expand).length :=
      (List.infix_of_mem_flatten (List.mem_map_of_mem hs)).length_le
    omega
  refine ⟨fun _ hwithin hno => hspaced.length_lt hwithin hno, ?_⟩
  clear hspaced hlt
  induction dumped with
  | nil => exact Or.inl rfl
  | cons s dumped ih =>
      rw [List.flatMap_cons]
      rcases ih with hnil | ⟨init, hinit⟩
      · rw [hnil, List.append_nil]
        exact newline_dumpStream id stream s
      · exact Or.inr ⟨dumpStream id stream s ++ init, by rw [hinit, List.append_assoc]⟩

/-- A streamer that has not read anything, on the dumps of a stream. -/
theorem streaming_new (id : UInt64) (stream : Stream) (dumped : List TracerMemSet)
    {reads : List BzRead} (hreads : Delivers false reads) (hfirst : FirstSeparated reads)
    (hlines : Lines (textOf reads))
    (htext : scanSigned .start (textOf reads) = dumped.flatMap (streamNumbers id stream))
    (hlt : (dumped.flatMap TracerMemSet.expand).length < 2 ^ 64)
    (hstrides : ∀ s ∈ dumped, ∀ e ∈ s, strides e.length e.stride) :
    Streaming strides (dumped.flatMap TracerMemSet.expand) 0 (new reads) := by
  have hinit : At {} 0 0 0 0 [] := ⟨rfl, rfl, rfl, rfl, rfl, rfl⟩
  rcases feed_dumped id stream dumped hinit (by rwa [Nat.zero_add]) with
    ⟨entries, last, hat, hacc, hconsecutive, hshaped⟩
  have hmemset := hat.memset_eq
  rw [List.nil_append, ← htext] at hmemset
  rw [Nat.zero_add] at hconsecutive
  rcases hreads.exists_course memoryScanner hfirst hlines with ⟨seen, hcourse⟩
  rw [scanSigned_dropLast hlines] at hcourse
  refine ⟨hlt, [], scanSigned .start (textOf reads), entries, ⟨rfl, ?_⟩, .more hcourse, hconsecutive,
    ?_, fun e he => ?_⟩
  · rw [List.nil_append, hmemset]
    rfl
  · rw [List.drop_zero]
    exact hacc
  · rcases hshaped e he with ⟨t, ht, hlength, hstride⟩
    rcases List.mem_flatten.1 ht with ⟨s, hs, hts⟩
    rw [← hlength, ← hstride]
    exact hstrides s hs t hts

/-- Chunked reading.  In whatever reads the text of a stream of fewer than `2 ^ 64` references comes
and however many references are asked for each time, every chunk has as many references as asked for,
and the chunks together are the first references of the stream, numbered consecutively. -/
theorem getNextChunks_eq (id : UInt64) (stream : Stream) (dumped : List TracerMemSet)
    (reads : List BzRead) (ns : List (BitVec 64)) (hreads : Delivers false reads)
    (hfirst : FirstSeparated reads) (hlines : Lines (textOf reads))
    (htext : scanSigned .start (textOf reads) = dumped.flatMap (streamNumbers id stream))
    (hlt : (dumped.flatMap TracerMemSet.expand).length < 2 ^ 64)
    (hsum : (ns.map BitVec.toNat).sum ≤ (dumped.flatMap TracerMemSet.expand).length) :
    ∃ chunks s', MemoryTraceStreamer.getNextChunks (new reads) ns = .ok (chunks, s') ∧
      List.Forall₂ (fun n chunk => (chunk.flatMap MemSetEntry.accesses).length = n.toNat) ns chunks ∧
      chunks.flatten.flatMap MemSetEntry.accesses
        = (dumped.flatMap TracerMemSet.expand).take (ns.map BitVec.toNat).sum ∧
      Consecutive 0 chunks.flatten (ns.map BitVec.toNat).sum := by
  have hstart : Streaming (fun _ _ => True) (dumped.flatMap TracerMemSet.expand) 0 (new reads) :=
    streaming_new id stream dumped hreads hfirst hlines htext hlt fun _ _ _ _ => trivial
  rcases hstart.getNextChunks ns (by rwa [Nat.zero_add]) with
    ⟨chunks, s', hchunks, hcounts, hacc', hconsecutive'⟩
  rw [List.drop_zero] at hacc'
  rw [Nat.zero_add] at hconsecutive'
  exact ⟨chunks, s', hchunks, hcounts, hacc', hconsecutive'⟩

/-- A short text that ends in a newline. -/
theorem lines_of_length {text : List Char} (hlen : text.length < maxRemainder)
    (hnewline : ∃ init, text = init ++ ['\n']) : Lines text :=
  ⟨fun _ hwithin _ => Nat.lt_of_le_of_lt hwithin.length_le hlen, Or.inr hnewline⟩

/-- Two dumps of a read stream, delivered in four reads, and requests that cut both entries. -/
theorem getNextChunks_four_reads :
    let dumped : List TracerMemSet :=
      [[{ base := 40, stride := 0, length := 8, start := 3, «end» := 3 },
        { base := 100, stride := 4, length := 4, start := 0, «end» := 2 }],
       [{ base := 16, stride := 2, length := 2, start := 0, «end» := 4 }]]
    let reads : List BzRead :=
      [⟨"7\n2 10".toList, false, 0, false⟩, ⟨"0 4 4 3,-60 0 8".toList, false, 0, false⟩,
        ⟨" 1,\n0\n7\n1 1".toList, true, 9, false⟩, ⟨"6 2 2 5,\n0\n".toList, true, 0, true⟩]
    ∃ chunks s', MemoryTraceStreamer.getNextChunks (new reads) [2, 0, 1, 3, 3]
        = .ok (chunks, s') ∧
      List.Forall₂ (fun (n : BitVec 64) chunk =>
        (chunk.flatMap MemSetEntry.accesses).length = n.toNat) [2, 0, 1, 3, 3] chunks ∧
      chunks.flatten.flatMap MemSetEntry.accesses
        = (dumped.flatMap TracerMemSet.expand).take
          (([2, 0, 1, 3, 3] : List (BitVec 64)).map BitVec.toNat).sum ∧
      Consecutive 0 chunks.flatten (([2, 0, 1, 3, 3] : List (BitVec 64)).map BitVec.toNat).sum := by
  intro dumped reads
  have hreads : Delivers false reads :=
    .inside rfl (by decide) (.inside rfl (by decide) (.behind rfl (Or.inl (by decide)) (.last rfl rfl)))
  have hfirst : FirstSeparated reads := by
    rw [firstSeparated_cons, if_neg (by decide)]
    exact ⟨'\n', by decide, rfl⟩
  have hlines : Lines (textOf reads) :=
    lines_of_length (by decide) ⟨(textOf reads).dropLast, by decide⟩
  exact getNextChunks_eq 7 .read dumped reads [2, 0, 1, 3, 3] hreads hfirst hlines (by decide +kernel)
    (by decide +kernel) (by decide +kernel)

/-- The instance numbers wrap around at `2 ^ 64`: the third chunk gets the accesses at 200 instead of
the last five at 600.  And where a stream of one byte comes first, there is no separator to cut at. -/
theorem not_getNextChunks_wrapped :
    let dumped : List TracerMemSet :=
      [[{ base := 600, stride := 0, length := 4, start := 0, «end» := 9 },
        { base := 200, stride := 0, length := 4, start := 0x8000000000000000,
          «end» := 0xffffffffffffffff },
        { base := 100, stride := 0, length := 4, start := 0, «end» := 0x7fffffffffffffff }]]
    let text : List Char := "7\n3 100 0 4 9223372036854775808,100 0 4 9223372036854775808,".toList
      ++ "400 0 4 10,\n0\n".toList
    let ns : List (BitVec 64) := [5, 0x8000000000000000, 0x8000000000000000]
    Delivers false [⟨text, true, 0, true⟩] ∧ FirstSeparated [⟨text, true, 0, true⟩] ∧ Lines text ∧
      scanSigned .start text = dumped.flatMap (streamNumbers 7 .read) ∧
      (ns.map BitVec.toNat).sum ≤ (dumped.flatMap TracerMemSet.expand).length ∧
      (∃ chunks s', MemoryTraceStreamer.getNextChunks (new [⟨text, true, 0, true⟩]) ns
          = .ok (chunks, s') ∧
        chunks.flatten.flatMap MemSetEntry.accesses
          ≠ (dumped.flatMap TracerMemSet.expand).take (ns.map BitVec.toNat).sum) ∧
      (MemoryTraceStreamer.getNextChunks (new [⟨"7".toList, true, 9, false⟩,
        ⟨"\n1 100 0 4 1,\n0\n".toList, true, 0, true⟩]) [1]).toOption.isNone = true := by
  intro dumped text ns
  have hsplit : dumped.flatMap TracerMemSet.expand
      = (references 100 0 4 9223372036854775808 ++ references 200 0 4 9223372036854775808)
        ++ references 600 0 4 10 := by
    have hfirst : TracerMemSetEntry.instances ⟨100, 0, 4, 0, 0x7fffffffffffffff⟩
        = 9223372036854775808 := by decide
    have hsecond : TracerMemSetEntry.instances ⟨200, 0, 4, 0x8000000000000000, 0xffffffffffffffff⟩
        = 9223372036854775808 := by decide
    have hthird : TracerMemSetEntry.instances ⟨600, 0, 4, 0, 9⟩ = 10 := by decide
    simp only [dumped, TracerMemSet.expand, TracerMemSetEntry.expand, List.flatMap_cons,
      List.flatMap_nil, List.reverse_cons, List.reverse_nil, List.nil_append, List.cons_append,
      List.append_nil, hfirst, hsecond, hthird, List.append_assoc]
  have hsum : (ns.map BitVec.toNat).sum
      = (references 100 0 4 9223372036854775808 ++ references 200 0 4 9223372036854775808).length
        + 5 := by
    rw [List.length_append, length_references, length_references]
    decide
  have hrun : (MemoryTraceStreamer.getNextChunks (new [⟨text, true, 0, true⟩]) ns).toOption.map
      Prod.fst = some [
        [{ base := 100, stride := 0, length := 4, start := 0, «end» := 4 }],
        [{ base := 100, stride := 0, length := 4, start := 5, «end» := 0x7fffffffffffffff },
          { base := 200, stride := 0, length := 4, start := 0x8000000000000000,
            «end» := 0x8000000000000004 }],
        [{ base := 200, stride := 0, length := 4, start := 0x8000000000000005, «end» := 4 }]] := by
    decide +kernel
  refine ⟨.last rfl rfl, ?_, lines_of_length (by decide) ⟨text.dropLast, by decide⟩,
    by decide +kernel, ?_, ?_, by decide +kernel⟩
  · rw [firstSeparated_cons, if_neg (by decide)]
    exact ⟨'\n', by decide, rfl⟩
  · rw [hsplit, hsum]
    simp only [List.length_append, length_references]
    decide
  · cases hchunks : MemoryTraceStreamer.getNextChunks (new [⟨text, true, 0, true⟩]) ns with
    | error f =>
        rw [hchunks] at hrun
        cases hrun
    | ok r =>
        rcases r with ⟨chunks, s'⟩
        rw [hchunks] at hrun
        have hchunks' := Option.some.inj hrun
        simp only at hchunks'
        refine ⟨chunks, s', rfl, fun heq => ?_⟩
        -- the accesses at 600 are missing
        have hlast : ({ address := 600, length := 4 } : Reference)
            ∈ chunks.flatten.flatMap MemSetEntry.accesses := by
          rw [heq, hsplit, hsum, List.take_length_add_append]
          exact List.mem_append_right _ (by decide)
        rw [hchunks'] at hlast
        simp [MemSetEntry.accesses, MemSetEntry.getAccessLower] at hlast

end MemoryTraceStreamer
end CamAlias
