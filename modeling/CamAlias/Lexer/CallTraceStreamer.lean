import CamAlias.Lexer.CallTrace
import CamAlias.Lexer.EntryReader
import CamAlias.Lexer.Pieces

/-!
# CallTraceStreamer — the entries of a call trace, and what they stand for

`CallTraceStreamer.cpp`.  `PrintedCallEntry` is what the text of an entry says, `CallTraceChunk` what
one write leaves in the file, and `finds_chunks` says that the lexer finds the entries of all
chunks.  `callPieces`: merging them follows the recorded instances of every call.
-/

namespace CamAlias

open Lib

/-! ## One entry -/

/-- What the text of an entry says: the loop invocations, and the groups of each call ID. -/
structure PrintedCallEntry where
  ranges : List (Nat × Nat)
  calls : List (UInt64 × List PrintedGroup)

namespace PrintedCallEntry

def callTokens (call : UInt64 × List PrintedGroup) : List Token :=
  [.number call.1.toNat, .number call.2.length, .newline] ++
    (call.2.flatMap PrintedGroup.tokens ++ [.newline])

def tokens (e : PrintedCallEntry) : List Token :=
  rangesTokens e.ranges ++ [.closebrace] ++
    (.number e.calls.length :: .newline :: e.calls.flatMap callTokens)

/-- A further call in the entry. -/
def addCall (clig : CallTraceLoopInvocationGroup) (call : UInt64 × List PrintedGroup) :
    CallTraceLoopInvocationGroup :=
  clig.setCall call.1 { callInstances := call.2.map PrintedGroup.toCfcGroup, lut := [] }

/-- The entry that the lexer fills. -/
def toEntry (e : PrintedCallEntry) : CallTraceLoopInvocationGroup :=
  e.calls.foldl addCall { CallTraceLoopInvocationGroup.new with repetitions := e.ranges }

/-- Numbers that `strtoull` reads back, valid groups, and each call ID once. -/
structure Valid (e : PrintedCallEntry) : Prop where
  ranges : ∀ r ∈ e.ranges, r.1 ≤ r.2 ∧ r.2 < 2 ^ 64
  length_lt : e.calls.length < 2 ^ 64
  distinct : e.calls.Pairwise fun a b => a.1 ≠ b.1
  calls : ∀ call ∈ e.calls, call.2 ≠ [] ∧ call.2.length < 2 ^ 64 ∧ ∀ g ∈ call.2, g.Valid

theorem foldl_addCall (calls : List (UInt64 × List PrintedGroup)) :
    ∀ clig : CallTraceLoopInvocationGroup, calls.Pairwise (fun a b => a.1 ≠ b.1) →
      (calls.foldl addCall clig).repetitions = clig.repetitions ∧
      ∀ id, CallTraceLoopInvocationGroup.instancesOf (calls.foldl addCall clig).calls id
        = match calls.lookup id with
          | some gs => gs.map PrintedGroup.toCfcGroup
          | none => CallTraceLoopInvocationGroup.instancesOf clig.calls id := by
  induction calls with
  | nil => exact fun clig _ => ⟨rfl, fun id => rfl⟩
  | cons call calls ih =>
      intro clig hdistinct
      rcases List.pairwise_cons.1 hdistinct with ⟨hhead, htail⟩
      rcases ih (addCall clig call) htail with ⟨hrep, hinst⟩
      refine ⟨hrep, ?_⟩
      intro id
      rw [List.foldl_cons, hinst id, List.lookup_cons]
      by_cases hid : id = call.1
      · -- the ID does not come again
        subst hid
        have hnone : calls.lookup call.1 = none := by
          rw [List.lookup_eq_none_iff]
          intro p hp
          simpa using hhead p hp
        simp [hnone, addCall, CallTraceLoopInvocationGroup.setCall,
          CallTraceLoopInvocationGroup.instancesOf]
      · have hbeq : (id == call.1) = false := by simpa using hid
        simp [hbeq, addCall, CallTraceLoopInvocationGroup.setCall,
          CallTraceLoopInvocationGroup.instancesOf, Std.ExtTreeMap.getElem?_insert, Ne.symm hid]

theorem repetitions_toEntry {e : PrintedCallEntry} (h : e.Valid) :
    e.toEntry.repetitions = e.ranges :=
  (foldl_addCall e.calls _ h.distinct).1

/-- The instance groups of a call ID in the entry. -/
theorem instancesOf_toEntry {e : PrintedCallEntry} (h : e.Valid) (id : UInt64) :
    CallTraceLoopInvocationGroup.instancesOf e.toEntry.calls id
      = ((e.calls.lookup id).getD []).map PrintedGroup.toCfcGroup := by
  rw [toEntry, (foldl_addCall e.calls _ h.distinct).2 id]
  cases e.calls.lookup id with
  | some gs => rfl
  | none => simp [CallTraceLoopInvocationGroup.instancesOf, CallTraceLoopInvocationGroup.new,
      CallTraceCall.new]

end PrintedCallEntry

namespace CallTraceCfcLex

/-- No control flow and no range is being read. -/
structure Ready (l : CallTraceCfcLex) : Prop where
  cfc : l.cfc = CfcReader.init
  reppat : l.reppat.reppatState = 0

/-- `l'` is the state behind the last group of a call whose entry is now `callEntry`. -/
structure CallRead (l l' : CallTraceCfcLex) (callEntry : CallTraceLoopInvocationGroup) : Prop where
  ready : l'.Ready
  rstatus : l'.rstatus = l.rstatus
  entry : l'.callEntry = callEntry
  remaining_call : l'.remaining_call_entries = l.remaining_call_entries - 1
  more : 0 < l.remaining_call_entries - 1 →
    l'.state = .callID ∧ l'.remaining_loopinvoc_entries = l.remaining_loopinvoc_entries
  last : l.remaining_call_entries - 1 = 0 →
    l'.state = .dumpEnd ∧ l'.remaining_loopinvoc_entries = l.remaining_loopinvoc_entries - 1

/-- The groups of a call, up to the end of the last line. -/
theorem reads_groups : ∀ (gs : List PrintedGroup) (l : CallTraceCfcLex)
    (before : List CallTraceInstanceGroup), gs ≠ [] → (∀ g ∈ gs, g.Valid) → l.Ready →
    l.state = .instancePattern → l.remaining_callinstance_entries = gs.length →
    ∃ l', Reads (l.withInstances (before ++ [CfcGroup.new])) (gs.flatMap PrintedGroup.tokens) l' ∧
      CallRead l l' (l.withInstances (before ++ gs.map PrintedGroup.toCfcGroup)).callEntry := by
  intro gs
  induction gs with
  | nil =>
      intro l before hne
      exact absurd rfl hne
  | cons g gs ih =>
      intro l before _ hvalid hready hstate hremaining
      rcases reads_instanceGroup hstate hready.reppat hready.cfc before (hvalid g (by simp)) with
        ⟨reppat, hline, hreppat⟩
      let l₅ : CallTraceCfcLex :=
        { l.withInstances (before ++ [g.toCfcGroup]) with state := .cfc, reppat }
      have hend : Reads l₅ [.newline] l₅.newline := CamAlias.Reads.token rfl
      have hfirst : Reads (l.withInstances (before ++ [CfcGroup.new])) g.tokens l₅.newline := by
        have := hline.append hend
        simpa [PrintedGroup.tokens] using this
      -- the newline behind the last group ends the call, and behind the last call the entry
      cases gs with
      | nil =>
          have hlen : l.remaining_callinstance_entries - 1 = 0 := by simp [hremaining]
          refine ⟨l₅.newline, by simpa using hfirst, ?_⟩
          by_cases hmore : 0 < l.remaining_call_entries - 1
          · have hnewline : l₅.newline = { l₅ with
                remaining_callinstance_entries := 0
                remaining_call_entries := l.remaining_call_entries - 1
                state := .callID } := by
              simp [newline, l₅, withInstances, hlen, hmore]
            rw [hnewline]
            exact ⟨⟨hready.cfc, hreppat⟩, rfl, by simp [l₅, withInstances], rfl,
              fun _ => ⟨rfl, rfl⟩, fun h => absurd hmore (by omega)⟩
          · have hnewline : l₅.newline = { l₅ with
                remaining_callinstance_entries := 0
                remaining_call_entries := l.remaining_call_entries - 1
                remaining_loopinvoc_entries := l.remaining_loopinvoc_entries - 1
                state := .dumpEnd } := by
              simp [newline, l₅, withInstances, hlen, hmore]
            rw [hnewline]
            exact ⟨⟨hready.cfc, hreppat⟩, rfl, by simp [l₅, withInstances], rfl,
              fun h => absurd h hmore, fun _ => ⟨rfl, rfl⟩⟩
      | cons g' gs =>
          have hlen : l.remaining_callinstance_entries - 1 = (g' :: gs).length := by
            simp [hremaining]
          let l₆ : CallTraceCfcLex := { l with
            remaining_callinstance_entries := (g' :: gs).length
            state := .instancePattern
            reppat }
          have hnewline : l₅.newline
              = l₆.withInstances (before ++ [g.toCfcGroup] ++ [CfcGroup.new]) := by
            simp [newline, l₅, l₆, withInstances, hlen,
              CallTraceLoopInvocationGroup.addCallInstance, CallTraceCall.addCallInstance]
          rcases ih l₆ (before ++ [g.toCfcGroup]) (by simp)
            (fun g hg => hvalid g (List.mem_cons_of_mem _ hg)) ⟨hready.cfc, hreppat⟩ rfl rfl with
            ⟨l', hreads, hread⟩
          rw [hnewline] at hfirst
          refine ⟨l', ?_, ⟨hread.ready, hread.rstatus, ?_, hread.remaining_call, hread.more,
            hread.last⟩⟩
          · rw [List.flatMap_cons]
            exact hfirst.append hreads
          · rw [hread.entry]
            simp [l₆, withInstances]

/-- The calls of an entry, up to the end of the last line. -/
theorem reads_calls : ∀ (calls : List (UInt64 × List PrintedGroup)) (l : CallTraceCfcLex),
    calls ≠ [] → calls.Pairwise (fun a b => a.1 ≠ b.1) →
    (∀ call ∈ calls, call.2 ≠ [] ∧ call.2.length < 2 ^ 64 ∧ ∀ g ∈ call.2, g.Valid) →
    (∀ call ∈ calls, l.callEntry.call call.1 = CallTraceCall.new) → l.Ready →
    l.state = .callID → l.remaining_call_entries = calls.length →
    ∃ l', Reads l (calls.flatMap PrintedCallEntry.callTokens) l' ∧ l'.Ready ∧ l'.state = .dumpEnd ∧
      l'.rstatus = l.rstatus ∧
      l'.remaining_loopinvoc_entries = l.remaining_loopinvoc_entries - 1 ∧
      l'.callEntry = calls.foldl PrintedCallEntry.addCall l.callEntry := by
  intro calls
  induction calls with
  | nil =>
      intro l hne
      exact absurd rfl hne
  | cons call calls ih =>
      intro l _ hdistinct hvalid hfresh hready hstate hremaining
      rcases List.pairwise_cons.1 hdistinct with ⟨hhead, htail⟩
      rcases hvalid call (by simp) with ⟨hne, hlen, hgroups⟩
      have hpos := List.length_pos_of_ne_nil hne
      have hid : UInt64.ofNat (strtoull call.1.toNat) = call.1 := by
        rw [strtoull_of_lt call.1.toNat_lt]
        exact UInt64.ofNat_toNat
      have hcount : strtoull call.2.length = call.2.length := strtoull_of_lt hlen
      -- the ID and the number of instances start the entry of a call
      let l₁ : CallTraceCfcLex := { l with currCallID := call.1, state := .numInstances }
      let l₂ : CallTraceCfcLex := { l₁ with
        remaining_callinstance_entries := call.2.length
        reppat := { l.reppat with reppatState := 0 }
        state := .instancePattern }
      have hnew : l.callEntry.addCallInstance call.1
          = (l₂.withInstances ([] ++ [CfcGroup.new])).callEntry := by
        simp [CallTraceLoopInvocationGroup.addCallInstance, hfresh call (by simp), withInstances,
          CallTraceCall.addCallInstance, CallTraceCall.new, l₂, l₁]
      have hfirst : l.lexToken (.number call.1.toNat) = .ok (l₁, false) := by
        simp [lexToken, number, hstate, hid, Except.map, l₁]
      have hsecond : l₁.lexToken (.number call.2.length)
          = .ok (l₂.withInstances ([] ++ [CfcGroup.new]), false) := by
        simp only [lexToken, number, l₁, hcount, hpos, if_true, hnew, Except.map]
        rfl
      rcases reads_groups call.2 l₂ [] hne hgroups ⟨hready.cfc, rfl⟩ rfl rfl with
        ⟨l₃, hreads, hread⟩
      have hnotcfc : l₃.state ≠ .cfc := by
        by_cases hmore : 0 < l₂.remaining_call_entries - 1
        · simp [(hread.more hmore).1]
        · simp [(hread.last (by omega)).1]
      have hcall : Reads l (PrintedCallEntry.callTokens call) l₃ := by
        have hskip : Reads (l₂.withInstances ([] ++ [CfcGroup.new])) [.newline]
            (l₂.withInstances ([] ++ [CfcGroup.new])) := reads_newline (by simp [withInstances, l₂])
        have hbody := (hskip.append hreads).append (reads_newline hnotcfc)
        have hall := CamAlias.Reads.cons hfirst (CamAlias.Reads.cons hsecond hbody)
        simpa [PrintedCallEntry.callTokens] using hall
      have hentry : l₃.callEntry = PrintedCallEntry.addCall l.callEntry call := by
        rw [hread.entry]
        simp [withInstances, PrintedCallEntry.addCall, l₂, l₁]
      -- the last call ends the entry of the invocation, the others leave calls to be read
      cases calls with
      | nil =>
          have hlast := hread.last (by simp [l₂, l₁, hremaining])
          exact ⟨l₃, by simpa using hcall, hread.ready, hlast.1, hread.rstatus, hlast.2,
            by simpa using hentry⟩
      | cons call' calls =>
          have hmore := hread.more (by simp [l₂, l₁, hremaining])
          rcases ih l₃ (by simp) htail (fun c hc => hvalid c (List.mem_cons_of_mem _ hc))
            (fun c hc => by
              have hother := hhead c hc
              have hsame := hfresh c (List.mem_cons_of_mem _ hc)
              rw [hentry]
              simpa [PrintedCallEntry.addCall, CallTraceLoopInvocationGroup.setCall,
                CallTraceLoopInvocationGroup.call, Std.ExtTreeMap.getElem?_insert, hother]
                using hsame)
            hread.ready hmore.1 (by simp [hread.remaining_call, l₂, l₁, hremaining]) with
            ⟨l', hreads', hready', hstate', hrstatus', hloops', hentry'⟩
          refine ⟨l', ?_, hready', hstate', ?_, ?_, ?_⟩
          · rw [List.flatMap_cons]
            exact hcall.append hreads'
          · rw [hrstatus', hread.rstatus]
          · rw [hloops', hmore.2]
          · rw [hentry', hentry]
            rfl

/-- An entry: its loop invocations, the number of its calls and the calls. -/
theorem reads_entry {l : CallTraceCfcLex} {e : PrintedCallEntry} (hvalid : e.Valid)
    (hready : l.Ready) (hstate : l.state = .invocPattern)
    (hentry : l.callEntry = CallTraceLoopInvocationGroup.new) :
    ∃ l', Reads l e.tokens l' ∧ l'.Ready ∧ l'.state = .dumpEnd ∧ l'.rstatus = l.rstatus ∧
      l'.remaining_loopinvoc_entries = l.remaining_loopinvoc_entries - 1 ∧
      l'.callEntry = e.toEntry := by
  rcases reads_invocationPattern hstate hready.reppat hvalid.ranges with
    ⟨reppat, hpattern, hreppat⟩
  let l₃ : CallTraceCfcLex := { l.addInvocationRanges e.ranges with state := .numCalls, reppat }
  have hcount : strtoull e.calls.length = e.calls.length := strtoull_of_lt hvalid.length_lt
  have hranges : l₃.callEntry
      = { CallTraceLoopInvocationGroup.new with repetitions := e.ranges } := by
    simp [l₃, addInvocationRanges, hentry, CallTraceLoopInvocationGroup.new]
  by_cases hempty : e.calls = []
  · -- no call: the lexer waits for the completion symbol at once
    let l₆ : CallTraceCfcLex := { l₃ with
      remaining_call_entries := 0
      remaining_loopinvoc_entries := l.remaining_loopinvoc_entries - 1
      state := .dumpEnd }
    have hnumber : l₃.lexToken (.number e.calls.length) = .ok (l₆, false) := by
      have hzero : strtoull 0 = 0 := strtoull_of_lt (by decide)
      simp [lexToken, number, l₃, l₆, hempty, hzero, addInvocationRanges, Except.map]
    refine ⟨l₆, ?_, ⟨hready.cfc, hreppat⟩, rfl, rfl, rfl, ?_⟩
    · have hrest : Reads l₃ [.number e.calls.length, .newline] l₆ :=
        CamAlias.Reads.cons hnumber (reads_newline (by simp [l₆]))
      have := CamAlias.Reads.append hpattern hrest
      simpa [PrintedCallEntry.tokens, hempty] using this
    · have hsame : l₆.callEntry = l₃.callEntry := rfl
      rw [hsame, hranges, PrintedCallEntry.toEntry, hempty]
      rfl
  · have hpos : 0 < e.calls.length := List.length_pos_of_ne_nil hempty
    let l₄ : CallTraceCfcLex := { l₃ with
      remaining_call_entries := e.calls.length
      state := .callID }
    have hnumber : l₃.lexToken (.number e.calls.length) = .ok (l₄, false) := by
      simp [lexToken, number, l₃, l₄, hcount, hpos, addInvocationRanges, Except.map]
    have hfresh : ∀ call ∈ e.calls, l₄.callEntry.call call.1 = CallTraceCall.new := by
      intro call _
      have hsame : l₄.callEntry = l₃.callEntry := rfl
      rw [hsame, hranges]
      simp [CallTraceLoopInvocationGroup.call, CallTraceLoopInvocationGroup.new]
    rcases reads_calls e.calls l₄ hempty hvalid.distinct hvalid.calls hfresh ⟨hready.cfc, hreppat⟩
      rfl rfl with ⟨l', hreads, hready', hstate', hrstatus, hremaining, hentry'⟩
    refine ⟨l', ?_, hready', hstate', hrstatus, hremaining, ?_⟩
    · have hrest : Reads l₃ (.number e.calls.length :: .newline ::
          e.calls.flatMap PrintedCallEntry.callTokens) l' :=
        CamAlias.Reads.cons hnumber ((reads_newline (by simp [l₄])).append hreads)
      have := CamAlias.Reads.append hpattern hrest
      simpa [PrintedCallEntry.tokens] using this
    · have hsame : l₄.callEntry = l₃.callEntry := rfl
      rw [hentry', hsame, hranges, PrintedCallEntry.toEntry]

end CallTraceCfcLex

/-! ## The streamer -/

namespace CallTraceCfcLex

/-- A new entry is to be filled. -/
def start (l : CallTraceCfcLex) : CallTraceCfcLex :=
  { l with callEntry := CallTraceLoopInvocationGroup.new, rstatus := .active }

section Status

variable {l : CallTraceCfcLex} {t : Token}

theorem readRepetitionPattern_keeps : KeepsStatus rstatus l (l.readRepetitionPattern t) := by
  simp only [readRepetitionPattern]
  split
  · exact KeepsStatus.ok rfl
  · split
    · exact KeepsStatus.ok rfl
    · split
      · exact KeepsStatus.ok rfl
      · exact KeepsStatus.error

theorem readCfc_keeps : KeepsStatus rstatus l (l.readCfc t) := by
  simp only [readCfc]
  split
  · exact KeepsStatus.error
  · exact KeepsStatus.ok rfl
  · split
    · exact KeepsStatus.ok rfl
    · exact KeepsStatus.error

theorem number_keeps (value : Nat) : KeepsStatus rstatus l (l.number value) := by
  rw [number]
  cases l.state with
  | numInvoc => exact KeepsStatus.ok rfl
  | invocPattern => exact readRepetitionPattern_keeps
  | numCalls =>
      simp only
      split
      · exact KeepsStatus.ok rfl
      · exact KeepsStatus.ok rfl
  | callID => exact KeepsStatus.ok rfl
  | numInstances =>
      simp only
      split
      · exact KeepsStatus.ok rfl
      · exact KeepsStatus.ok rfl
  | instancePattern => exact readRepetitionPattern_keeps
  | cfc => exact readCfc_keeps
  | dumpEnd => exact KeepsStatus.error

theorem newline_keeps : KeepsStatus rstatus l (.ok l.newline) := by
  refine KeepsStatus.ok ?_
  simp only [newline]
  split_ifs <;> rfl

theorem rstatus_completion (status : ReturnStatus) (l' : CallTraceCfcLex)
    (h : l.completion status = .ok l') : l'.rstatus = status := by
  rw [completion] at h
  split at h
  · cases h
  · rw [← Except.ok.inj h]

/-- Only the completion symbols return and set the status. -/
theorem returns : BlockReader.Returns lexToken fun l => decide (l.rstatus ≠ .active) := by
  intro l t l' more h hactive
  have hsame : KeepsStatus rstatus l (.ok l) := KeepsStatus.ok rfl
  cases t with
  | number value => exact (number_keeps value).returned hactive h
  | dash =>
      simp only [lexToken] at h
      split at h
      · exact readRepetitionPattern_keeps.returned hactive h
      · exact hsame.returned hactive h
  | closebrace =>
      simp only [lexToken] at h
      split at h
      · exact readRepetitionPattern_keeps.returned hactive h
      · exact hsame.returned hactive h
  | comma =>
      simp only [lexToken] at h
      split at h
      · exact readRepetitionPattern_keeps.returned hactive h
      split at h
      · exact readCfc_keeps.returned hactive h
      · exact hsame.returned hactive h
  | openparen =>
      simp only [lexToken] at h
      split at h
      · exact readCfc_keeps.returned hactive h
      · exact hsame.returned hactive h
  | closeparen =>
      simp only [lexToken] at h
      split at h
      · exact readCfc_keeps.returned hactive h
      · exact hsame.returned hactive h
  | newline => exact newline_keeps.returned hactive h
  | complete =>
      exact returned_of_sets (s := .invocComplete) (by decide) (rstatus_completion _) h
  | incomplete =>
      exact returned_of_sets (s := .invocIncomplete) (by decide) (rstatus_completion _) h

end Status

end CallTraceCfcLex

/-- What `getFullEntry` works on. -/
def callEntryLexer : EntryLexer CallTraceCfcLex CallTraceLoopInvocationGroup where
  lexToken := CallTraceCfcLex.lexToken
  rstatus := CallTraceCfcLex.rstatus
  entry := CallTraceCfcLex.callEntry
  ready := fun l => l.state = .numInvoc ∨ l.state = .invocPattern
  start := CallTraceCfcLex.start
  rstatus_start := fun _ => rfl
  returns := CallTraceCfcLex.returns
  newline := fun l => ⟨l.newline, rfl⟩

abbrev CallTraceStreamer : Type := Streamer CallTraceCfcLex

namespace CallTraceStreamer

/-- `CallTraceStreamer::CallTraceStreamer`. -/
def ofFile (callTrace : List BzRead) : CallTraceStreamer where
  lexer := CallTraceCfcLex.init
  parser := BlockReader.new callTrace

/-- `CallTraceStreamer::getFullEntry`. -/
def getFullEntry : CallTraceStreamer →
    Except Fault (CallTraceStreamer × CallTraceLoopInvocationGroup × Bool) :=
  callEntryLexer.getFullEntry

/-- What `getNextEntry` works on. -/
def entryStream : EntryStream CallTraceStreamer CallTraceLoopInvocationGroup where
  getFullEntry := getFullEntry
  rstatus := fun s => s.lexer.rstatus
  remaining := fun s => s.parser.calls cfcScanner
  lastAndFirstInvocationOverlap := CallTraceLoopInvocationGroup.lastAndFirstInvocationOverlap
  mergeIntoAndReturnRemaining := CallTraceLoopInvocationGroup.mergeIntoAndReturnRemaining

/-- `CallTraceStreamer::getNextEntry`. -/
def getNextEntry : CallTraceStreamer →
    Except Fault (CallTraceStreamer × Option CallTraceLoopInvocationGroup) :=
  entryStream.getNextEntry

end CallTraceStreamer

/-! ## What one write leaves in the file -/

/-- The tokens of the entries with the completion symbols. -/
def callEntriesTokens (loopRunning : Bool) : List PrintedCallEntry → List Token
  | [] => []
  | [e] => e.tokens ++ [.newline, dumpToken loopRunning, .newline]
  | e :: es => e.tokens ++ ([.newline, .complete, .newline] ++ callEntriesTokens loopRunning es)

/-- What one write leaves in the call trace. -/
structure CallTraceChunk where
  entries : List PrintedCallEntry
  loopRunning : Bool

namespace CallTraceChunk

def tokens (c : CallTraceChunk) : List Token :=
  [.number c.entries.length, .newline] ++ callEntriesTokens c.loopRunning c.entries

/-- The entries of the chunk as they are read. -/
def items (c : CallTraceChunk) : List (CallTraceLoopInvocationGroup × ReturnStatus) :=
  pieces c.loopRunning (c.entries.map PrintedCallEntry.toEntry)

structure Valid (c : CallTraceChunk) : Prop where
  nonempty : c.entries ≠ []
  length_lt : c.entries.length < 2 ^ 64
  entries : ∀ e ∈ c.entries, e.Valid

end CallTraceChunk

namespace CallTraceCfcLex

variable {l l₂ : CallTraceCfcLex}

/-- One entry, from the first token up to the completion symbol. -/
theorem lexUntil_entry {pre : List Token} {e : PrintedCallEntry} (ends rest : List Token)
    (loopRunning : Bool) (hpre : l.start.Reads pre l₂) (hready : l₂.Ready)
    (hstate₂ : l₂.state = .invocPattern)
    (hentry : l₂.callEntry = CallTraceLoopInvocationGroup.new) (hvalid : e.Valid)
    (hends : ∀ t ∈ ends, t = .newline) :
    ∃ l', lexUntil lexToken l.start (pre ++ e.tokens ++ ends ++ dumpToken loopRunning :: rest)
        = .ok (l', rest, true) ∧ l'.callEntry = e.toEntry ∧
      l'.Ready ∧ l'.rstatus = dumpStatus loopRunning ∧
      l'.remaining_loopinvoc_entries = l₂.remaining_loopinvoc_entries - 1 ∧
      l'.state = if 0 < l₂.remaining_loopinvoc_entries - 1 then .invocPattern else .numInvoc := by
  rcases reads_entry hvalid hready hstate₂ hentry with
    ⟨l₆, hreads, hready₆, hstate₆, -, hremaining, hentry₆⟩
  have hnewline : l₆.lexToken .newline = .ok (l₆, false) := by
    simp [lexToken, newline, hstate₆]
  have hall : l.start.Reads (pre ++ e.tokens ++ ends) l₆ :=
    (hpre.append hreads).append (CamAlias.Reads.skip hnewline ends hends)
  let l' : CallTraceCfcLex := { l₆ with
    state := if 0 < l₆.remaining_loopinvoc_entries then .invocPattern else .numInvoc
    rstatus := dumpStatus loopRunning }
  have hsymbol : l₆.lexToken (dumpToken loopRunning) = .ok (l', true) := by
    cases loopRunning <;>
      simp [dumpToken, dumpStatus, lexToken, completion, hstate₆, Except.map, l']
  refine ⟨l', hall.lexUntil_eq hsymbol rest, hentry₆, ⟨hready₆.cfc, hready₆.reppat⟩, rfl,
    hremaining, ?_⟩
  simp only [l', hremaining]

/-- What the lexer finds in the tokens of a call trace. -/
abbrev Finds : CallTraceCfcLex → List Token → List (CallTraceLoopInvocationGroup × ReturnStatus) →
    Prop :=
  callEntryLexer.Finds

/-- In front of an entry the end of a line is skipped. -/
theorem Finds.newline {ts : List Token}
    {items : List (CallTraceLoopInvocationGroup × ReturnStatus)} (h : l.Finds ts items)
    (hstate : l.state ≠ .cfc) : l.Finds (.newline :: ts) items := by
  refine EntryLexer.Finds.skipNewline h ?_
  simp [callEntryLexer, lexToken, CallTraceCfcLex.newline, start, hstate]

theorem ready_of_state (hstate : l.state = .numInvoc ∨ l.state = .invocPattern) :
    callEntryLexer.ready l = true :=
  decide_eq_true hstate

/-- The entries of one write are found one after the other. -/
theorem finds_entries (loopRunning : Bool) {rest : List Token}
    {items : List (CallTraceLoopInvocationGroup × ReturnStatus)}
    (hrest : ∀ l : CallTraceCfcLex, l.Ready → l.state = .numInvoc → l.Finds rest items) :
    ∀ (es : List PrintedCallEntry) (l l₂ : CallTraceCfcLex) (pre : List Token), es ≠ [] →
      (∀ e ∈ es, e.Valid) → (l.state = .numInvoc ∨ l.state = .invocPattern) →
      l.start.Reads pre l₂ → l₂.Ready → l₂.state = .invocPattern →
      l₂.callEntry = CallTraceLoopInvocationGroup.new →
      l₂.remaining_loopinvoc_entries = es.length →
      l.Finds (pre ++ (callEntriesTokens loopRunning es ++ rest))
        (pieces loopRunning (es.map PrintedCallEntry.toEntry) ++ items) := by
  intro es
  induction es with
  | nil =>
      intro l l₂ pre hne
      exact absurd rfl hne
  | cons e es ih =>
      intro l l₂ pre _ hvalid hstate hpre hready hstate₂ hentry hremaining
      -- only the last entry of a write may be one of a running loop
      cases es with
      | nil =>
          rcases lexUntil_entry [.newline] (.newline :: rest) loopRunning
            hpre hready hstate₂ hentry (hvalid e (by simp)) (by simp)
            with ⟨l', hlex, hentry', hready', hrstatus, -, hstate'⟩
          have hzero : l'.state = .numInvoc := by simpa [hremaining] using hstate'
          have hnext := EntryLexer.Finds.piece (ready_of_state hstate) hlex hentry' hrstatus
            ((hrest l' hready' hzero).newline (by simp [hzero]))
          simpa [callEntriesTokens, pieces] using hnext
      | cons e' es =>
          rcases lexUntil_entry [.newline]
            (.newline :: (callEntriesTokens loopRunning (e' :: es) ++ rest)) false
            hpre hready hstate₂ hentry (hvalid e (by simp)) (by simp)
            with ⟨l', hlex, hentry', hready', hrstatus, hremaining', hstate'⟩
          have htwo : l'.state = .invocPattern := by simpa [hremaining] using hstate'
          have hlen : l'.remaining_loopinvoc_entries = (e' :: es).length := by
            simp [hremaining', hremaining]
          have hnewline : l'.start.Reads [.newline] l'.start :=
            reads_newline (by simp [start, htwo])
          have hrec := ih l' l'.start [.newline] (by simp)
            (fun i hi => hvalid i (List.mem_cons_of_mem _ hi)) (Or.inr htwo) hnewline
            ⟨hready'.cfc, hready'.reppat⟩ htwo rfl hlen
          have hnext := EntryLexer.Finds.piece (ready_of_state hstate) hlex hentry' hrstatus hrec
          simpa [callEntriesTokens, pieces, dumpToken, dumpStatus] using hnext

/-- The lexer finds the entries of all chunks. -/
theorem finds_chunks (chunks : List CallTraceChunk) (hvalid : ∀ c ∈ chunks, c.Valid) :
    ∀ l : CallTraceCfcLex, l.Ready → l.state = .numInvoc →
      l.Finds (chunks.flatMap CallTraceChunk.tokens) (chunks.flatMap CallTraceChunk.items) := by
  induction chunks with
  | nil =>
      intro l _ hstate
      exact EntryLexer.Finds.done (ready_of_state (Or.inl hstate)) rfl
  | cons c chunks ih =>
      intro l hready hstate
      have hc := hvalid c (by simp)
      have hcount : strtoull c.entries.length = c.entries.length := strtoull_of_lt hc.length_lt
      let l₂ : CallTraceCfcLex := { l.start with
        remaining_loopinvoc_entries := c.entries.length
        state := .invocPattern }
      have hnumber : l.start.lexToken (.number c.entries.length) = .ok (l₂, false) := by
        simp [lexToken, number, start, hstate, hcount, Except.map, l₂]
      have hheader : l.start.Reads [.number c.entries.length, .newline] l₂ :=
        Reads.cons hnumber (reads_newline (by simp [l₂]))
      have hall := finds_entries c.loopRunning
        (ih fun c' hc' => hvalid c' (List.mem_cons_of_mem _ hc')) c.entries l l₂ _ hc.nonempty
        hc.entries (Or.inl hstate) hheader ⟨hready.cfc, hready.reppat⟩ rfl rfl rfl
      simpa [CallTraceChunk.tokens, CallTraceChunk.items] using hall

end CallTraceCfcLex

/-- The entries of a file that consists of chunks. -/
theorem CallTraceStreamer.serves_ofFile {chunks : List CallTraceChunk}
    (hvalid : ∀ c ∈ chunks, c.Valid) {file : List BzRead}
    (hfile : Tells file (chunks.flatMap CallTraceChunk.tokens))
    {es : List CallTraceLoopInvocationGroup}
    (hjoin : entryStream.joinEntries none (chunks.flatMap CallTraceChunk.items) = .ok (es, none)) :
    entryStream.Serves (ofFile file) es :=
  (CallTraceCfcLex.finds_chunks chunks hvalid _ ⟨rfl, rfl⟩ rfl).serves hfile hjoin

/-! ## What the entries stand for -/

namespace CallTraceLoopInvocationGroup

/-- The entry stands for a part of the instances of each call. -/
structure IsPiece (clig : CallTraceLoopInvocationGroup) (p : UInt64 → Part) : Prop where
  ascending : Ascending clig.repetitions
  instances : ∀ id, Describes (p id).first (p id).values (instancesOf clig.calls id)

/-- The entry stands for the instances of each call. -/
structure Stands (clig : CallTraceLoopInvocationGroup) (calls : UInt64 → List (List UInt64)) :
    Prop where
  ascending : Ascending clig.repetitions
  instances : ∀ id, Describes 0 (calls id) (instancesOf clig.calls id)

/-- The entry settles the instances. -/
theorem Stands.unique {clig : CallTraceLoopInvocationGroup}
    {calls calls' : UInt64 → List (List UInt64)} (h : clig.Stands calls) (h' : clig.Stands calls') :
    calls = calls' :=
  funext fun id => (h.instances id).content_unique (h'.instances id)

/-- Two pieces of one loop invocation are merged when their calls are. -/
theorem joinPiece_of_mergeCallInfo {o e : CallTraceLoopInvocationGroup} {n : Nat}
    {calls left : CallMap} (hpattern : o.repetitions = [(n, n)])
    (hpattern' : e.repetitions = [(n, n)])
    (hmerge : o.mergeCallInfo e.calls = .ok ({ o with calls }, left)) :
    CallTraceStreamer.entryStream.joinPiece o e = .ok { o with calls } := by
  have hoverlap : o.lastAndFirstInvocationOverlap e = .ok true := by
    simp [lastAndFirstInvocationOverlap, getLastInvocationNumber, getFirstInvocationNumber,
      hpattern, hpattern', RepetitionPattern.getLastInstance, RepetitionPattern.getFirstInstance,
      sameNumber]
  have hsingle : o.isASingleInvocation = true := by
    simp [isASingleInvocation, hpattern, RepetitionPattern.isSingleton]
  have hsingle' : ({ e with calls := left } : CallTraceLoopInvocationGroup).isASingleInvocation
      = true := by
    simp [isASingleInvocation, hpattern', RepetitionPattern.isSingleton]
  have hnonempty : e.isEmpty = false := by simp [isEmpty, hpattern']
  have hinto : o.mergeIntoAndReturnRemaining e = .ok ({ o with calls }, []) := by
    simp [mergeIntoAndReturnRemaining, hnonempty, hoverlap, hsingle, remainingInvocations, hsingle',
      hmerge, Except.map]
  simp [EntryStream.joinPiece, CallTraceStreamer.entryStream, hoverlap, hinto]

/-- Two pieces of one loop invocation are merged. -/
theorem joinPiece_eq {o e : CallTraceLoopInvocationGroup} {n : Nat}
    {xs : UInt64 → List (List UInt64)} {p : UInt64 → Part} (hn : numbers o.repetitions = [n])
    (hn' : numbers e.repetitions = [n]) (ho : o.Stands xs) (he : e.IsPiece p)
    (hcont : ∀ id, (p id).Continues (xs id)) :
    ∃ o', CallTraceStreamer.entryStream.joinPiece o e = .ok o' ∧ numbers o'.repetitions = [n] ∧
      o'.Stands fun id => (p id).join (xs id) := by
  have hpattern := ho.ascending.eq_singleton hn
  have hpattern' := he.ascending.eq_singleton hn'
  rcases mergeCallInfo_eq o (fun id => (ho.instances id).separate)
    (fun id => (he.instances id).separate)
    (fun id => Part.adjoins (ho.instances id) (he.instances id) (hcont id)) with
    ⟨calls, left, hmerge, hmerged⟩
  refine ⟨{ o with calls }, joinPiece_of_mergeCallInfo hpattern hpattern' hmerge, hn, ho.ascending,
    ?_⟩
  · intro id
    exact Part.describes_join (ho.instances id) (he.instances id) (hcont id) (hmerged id).1

end CallTraceLoopInvocationGroup

/-- The pieces of the call trace are parts of loop invocations, its entries whole ones. -/
def callPieces :
    PieceModel CallTraceStreamer.entryStream (UInt64 → Part) (UInt64 → List (List UInt64)) where
  numbers := fun clig => numbers clig.repetitions
  IsPiece := CallTraceLoopInvocationGroup.IsPiece
  Stands := CallTraceLoopInvocationGroup.Stands
  Uncut := fun p => ∀ id, (p id).first = 0
  Continues := fun xs p => ∀ id, (p id).Continues (xs id)
  whole := fun p id => (p id).values
  join := fun xs p id => (p id).join (xs id)
  stands_whole := by
    intro e p he hp
    exact ⟨he.ascending, fun id => hp id ▸ he.instances id⟩
  joinPiece_eq := by
    intro o e n xs p hn hn' ho he hcont
    exact CallTraceLoopInvocationGroup.joinPiece_eq hn hn' ho he hcont

end CamAlias
