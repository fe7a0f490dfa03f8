import CamAlias.Tracer.CallPrinting
import CamAlias.Tracer.Pending
import CamAlias.Tracer.Progress
import Mathlib.Data.List.Perm.Subperm

/-!
# Meaning — what the data of the tracer stand for

A list of infos stands for a part of a sequence (`SymbolGroups`), the call traces of a loop
invocation for a part of each call's instances (`CallTraces.Stands`).  What the tracer finds equal
stands for the same, and what it writes is read as pieces of it.
-/

namespace CamAlias

open Lib ControlFlowCompressor

/-! ## Iterations and instances -/

/-- The groups stand for the elements of the part. -/
def SymbolGroups (infos : List (SharedInfo ControlFlowCompressor)) (p : Part) : Prop :=
  Groups (fun (c : ControlFlowCompressor) symbols => Compresses c.contents symbols) p.first p.values
    (infos.map SharedInfo.group)

/-- The members and the control flow. -/
def SharedInfo.content (info : SharedInfo ControlFlowCompressor) :
    List Nat × List TracerCompressionPattern :=
  (info.members, info.payload.contents)

namespace SymbolGroups

variable {infos infos' : List (SharedInfo ControlFlowCompressor)} {p : Part}

theorem iff_content : SymbolGroups infos p ↔
    Groups Compresses p.first p.values (infos.map SharedInfo.content) :=
  ⟨fun h => h.image (fun _ _ => rfl) fun _ _ _ _ hr => hr,
    fun h => h.image (fun _ _ => rfl) fun _ _ _ _ hr => hr⟩

/-- Only the members and the control flow count. -/
theorem of_content_eq (h : SymbolGroups infos p)
    (hsame : infos'.map SharedInfo.content = infos.map SharedInfo.content) :
    SymbolGroups infos' p := by
  rw [iff_content] at h ⊢
  rwa [hsame]

/-- Few enough bits, and no number wraps: the groups are written as they are. -/
theorem writable (h : SymbolGroups infos p) (hbits : ∀ info ∈ infos, info.sharers.length < 2 ^ 31)
    (hcount : p.first + p.values.length < 2 ^ 64) :
    ∀ info ∈ infos, info.Writable ∧ TracerCompressionPattern.Printable info.payload.contents := by
  intro info hinfo
  have hmem : info.group ∈ infos.map SharedInfo.group := List.mem_map_of_mem hinfo
  constructor
  · refine ⟨hbits info hinfo, ?_⟩
    intro n hn
    have hb := Groups.bounds h hmem hn
    omega
  · rcases List.exists_mem_of_ne_nil _ (Groups.nonempty h _ hmem) with ⟨k, hk⟩
    rcases Groups.value h _ hmem k hk with ⟨symbols, -, hcompresses⟩
    exact hcompresses.printable

/-- What is written is read as the elements of the part. -/
theorem describes (h : SymbolGroups infos p) (hwritable : ∀ info ∈ infos, info.Writable) :
    Describes p.first p.values (infos.map fun info => info.printed.toCfcGroup) := by
  refine ⟨?_, ?_⟩
  · rw [List.map_map]
    refine Groups.image h ?_ ?_
    · intro info hinfo
      exact (hwritable info hinfo).writtenRanges_eq.2.2.2
    · intro info _ symbols _ hcompresses
      refine ⟨?_, ?_⟩
      · exact (TracerCompressionPattern.expandAll_toCompressionPatterns _).trans
          hcompresses.expand_eq
      · exact TracerCompressionPattern.positiveAll_toCompressionPatterns _ hcompresses.wellFormed
  · intro g hg
    rcases List.mem_map.1 hg with ⟨info, hinfo, rfl⟩
    exact (hwritable info hinfo).writtenRanges_eq.2.1

end SymbolGroups

/-- Equal lists of iterations. -/
theorem IterationInfo.content_eq_of_beqAll : ∀ {infos infos' : List IterationInfo},
    beqAll infos infos' = true → infos.map SharedInfo.content = infos'.map SharedInfo.content := by
  intro infos
  induction infos with
  | nil =>
      intro infos' h
      cases infos' with
      | nil => rfl
      | cons _ _ => simp [beqAll] at h
  | cons info infos ih =>
      intro infos' h
      cases infos' with
      | nil => simp [beqAll] at h
      | cons info' infos' =>
          simp only [beqAll, beq, Bool.and_eq_true, beq_iff_eq, ControlFlowCompressor.beq_iff] at h
          rcases h with ⟨⟨⟨hoffset, hbits⟩, hcontents⟩, hrest⟩
          have hmembers : info.members = info'.members := by
            rw [SharedInfo.members, SharedInfo.members, hoffset, XanBitSet.members_eq_of_equal hbits]
          have htail := ih hrest
          rw [List.map_cons, List.map_cons, htail, SharedInfo.content, SharedInfo.content, hmembers,
            hcontents]

/-- An invocation that is found equal stands for the same iterations. -/
theorem LoopTrace.symbolGroups_of_invocationsMatch {inv inv' : List IterationInfo} {p : Part}
    (h : SymbolGroups inv p) (hmatch : LoopTrace.invocationsMatch inv inv' = true) :
    SymbolGroups inv' p :=
  h.of_content_eq (IterationInfo.content_eq_of_beqAll hmatch).symm

/-! ## Calls -/

namespace CallTraces

/-- The groups of a call ID. -/
def infosOf (callTraces : CallTraces) (id : UInt64) : List (SharedInfo ControlFlowCompressor) :=
  ((callTraces.lookup id).map fun trace => trace.groups.infos).getD []

theorem infosOf_of_mem {callTraces : CallTraces} (h : (callTraces.map Prod.fst).Nodup)
    {item : UInt64 × CallTrace} (hitem : item ∈ callTraces) :
    callTraces.infosOf item.1 = item.2.groups.infos := by
  rw [infosOf, HashTable.lookup_of_mem h hitem]
  rfl

/-- The call traces stand for a part of each call's instances. -/
structure Stands (callTraces : CallTraces) (p : UInt64 → Part) : Prop where
  distinct : (callTraces.map Prod.fst).Nodup
  groups : ∀ id, SymbolGroups (callTraces.infosOf id) (p id)
  firstSeen : ∀ id, FirstSeen (p id).first (fun _ => False)
    ((callTraces.infosOf id).map SharedInfo.group)

theorem forall₂_of_beqInfos : ∀ {infos infos' : List (SharedInfo ControlFlowCompressor)},
    CallTrace.beqInfos infos infos' = true →
      List.Forall₂ (fun i i' : SharedInfo ControlFlowCompressor =>
        i.sharers.members = i'.sharers.members ∧ i.payload.contents = i'.payload.contents)
        infos infos' := by
  intro infos
  induction infos with
  | nil =>
      intro infos' h
      cases infos' with
      | nil => exact List.Forall₂.nil
      | cons _ _ => simp [CallTrace.beqInfos] at h
  | cons info infos ih =>
      intro infos' h
      cases infos' with
      | nil => simp [CallTrace.beqInfos] at h
      | cons info' infos' =>
          simp only [CallTrace.beqInfos, CallTrace.invocationsMatch, Bool.and_eq_true,
            ControlFlowCompressor.beq_iff] at h
          rcases h with ⟨⟨hcontents, hbits⟩, hrest⟩
          exact List.Forall₂.cons ⟨XanBitSet.members_eq_of_equal hbits, hcontents⟩ (ih hrest)

/-- The comparison leaves out where the bits of a group begin; for instances counted from 0 this
follows from the order of the groups. -/
theorem content_eq_of_beqInfos {infos infos' : List (SharedInfo ControlFlowCompressor)} {p q : Part}
    (h : SymbolGroups infos p) (h' : SymbolGroups infos' q)
    (hseen : FirstSeen 0 (fun _ => False) (infos.map SharedInfo.group))
    (hseen' : FirstSeen 0 (fun _ => False) (infos'.map SharedInfo.group))
    (hsame : CallTrace.beqInfos infos infos' = true) :
    infos.map SharedInfo.content = infos'.map SharedInfo.content := by
  have hforall := forall₂_of_beqInfos hsame
  have hnodup : ∀ {is : List (SharedInfo ControlFlowCompressor)} {r : Part}, SymbolGroups is r →
      (is.flatMap SharedInfo.members).Nodup := by
    intro is r hr
    have := Groups.nodup hr
    rwa [List.flatMap_map] at this
  have hmembers := SharedInfo.map_members_eq (hforall.imp fun _ _ hi => hi.1) hseen hseen'
    (hnodup h) (hnodup h') (fun k _ => ⟨Nat.zero_le k, id⟩) fun k _ => ⟨Nat.zero_le k, id⟩
  have hcontents : infos.map (fun i => i.payload.contents)
      = infos'.map fun i => i.payload.contents := by
    rw [← List.forall₂_eq_eq_eq, List.forall₂_map_left_iff, List.forall₂_map_right_iff]
    exact hforall.imp fun _ _ hi => hi.2
  have hzip : ∀ is : List (SharedInfo ControlFlowCompressor), is.map SharedInfo.content
      = List.zip (is.map SharedInfo.members) (is.map fun i => i.payload.contents) := by
    intro is
    rw [List.zip_map']
    rfl
  rw [hzip, hzip, hmembers, hcontents]

/-- Call traces that are found equal have the same IDs. -/
theorem keys_of_isEqual {callTraces callTraces' : CallTraces}
    (hdistinct : (callTraces.map Prod.fst).Nodup)
    (h : isEqual callTraces callTraces' = true) :
    ∀ id, id ∈ callTraces'.map Prod.fst → id ∈ callTraces.map Prod.fst := by
  simp only [isEqual, Bool.and_eq_true, beq_iff_eq, List.all_eq_true] at h
  rcases h with ⟨hlen, hall⟩
  have hsub : callTraces.map Prod.fst ⊆ callTraces'.map Prod.fst := by
    intro id hid
    rcases List.mem_map.1 hid with ⟨item, hitem, rfl⟩
    have hitem' := hall item hitem
    cases hlookup : callTraces'.lookup item.1 with
    | none => simp [hlookup] at hitem'
    | some trace =>
        have hmem := HashTable.mem_of_lookup hlookup
        exact List.mem_map.2 ⟨_, hmem, rfl⟩
  have hperm : (callTraces.map Prod.fst).Perm (callTraces'.map Prod.fst) :=
    (List.subperm_of_subset hdistinct hsub).perm_of_length_le (by simp [hlen])
  exact fun id hid => hperm.mem_iff.2 hid

/-- Call traces that are found equal stand for the same instances, if both were begun with the
invocation. -/
theorem stands_of_isEqual {callTraces callTraces' : CallTraces} {p q : UInt64 → Part}
    (h : callTraces.Stands p) (h' : callTraces'.Stands q) (hp : ∀ id, (p id).first = 0)
    (hq : ∀ id, (q id).first = 0) (hsame : isEqual callTraces callTraces' = true) :
    callTraces'.Stands p := by
  have hcontent : ∀ id, (callTraces'.infosOf id).map SharedInfo.content
      = (callTraces.infosOf id).map SharedInfo.content := by
    intro id
    -- the two tables have the same keys, and under each the same groups
    cases hlookup : callTraces.lookup id with
    | none =>
        have hnot : id ∉ callTraces.map Prod.fst := by
          intro hid
          rcases List.mem_map.1 hid with ⟨item, hitem, rfl⟩
          rw [HashTable.lookup_of_mem h.distinct hitem] at hlookup
          simp at hlookup
        have hlookup' : callTraces'.lookup id = none := by
          cases hcases : callTraces'.lookup id with
          | none => rfl
          | some trace =>
              refine absurd (keys_of_isEqual h.distinct hsame id ?_) hnot
              exact List.mem_map_of_mem (HashTable.mem_of_lookup hcases)
        simp [infosOf, hlookup, hlookup']
    | some trace =>
        have hall := hsame
        simp only [isEqual, Bool.and_eq_true, List.all_eq_true] at hall
        have hitem := hall.2 _ (HashTable.mem_of_lookup hlookup)
        simp only at hitem
        cases hlookup' : callTraces'.lookup id with
        | none => simp [hlookup'] at hitem
        | some trace' =>
            simp only [hlookup', CallTrace.beq] at hitem
            have hseen := h.firstSeen id
            have hseen' := h'.firstSeen id
            have hgroups := h.groups id
            have hgroups' := h'.groups id
            simp only [infosOf, hlookup, hlookup', Option.map_some, Option.getD_some, hp id, hq id]
              at hseen hseen' hgroups hgroups' ⊢
            exact content_eq_of_beqInfos hgroups' hgroups hseen' hseen hitem
  refine ⟨h'.distinct, fun id => (h.groups id).of_content_eq (hcontent id), ?_⟩
  intro id
  refine (h.firstSeen id).of_fst_eq ?_
  have hfst := congrArg (List.map Prod.fst) (hcontent id)
  simpa [List.map_map, Function.comp_def, SharedInfo.content] using hfst

end CallTraces

/-! ## What is read -/

/-- The entry that is read for a written invocation group. -/
def loopEntry (info : SharedInfo (List IterationInfo)) : LoopTraceEntry :=
  (printedInvocation info).toEntry

theorem isPiece_loopEntry {info : SharedInfo (List IterationInfo)} (h : InvocationWritable info)
    {p : Part} (hp : SymbolGroups info.payload p) : (loopEntry info).IsPiece p := by
  refine ⟨h.writable.writtenRanges_eq.2.1, ?_⟩
  have hdescribes := hp.describes fun it hit => (h.iterations it hit).1
  simpa [loopEntry, PrintedInvocation.toEntry, printedInvocation, Function.comp_def] using hdescribes

theorem numbers_loopEntry {info : SharedInfo (List IterationInfo)} (h : InvocationWritable info) :
    loopPieces.numbers (loopEntry info) = info.members :=
  h.writable.writtenRanges_eq.2.2.2

/-- The entry that is read for the written call traces of an invocation group. -/
def callEntry (info : LoopInvocationCallInfo) : CallTraceLoopInvocationGroup :=
  (printedEntry info).toEntry

theorem numbers_callEntry {info : LoopInvocationCallInfo} (h : EntryWritable info) :
    callPieces.numbers (callEntry info) = info.members := by
  have hrep : (callEntry info).repetitions = info.ranges :=
    PrintedCallEntry.repetitions_toEntry h.valid
  exact (congrArg numbers hrep).trans h.writable.writtenRanges_eq.2.2.2

/-- The groups of a call ID, as they are written. -/
theorem lookup_printedCalls {callTraces : CallTraces} (h : (callTraces.map Prod.fst).Nodup)
    (id : UInt64) :
    ((callTraces.recorded.map printedCall).lookup id).getD []
      = (callTraces.infosOf id).map SharedInfo.printed := by
  have hkeys : ((callTraces.recorded.map printedCall).map Prod.fst).Nodup := by
    rw [List.map_map]
    exact h.sublist (List.filter_sublist.map _)
  cases hlookup : (callTraces.recorded.map printedCall).lookup id with
  | some gs =>
      rcases List.mem_map.1 (HashTable.mem_of_lookup hlookup) with ⟨item, hitem, heq⟩
      rcases Prod.mk.inj heq with ⟨rfl, rfl⟩
      rw [CallTraces.infosOf_of_mem h (List.mem_filter.1 hitem).1]
      rfl
  | none =>
      cases htrace : callTraces.lookup id with
      | none => simp [CallTraces.infosOf, htrace]
      | some trace =>
          by_cases hempty : trace.groups.infos = []
          · simp [CallTraces.infosOf, htrace, hempty]
          · -- a call with groups is written
            have hitem : (id, trace) ∈ callTraces.recorded := by
              refine List.mem_filter.2 ⟨HashTable.mem_of_lookup htrace, ?_⟩
              simpa using List.length_pos_of_ne_nil hempty
            have := HashTable.lookup_of_mem hkeys (List.mem_map_of_mem hitem)
            simp only [printedCall] at this hlookup
            rw [hlookup] at this
            simp at this

/-- The groups of a call ID are found in whatever order the calls are written. -/
theorem EntryWritable.lookup_calls {info : LoopInvocationCallInfo} (h : EntryWritable info)
    (id : UInt64) :
    ((printedEntry info).calls.lookup id).getD []
      = (info.payload.infosOf id).map SharedInfo.printed := by
  rw [printedEntry, lookup_printedCalls h.distinct_walked, CallTraces.infosOf,
    HashTable.lookup_of_perm h.distinct h.perm, CallTraces.infosOf]

theorem isPiece_callEntry {info : LoopInvocationCallInfo} (h : EntryWritable info)
    {p : UInt64 → Part} (hp : info.payload.Stands p) : (callEntry info).IsPiece p := by
  refine ⟨?_, ?_⟩
  · have hrep : (callEntry info).repetitions = info.ranges :=
      PrintedCallEntry.repetitions_toEntry h.valid
    rw [hrep]
    exact h.writable.writtenRanges_eq.2.1
  · intro id
    have hwritable : ∀ i ∈ info.payload.infosOf id, i.Writable := by
      intro i hi
      cases hlookup : info.payload.lookup id with
      | none => simp [CallTraces.infosOf, hlookup] at hi
      | some trace =>
          have htrace := h.traces _ (HashTable.mem_of_lookup hlookup)
          simp only [CallTraces.infosOf, hlookup, Option.map_some, Option.getD_some] at hi
          exact (htrace.infos i hi).1
    have hdescribes := (hp.groups id).describes hwritable
    have hinstances := PrintedCallEntry.instancesOf_toEntry h.valid id
    rw [h.lookup_calls, List.map_map] at hinstances
    exact hinstances ▸ hdescribes

end CamAlias
