import CamAlias.Dependence.Consumption
import CamAlias.Dependence.Formed

/-!
# References — the dependences in terms of single references

The entries of a slice are strided patterns.  Where all references are in user space, and the test for
aliases decides whether two patterns share a byte, what an invocation shows for a pair is what its single
references show.

* `StandFor.conflict_iff`: patterns and references;
* `StandFor.comesTo_dependences`: a pass finds the dependences of the references.
-/

namespace CamAlias

open Lib

/-! ## What references show -/

/-- Two references of an invocation that are in different iterations and share a byte. -/
def Conflict (refs : UInt64 × Stream → List TaggedReference) (WAW : Bool)
    (instrPair : UInt64 × UInt64) (write read : TaggedReference) : Prop :=
  write ∈ refs (instrPair.1, .write) ∧ read ∈ refs (instrPair.2, secondStream WAW) ∧
    write.1.1 ≠ read.1.1 ∧ write.2.SharesByte read.2

/-- A dependence between the effective instructions of two such references. -/
def DependsOn (refs : UInt64 × Stream → List TaggedReference) (WAW : Bool)
    (instrPair x : UInt64 × UInt64) : Prop :=
  ∃ write read, Conflict refs WAW instrPair write read ∧
    (x = (write.1.2, read.1.2) ∨ WAW = true ∧ x = (read.1.2, write.1.2))

/-- All references of a stream have one effective instruction. -/
def OneInstruction (refs : List TaggedReference) : Prop :=
  ∀ r ∈ refs, ∀ r' ∈ refs, r.1.2 = r'.1.2

instance (refs : List TaggedReference) : Decidable (OneInstruction refs) :=
  inferInstanceAs (Decidable (∀ r ∈ refs, ∀ r' ∈ refs, r.1.2 = r'.1.2))

/-- There is a dependence, and it is the only one that the pair can have in the invocation. -/
def SettledBy (refs : UInt64 × Stream → List TaggedReference) (WAW : Bool)
    (instrPair : UInt64 × UInt64) : Prop :=
  (OneInstruction (refs (instrPair.1, .write)) ∧
      OneInstruction (refs (instrPair.2, secondStream WAW))) ∧
    ∃ write read, Conflict refs WAW instrPair write read

theorem exists_conflict_iff_mem {refs : UInt64 × Stream → List TaggedReference} {WAW : Bool}
    {instrPair : UInt64 × UInt64} :
    (∃ write ∈ refs (instrPair.1, .write), ∃ read ∈ refs (instrPair.2, secondStream WAW),
        write.1.1 ≠ read.1.1 ∧ write.2.SharesByte read.2) ↔
      ∃ write read, Conflict refs WAW instrPair write read := by
  constructor
  · rintro ⟨write, hwrite, read, hread, hne, hbyte⟩
    exact ⟨write, read, hwrite, hread, hne, hbyte⟩
  · rintro ⟨write, read, hwrite, hread, hne, hbyte⟩
    exact ⟨write, hwrite, read, hread, hne, hbyte⟩

instance (refs : UInt64 × Stream → List TaggedReference) (WAW : Bool) (instrPair : UInt64 × UInt64) :
    Decidable (∃ write read, Conflict refs WAW instrPair write read) :=
  decidable_of_iff _ exists_conflict_iff_mem

instance (refs : UInt64 × Stream → List TaggedReference) (WAW : Bool) (instrPair : UInt64 × UInt64) :
    Decidable (SettledBy refs WAW instrPair) :=
  inferInstanceAs (Decidable (_ ∧ ∃ write read, Conflict refs WAW instrPair write read))

/-! ## Patterns and references -/

section Patterns

variable {slice : UInt64 × Stream → List MemSetEntry}
  {refs : UInt64 × Stream → List TaggedReference} {needs : UInt64 × Stream → Prop}
  {streams : UInt64 × Stream → List Reference}

theorem mem_flatMap_tagged {entries : List MemSetEntry} {x : TaggedReference} :
    x ∈ entries.flatMap MemSetEntry.tagged ↔
      ∃ e ∈ entries, (e.iterationNumber, e.effectiveInstrID) = x.1 ∧ x.2 ∈ e.accesses := by
  simp only [List.mem_flatMap, MemSetEntry.tagged, List.mem_map]
  constructor
  · rintro ⟨e, he, r, hr, rfl⟩
    exact ⟨e, he, rfl, hr⟩
  · rintro ⟨e, he, htag, hr⟩
    exact ⟨e, he, x.2, hr, Prod.ext htag rfl⟩

/-- An entry has a reference. -/
theorem length_le_of_tagged {entries : List MemSetEntry} {references : List TaggedReference}
    (h : entries.flatMap MemSetEntry.tagged = references) : entries.length ≤ references.length := by
  subst h
  induction entries with
  | nil => exact Nat.le_refl 0
  | cons e entries ih =>
      have hpos := e.instances_pos
      have hone : e.tagged.length = e.instances := by
        rw [MemSetEntry.tagged, List.length_map, MemSetEntry.length_accesses]
      rw [List.flatMap_cons, List.length_append, List.length_cons, hone]
      omega

/-- An entry stands for references that follow each other. -/
theorem accesses_infix {entries : List MemSetEntry} {references : List TaggedReference}
    (h : entries.flatMap MemSetEntry.tagged = references) {e : MemSetEntry} (he : e ∈ entries) :
    e.accesses <:+: references.map Prod.snd := by
  subst h
  rw [List.map_flatMap]
  simp only [MemSetEntry.map_snd_tagged]
  exact List.infix_of_mem_flatten (List.mem_map_of_mem he)

/-- The slices stand for the references, and are made of streams in user space. -/
structure StandFor (needs : UInt64 × Stream → Prop) (streams : UInt64 × Stream → List Reference)
    (slice : UInt64 × Stream → List MemSetEntry) (refs : UInt64 × Stream → List TaggedReference) :
    Prop where
  tagged : ∀ key, needs key → (slice key).flatMap MemSetEntry.tagged = refs key
  formed : ∀ key, needs key → ∀ e ∈ slice key, e.Formed (streams key)
  userSpace : ∀ key, needs key → ∀ r ∈ streams key, r.InUserSpace

theorem StandFor.inUserSpace (h : StandFor needs streams slice refs) {key : UInt64 × Stream}
    (hneeds : needs key) {e : MemSetEntry} (he : e ∈ slice key) : e.InUserSpace :=
  (h.formed key hneeds e he).inUserSpace (h.userSpace key hneeds)

/-- An entry stands for some reference. -/
theorem StandFor.exists_of_mem (h : StandFor needs streams slice refs) {key : UInt64 × Stream}
    (hneeds : needs key) {e : MemSetEntry} (he : e ∈ slice key) :
    ∃ r ∈ refs key, r.1 = (e.iterationNumber, e.effectiveInstrID) := by
  refine ⟨((e.iterationNumber, e.effectiveInstrID), ⟨e.getAccessLower 0, e.length⟩), ?_, rfl⟩
  rw [← h.tagged key hneeds]
  refine mem_flatMap_tagged.2 ⟨e, he, rfl, MemSetEntry.mem_accesses.2 ⟨0, ?_, rfl⟩⟩
  exact e.instances_pos

/-- The entries have one effective instruction if their references do. -/
theorem StandFor.same (h : StandFor needs streams slice refs) {key : UInt64 × Stream}
    (hneeds : needs key) (hone : OneInstruction (refs key)) {e e' : MemSetEntry} (he : e ∈ slice key)
    (he' : e' ∈ slice key) : e.effectiveInstrID = e'.effectiveInstrID := by
  rcases h.exists_of_mem hneeds he with ⟨r, hr, htag⟩
  rcases h.exists_of_mem hneeds he' with ⟨r', hr', htag'⟩
  have hsame := hone r hr r' hr'
  rwa [htag, htag'] at hsame

variable {isAlias : MemSetEntry → MemSetEntry → Option Bool} {WAW : Bool}
  {instrPair : UInt64 × UInt64}

/-- The entries that a pair is searched for in an invocation. -/
def Overlapping (slice : UInt64 × Stream → List MemSetEntry) (WAW : Bool)
    (instrPair : UInt64 × UInt64) (write read : MemSetEntry) : Prop :=
  write ∈ slice (instrPair.1, .write) ∧ read ∈ slice (instrPair.2, secondStream WAW) ∧
    ExtentsOverlap write read

/-- Patterns alias where their references are in conflict. -/
theorem StandFor.conflict_iff (h : StandFor needs streams slice refs)
    (htest : DecidesSharing needs streams isAlias)
    (hneeds : ∀ key, NeedsOf WAW instrPair key → needs key) {a b : Nat × UInt64} :
    (∃ write read, Overlapping slice WAW instrPair write read ∧ Aliases isAlias write read ∧
        (write.iterationNumber, write.effectiveInstrID) = a ∧
          (read.iterationNumber, read.effectiveInstrID) = b) ↔
      ∃ write read, Conflict refs WAW instrPair write read ∧ write.1 = a ∧ read.1 = b := by
  have hw := hneeds _ (Or.inl rfl)
  have hr := hneeds _ (Or.inr rfl)
  constructor
  · rintro ⟨write, read, ⟨hwrite, hread, hoverlap⟩, ⟨hiteration, halias⟩, rfl, rfl⟩
    rcases htest _ _ hw hr write read (h.formed _ hw write hwrite) (h.formed _ hr read hread)
      hoverlap with ⟨c, hc, hshares⟩
    rcases Option.some.inj (halias.symm.trans hc) with rfl
    rcases hshares.1 rfl with ⟨w, hwmem, r, hrmem, hbyte⟩
    refine ⟨((write.iterationNumber, write.effectiveInstrID), w),
      ((read.iterationNumber, read.effectiveInstrID), r), ⟨?_, ?_, hiteration, hbyte⟩, rfl, rfl⟩
    · rw [← h.tagged _ hw]
      exact mem_flatMap_tagged.2 ⟨write, hwrite, rfl, hwmem⟩
    · rw [← h.tagged _ hr]
      exact mem_flatMap_tagged.2 ⟨read, hread, rfl, hrmem⟩
  · rintro ⟨w, r, ⟨hwmem, hrmem, hiteration, hbyte⟩, rfl, rfl⟩
    rw [← h.tagged _ hw] at hwmem
    rw [← h.tagged _ hr] at hrmem
    rcases mem_flatMap_tagged.1 hwmem with ⟨write, hwrite, hwtag, hwacc⟩
    rcases mem_flatMap_tagged.1 hrmem with ⟨read, hread, hrtag, hracc⟩
    have hshares : ReferencesShareByte write read := ⟨w.2, hwacc, r.2, hracc, hbyte⟩
    have hoverlap := extentsOverlap_of_sharesByte (h.inUserSpace hw hwrite)
      (h.inUserSpace hr hread) hshares
    rcases htest _ _ hw hr write read (h.formed _ hw write hwrite) (h.formed _ hr read hread)
      hoverlap with ⟨c, hc, hdecides⟩
    rw [hdecides.2 hshares] at hc
    refine ⟨write, read, ⟨hwrite, hread, hoverlap⟩, ⟨?_, hc⟩, hwtag, hrtag⟩
    rw [← hwtag, ← hrtag] at hiteration
    exact hiteration

/-- The same, for what is said of the tags. -/
theorem StandFor.exists_conflict_iff (h : StandFor needs streams slice refs)
    (htest : DecidesSharing needs streams isAlias)
    (hneeds : ∀ key, NeedsOf WAW instrPair key → needs key)
    (P : Nat × UInt64 → Nat × UInt64 → Prop) :
    (∃ write read, Overlapping slice WAW instrPair write read ∧ Aliases isAlias write read ∧
        P (write.iterationNumber, write.effectiveInstrID)
          (read.iterationNumber, read.effectiveInstrID)) ↔
      ∃ write read, Conflict refs WAW instrPair write read ∧ P write.1 read.1 := by
  constructor
  · rintro ⟨write, read, hfound, halias, hP⟩
    rcases (h.conflict_iff htest hneeds).1 ⟨write, read, hfound, halias, rfl, rfl⟩ with
      ⟨w, r, hconflict, hw, hr⟩
    rw [← hw, ← hr] at hP
    exact ⟨w, r, hconflict, hP⟩
  · rintro ⟨w, r, hconflict, hP⟩
    rcases (h.conflict_iff htest hneeds).2 ⟨w, r, hconflict, rfl, rfl⟩ with
      ⟨write, read, hfound, halias, hw, hr⟩
    rw [← hw, ← hr] at hP
    exact ⟨write, read, hfound, halias, hP⟩

theorem StandFor.decided (h : StandFor needs streams slice refs)
    (htest : DecidesSharing needs streams isAlias)
    (hneeds : ∀ key, NeedsOf WAW instrPair key → needs key) {write read : MemSetEntry}
    (hfound : Overlapping slice WAW instrPair write read) : ∃ b, isAlias write read = some b := by
  rcases hfound with ⟨hwrite, hread, hoverlap⟩
  have hw := hneeds _ (Or.inl rfl)
  have hr := hneeds _ (Or.inr rfl)
  rcases htest _ _ hw hr write read (h.formed _ hw write hwrite) (h.formed _ hr read hread) hoverlap
    with ⟨b, hb, -⟩
  exact ⟨b, hb⟩

/-- What references show without `adjacent`. -/
def dependenceOutcomes (refs : UInt64 × Stream → List TaggedReference) : Outcomes where
  shows := DependsOn refs
  erased WAW instrPair := decide (SettledBy refs WAW instrPair)

/-- A pass without `adjacent` finds the dependences, if the flag of a pair says whether the references
have one effective instruction. -/
theorem StandFor.comesTo_dependences {args : AnalysisArgs} (hargs : args.adjacent = false)
    (h : StandFor needs streams slice refs) (htest : DecidesSharing needs streams isAlias)
    (hneeds : ∀ key, NeedsOf WAW instrPair key → needs key) {subInstrList : Finset UInt64}
    {inv : InvocationTraces} {c : Bool}
    (hconstant : refs (instrPair.1, .write) ≠ [] → refs (instrPair.2, secondStream WAW) ≠ [] →
      constantCallIDs subInstrList inv instrPair = .ok c ∧
        (c = true ↔ OneInstruction (refs (instrPair.1, .write)) ∧
          OneInstruction (refs (instrPair.2, secondStream WAW))))
    (hskip : inv.Skips subInstrList instrPair → refs (instrPair.1, .write) = []) {fuel : Nat}
    (hfuel : (slice (instrPair.1, .write)).length ≤ fuel) :
    ComesTo args isAlias fuel subInstrList inv slice WAW (dependenceOutcomes refs) instrPair := by
  have hw := hneeds _ (Or.inl rfl)
  have hr := hneeds _ (Or.inr rfl)
  have hnonempty : ∀ key, needs key → slice key ≠ [] → refs key ≠ [] := by
    intro key hkey hne hnil
    have hlen := length_le_of_tagged (h.tagged key hkey)
    rw [hnil] at hlen
    exact hne (List.eq_nil_of_length_eq_zero (Nat.le_zero.1 hlen))
  have hconflicts : (∃ write read, Overlapping slice WAW instrPair write read ∧
      Aliases isAlias write read) ↔ ∃ write read, Conflict refs WAW instrPair write read := by
    simpa only [and_true] using h.exists_conflict_iff htest hneeds fun _ _ => True
  constructor
  · intro _
    refine searchesPair_of_searchable (c := c) hargs ⟨?_, ?_, ?_⟩ hfuel (fun x => ?_) ?_
    · exact fun write hwrite read hread hoverlap =>
        h.decided htest hneeds ⟨hwrite, hread, hoverlap⟩
    · exact fun hwrites hreads => (hconstant (hnonempty _ hw hwrites) (hnonempty _ hr hreads)).1
    · intro hwrites hreads hc
      have hone := (hconstant (hnonempty _ hw hwrites) (hnonempty _ hr hreads)).2.1 hc
      exact ⟨fun e he e' he' => h.same hw hone.1 he he', fun e he e' he' => h.same hr hone.2 he he'⟩
    · exact h.exists_conflict_iff htest hneeds fun a b => x = (a.2, b.2) ∨ WAW = true ∧ x = (b.2, a.2)
    · refine Iff.trans ?_ decide_eq_true_iff.symm
      refine (and_congr_right fun _ => hconflicts).trans (and_congr_left ?_)
      rintro ⟨w, r, hconflict⟩
      exact (hconstant (List.ne_nil_of_mem hconflict.1) (List.ne_nil_of_mem hconflict.2.1)).2
  · -- a pair without writes is skipped, and has no dependence
    intro hskips
    have hnone : ∀ write read, ¬ Conflict refs WAW instrPair write read := by
      rintro write read ⟨hwrite, -⟩
      rw [hskip hskips] at hwrite
      cases hwrite
    constructor
    · rintro x ⟨write, read, hconflict, -⟩
      exact hnone write read hconflict
    · refine decide_eq_false ?_
      rintro ⟨-, write, read, hconflict⟩
      exact hnone write read hconflict

end Patterns
end CamAlias
