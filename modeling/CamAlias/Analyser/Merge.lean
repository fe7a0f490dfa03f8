import CamAlias.Analyser.CallTrace
import CamAlias.Analyser.LoopTraceEntry

/-!
# Merge — two dump segments of an invocation become one

`mergeIntoAndReturnRemaining` of `LoopTraceEntry` and of `CallTraceLoopInvocationGroup`.  Both are
read as a `Segment`: the invocations of the entry, and the groups that all of them share.

`mergeGroups` takes the cut number out of the groups of the second entry, in place.  The remaining
invocations of the second entry share these groups, and lose the number as well.
-/

namespace CamAlias

open Lib

/-! ## Segments -/

/-- The invocations of an entry and their groups: one list of groups for a loop, one for each call
ID for a call trace. -/
structure Segment (ι : Type) where
  invocations : RepetitionPattern
  groups : ι → List CfcGroup

namespace Segment

variable {ι : Type}

/-- Ascending ranges of invocations, and separate groups. -/
structure Proper (s : Segment ι) : Prop where
  ascending : Ascending s.invocations
  nonempty : s.invocations ≠ []
  separate : ∀ i, Separate (s.groups i)

/-- The control flow of number `k` in an invocation. -/
def flow (s : Segment ι) (invocation : Nat) (i : ι) (k : Nat) :
    Option (List CompressionPattern) :=
  if invocation ∈ numbers s.invocations then flowOf (s.groups i) k else none

/-- The entries cover the invocations of both segments once.  In each invocation every number has
the control flow of the segments that have the number there, one after the other. -/
structure Merged (first second : Segment ι) (entries : List (Segment ι)) : Prop where
  once : (entries.flatMap fun e => numbers e.invocations).Nodup
  covers : ∀ n, (∃ e ∈ entries, n ∈ numbers e.invocations) ↔
    n ∈ numbers first.invocations ∨ n ∈ numbers second.invocations
  proper : ∀ e ∈ entries, e.Proper
  flow : ∀ e ∈ entries, ∀ n ∈ numbers e.invocations, ∀ i k,
    e.flow n i k = Option.merge (· ++ ·) (first.flow n i k) (second.flow n i k)

/-- Two segments of one run: the second begins with the last invocation of the first, and there
with the number at which the first ended or with the next. -/
structure Cut (first second : Segment ι) : Prop where
  proper : first.Proper
  proper' : second.Proper
  overlap : ∃ n, first.invocations.getLastInstance = .ok n ∧
    second.invocations.getFirstInstance = .ok n
  adjoins : ∀ i, Adjoins (first.groups i) (second.groups i)

theorem flow_of_mem {s : Segment ι} {n : Nat} (h : n ∈ numbers s.invocations) (i : ι) (k : Nat) :
    s.flow n i k = flowOf (s.groups i) k := if_pos h

theorem flow_of_notMem {s : Segment ι} {n : Nat} (h : n ∉ numbers s.invocations) (i : ι)
    (k : Nat) : s.flow n i k = none := if_neg h

/-- Part of a segment's invocations, with other groups. -/
structure Covers (entries : List (Segment ι)) (ns : List Nat) (groups : ι → List CfcGroup) :
    Prop where
  numbers_eq : (entries.flatMap fun e => numbers e.invocations) = ns
  groups_eq : ∀ e ∈ entries, e.groups = groups
  ascending : ∀ e ∈ entries, Ascending e.invocations
  nonempty : ∀ e ∈ entries, e.invocations ≠ []

theorem Covers.mem {entries : List (Segment ι)} {ns : List Nat} {groups : ι → List CfcGroup}
    (h : Covers entries ns groups) {n : Nat} :
    n ∈ ns ↔ ∃ e ∈ entries, n ∈ numbers e.invocations := by
  rw [← h.numbers_eq, List.mem_flatMap]

theorem Covers.nil (groups : ι → List CfcGroup) : Covers [] [] groups :=
  ⟨rfl, by simp, by simp, by simp⟩

theorem Covers.singleton {s : Segment ι} (h : Ascending s.invocations) (hne : s.invocations ≠ []) :
    Covers [s] (numbers s.invocations) s.groups := by
  refine ⟨by simp, ?_, ?_, ?_⟩ <;> intro e he <;> rcases List.mem_singleton.1 he with rfl
  · rfl
  · exact h
  · exact hne

variable {first second joined : Segment ι} {stays remaining : List (Segment ι)} {ns ms : List Nat}
  {m : Nat} {left : ι → List CfcGroup}

/-- The invocations in front of the cut one keep their groups, the cut one has the merged ones, and
those behind it have what is left: that is right unless something is missing there. -/
theorem merged_iff (h : first.Proper) (h' : second.Proper)
    (hlast : numbers first.invocations = ns ++ [m])
    (hfirst : numbers second.invocations = m :: ms)
    (hmerged : ∀ i, MergedGroups (first.groups i) (second.groups i) (joined.groups i))
    (hleft : ∀ i, LeftGroups (first.groups i) (second.groups i) (left i))
    (hstays : Covers stays ns first.groups) (hjoined : joined.invocations = [(m, m)])
    (hremaining : Covers remaining ms left) :
    Merged first second (stays ++ joined :: remaining) ↔
      ms = [] ∨ ∀ i, ¬ SharesCut (first.groups i) (second.groups i) := by
  have hsorted := h.ascending.pairwise_numbers
  rw [hlast, List.pairwise_append] at hsorted
  have hsorted' := h'.ascending.pairwise_numbers
  rw [hfirst, List.pairwise_cons] at hsorted'
  have hns : ∀ n ∈ ns, n < m := fun n hn => hsorted.2.2 n hn m (by simp)
  have hms : ∀ n ∈ ms, m < n := hsorted'.1
  have hjnum : numbers joined.invocations = [m] := by
    simp [hjoined, rangeNumbers_singleton]
  -- an invocation behind the cut one is not in the first segment
  have hsecond : ∀ n ∈ ms, ∀ i k, Option.merge (· ++ ·) (first.flow n i k) (second.flow n i k)
      = flowOf (second.groups i) k := by
    intro n hn i k
    have hnot : n ∉ numbers first.invocations := by
      rw [hlast, List.mem_append, List.mem_singleton]
      have := hms n hn
      rintro (hmem | rfl)
      · have := hns n hmem
        omega
      · omega
    rw [flow_of_notMem hnot, Option.merge_none_left,
      flow_of_mem (by rw [hfirst]; exact List.mem_cons_of_mem _ hn)]
  constructor
  · intro hall
    by_contra hcon
    rw [not_or, not_forall] at hcon
    rcases hcon with ⟨hne, i, hshares⟩
    rcases List.exists_mem_of_ne_nil _ hne with ⟨n, hn⟩
    rcases hremaining.mem.1 hn with ⟨e, he, hne⟩
    rcases (hleft i).lost (not_not.1 hshares) with ⟨k, cf, hcf, hnone⟩
    have hflow := hall.flow e (by simp [he]) n hne i k
    rw [flow_of_mem hne, hremaining.groups_eq e he, hnone, hsecond n hn, hcf] at hflow
    cases hflow
  · intro hkeeps
    refine ⟨?_, ?_, ?_, ?_⟩
    · rw [List.flatMap_append, List.flatMap_cons, hstays.numbers_eq, hremaining.numbers_eq, hjnum,
        List.nodup_append]
      refine ⟨hsorted.1.imp fun hab => Nat.ne_of_lt hab, ?_, ?_⟩
      · exact List.nodup_cons.2 ⟨fun hmem => Nat.lt_irrefl _ (hms m hmem),
          hsorted'.2.imp fun hab => Nat.ne_of_lt hab⟩
      · rintro n hn n' hn' rfl
        have := hns n hn
        rcases List.mem_cons.1 hn' with rfl | hn'
        · omega
        · have := hms n hn'
          omega
    · intro n
      rw [hlast, hfirst]
      simp only [List.mem_append, List.mem_cons, or_and_right, exists_or, exists_eq_left, hjnum,
        List.not_mem_nil, or_false, ← hstays.mem, ← hremaining.mem]
      tauto
    · intro e he
      rcases List.mem_append.1 he with he | he
      · exact ⟨hstays.ascending e he, hstays.nonempty e he,
          fun i => hstays.groups_eq e he ▸ h.separate i⟩
      · rcases List.mem_cons.1 he with rfl | he
        · exact ⟨hjoined ▸ ⟨Nat.le_refl _, by simp, trivial⟩, by simp [hjoined],
            fun i => (hmerged i).separate⟩
        · refine ⟨hremaining.ascending e he, hremaining.nonempty e he, fun i => ?_⟩
          rcases hkeeps with rfl | hkeeps
          · rcases List.exists_mem_of_ne_nil _ (hremaining.nonempty e he) with ⟨r, hr⟩
            have hmem := mem_numbers.2
              ⟨r, hr, Nat.le_refl _, (hremaining.ascending e he).le hr⟩
            exact absurd (hremaining.mem.2 ⟨e, he, hmem⟩) (by simp)
          · rw [hremaining.groups_eq e he, (hleft i).kept (hkeeps i)]
            exact h'.separate i
    · intro e he n hn i k
      rw [flow_of_mem hn]
      rcases List.mem_append.1 he with he | he
      · have hmem : n ∈ ns := hstays.mem.2 ⟨e, he, hn⟩
        have hnot : n ∉ numbers second.invocations := by
          rw [hfirst, List.mem_cons]
          have := hns n hmem
          rintro (rfl | hmem')
          · omega
          · have := hms n hmem'
            omega
        rw [flow_of_notMem hnot, Option.merge_none_right,
          flow_of_mem (by rw [hlast]; exact List.mem_append_left _ hmem), hstays.groups_eq e he]
      · rcases List.mem_cons.1 he with rfl | he
        · rw [hjnum, List.mem_singleton] at hn
          subst hn
          rw [flow_of_mem (by simp [hlast]), flow_of_mem (by simp [hfirst]), (hmerged i).flow]
        · have hmem : n ∈ ms := hremaining.mem.2 ⟨e, he, hn⟩
          rcases hkeeps with rfl | hkeeps
          · simp at hmem
          · rw [hsecond n hmem, hremaining.groups_eq e he, (hleft i).kept (hkeeps i)]

end Segment

/-! ## The first and the last invocation -/

theorem RepetitionPattern.exists_last {p : RepetitionPattern} (h : Ascending p) (hne : p ≠ []) :
    ∃ ns m, numbers p = ns ++ [m] ∧ p.getLastInstance = .ok m := by
  rcases List.eq_nil_or_concat' p with rfl | ⟨rs, r, rfl⟩
  · exact absurd rfl hne
  · have hmem : numbers (rs ++ [r]) ≠ [] := by
      have hr := h.le (r := r) (by simp)
      exact List.ne_nil_of_mem (mem_numbers.2 ⟨r, by simp, Nat.le_refl _, hr⟩)
    have hsplit := (List.dropLast_append_getLast hmem).symm
    exact ⟨_, _, hsplit, RepetitionPattern.getLastInstance_eq h hsplit⟩

theorem RepetitionPattern.exists_first {p : RepetitionPattern} (h : Ascending p) (hne : p ≠ []) :
    ∃ m ms, numbers p = m :: ms ∧ p.getFirstInstance = .ok m := by
  cases p with
  | nil => exact absurd rfl hne
  | cons r rs =>
      have hmem : numbers (r :: rs) ≠ [] :=
        List.ne_nil_of_mem (mem_numbers.2 ⟨r, by simp, Nat.le_refl _, h.1⟩)
      have hsplit := (List.cons_head_tail hmem).symm
      exact ⟨_, _, hsplit, RepetitionPattern.getFirstInstance_eq h hsplit⟩

/-- The invocation of both segments stands at the end of the first and the start of the second. -/
theorem Segment.Cut.exists_numbers {ι : Type} {first second : Segment ι} (h : first.Cut second) :
    ∃ ns m ms, numbers first.invocations = ns ++ [m] ∧ numbers second.invocations = m :: ms := by
  rcases h.overlap with ⟨n, hlast, hfirst⟩
  rcases RepetitionPattern.exists_last h.proper.ascending h.proper.nonempty with
    ⟨ns, m, hns, hgetl⟩
  rcases RepetitionPattern.exists_first h.proper'.ascending h.proper'.nonempty with
    ⟨m', ms, hms, hgetf⟩
  obtain rfl : n = m := Except.ok.inj (hlast.symm.trans hgetl)
  obtain rfl : n = m' := Except.ok.inj (hfirst.symm.trans hgetf)
  exact ⟨ns, n, ms, hns, hms⟩

theorem RepetitionPattern.isSingleton_iff_last {p : RepetitionPattern} {ns : List Nat} {m : Nat}
    (h : Ascending p) (hlast : numbers p = ns ++ [m]) : p.isSingleton = true ↔ ns = [] := by
  rw [isSingleton_iff h, hlast]
  constructor
  · rintro ⟨n, hn⟩
    exact (List.append_inj' (hn.trans (List.nil_append [n]).symm) rfl).1
  · rintro rfl
    exact ⟨m, rfl⟩

theorem RepetitionPattern.isSingleton_iff_first {p : RepetitionPattern} {ms : List Nat} {m : Nat}
    (h : Ascending p) (hfirst : numbers p = m :: ms) : p.isSingleton = true ↔ ms = [] := by
  rw [isSingleton_iff h, hfirst]
  constructor
  · rintro ⟨n, hn⟩
    exact (List.cons.inj hn).2
  · rintro rfl
    exact ⟨m, rfl⟩

theorem RepetitionPattern.ne_nil_of_numbers {p : RepetitionPattern} {ns : List Nat}
    (h : numbers p = ns) (hne : ns ≠ []) : p ≠ [] := by
  rintro rfl
  exact hne (h.symm.trans numbers_nil)

/-! ## Entries of the loop trace -/

namespace LoopTraceEntry

/-- The invocations of the entry and their iteration groups. -/
def segment (lte : LoopTraceEntry) : Segment Unit where
  invocations := lte.invocationRepetitionPattern
  groups := fun _ => lte.invocation.iterations

variable {lte first second : LoopTraceEntry} {ns ms : List Nat} {m : Nat}

/-- The first and the last invocation are the same only in a pattern of one number. -/
theorem isASingleInvocation_eq (h : Ascending lte.invocationRepetitionPattern)
    (hne : lte.invocationRepetitionPattern ≠ []) :
    lte.isASingleInvocation = .ok lte.invocationRepetitionPattern.isSingleton := by
  rcases RepetitionPattern.exists_last h hne with ⟨ns, m, hlast, hgetl⟩
  rcases RepetitionPattern.exists_first h hne with ⟨n, ms, hfirst, hgetf⟩
  have hsame : (m == n) = lte.invocationRepetitionPattern.isSingleton := by
    rw [Bool.eq_iff_iff, beq_iff_eq, RepetitionPattern.isSingleton_iff_last h hlast]
    have hsorted := h.pairwise_numbers
    rw [hlast, List.pairwise_append] at hsorted
    rw [hlast] at hfirst
    constructor
    · rintro rfl
      cases ns with
      | nil => rfl
      | cons k ns =>
          obtain rfl : k = m := (List.cons.inj hfirst).1
          exact absurd (hsorted.2.2 k (by simp) k (by simp)) (Nat.lt_irrefl _)
    · rintro rfl
      exact (List.cons.inj hfirst).1
  simp only [isASingleInvocation, getLastInvocationNumber, getFirstInvocationNumber, hgetl, hgetf,
    sameNumber, hsame]

theorem remainingInvocations_eq (lte : LoopTraceEntry)
    (h : Ascending lte.invocationRepetitionPattern)
    (hfirst : numbers lte.invocationRepetitionPattern = m :: ms) :
    ∃ remaining, lte.remainingInvocations = .ok remaining ∧
      Segment.Covers (remaining.map segment) ms lte.segment.groups := by
  have hne := RepetitionPattern.ne_nil_of_numbers hfirst (by simp)
  rw [remainingInvocations, isASingleInvocation_eq h hne]
  cases hsingle : lte.invocationRepetitionPattern.isSingleton with
  | true =>
      rw [(RepetitionPattern.isSingleton_iff_first h hfirst).1 hsingle]
      exact ⟨[], rfl, Segment.Covers.nil _⟩
  | false =>
      have hms : ms ≠ [] := by
        rintro rfl
        simp [(RepetitionPattern.isSingleton_iff_first h hfirst).2 rfl] at hsingle
      rcases RepetitionPattern.removeFirstInstance_eq h hfirst with ⟨p', hp', hasc', rfl⟩
      have hne' := RepetitionPattern.ne_nil_of_numbers rfl hms
      refine ⟨[{ lte with invocationRepetitionPattern := p' }], by simp only [hp'], ?_⟩
      exact Segment.Covers.singleton (s := segment { lte with invocationRepetitionPattern := p' })
        hasc' hne'

/-- The entries after a merge, from what becomes of the iterations. -/
theorem mergeIntoAndReturnRemaining_eq (h : Ascending first.invocationRepetitionPattern)
    (h' : Ascending second.invocationRepetitionPattern)
    (hlast : numbers first.invocationRepetitionPattern = ns ++ [m])
    (hfirst : numbers second.invocationRepetitionPattern = m :: ms)
    {merged left : List IterationGroupCfc}
    (hmerge : mergeGroups first.invocation.iterations second.invocation.iterations
      = .ok (merged, left)) :
    ∃ lte rest stays joined remaining,
      first.mergeIntoAndReturnRemaining second = .ok (lte, rest) ∧
      (lte :: rest).map segment = stays ++ joined :: remaining ∧
      Segment.Covers stays ns first.segment.groups ∧ joined.invocations = [(m, m)] ∧
      (joined.groups = fun _ => merged) ∧ Segment.Covers remaining ms fun _ => left := by
  have hne := RepetitionPattern.ne_nil_of_numbers hlast (by simp)
  have hne' := RepetitionPattern.ne_nil_of_numbers hfirst (by simp)
  have hempty : second.isEmpty = false := by simpa [isEmpty] using hne'
  have hoverlap : first.lastAndFirstInvocationOverlap second = .ok true := by
    simp [lastAndFirstInvocationOverlap, getLastInvocationNumber, getFirstInvocationNumber,
      RepetitionPattern.getLastInstance_eq h hlast,
      RepetitionPattern.getFirstInstance_eq h' hfirst, sameNumber]
  let leaves : LoopTraceEntry :=
    { second with invocation := { second.invocation with iterations := left } }
  rcases leaves.remainingInvocations_eq h' hfirst with ⟨rest, hrest, hcovers⟩
  -- the invocation of both is taken out of the first entry, unless it is the only one there
  cases hsingle : first.invocationRepetitionPattern.isSingleton with
  | true =>
      obtain rfl := (RepetitionPattern.isSingleton_iff_last h hlast).1 hsingle
      have hpattern : first.invocationRepetitionPattern = [(m, m)] :=
        h.eq_singleton (by simpa using hlast)
      let merges : LoopTraceEntry :=
        { first with invocation := { first.invocation with iterations := merged } }
      refine ⟨merges, rest, [], merges.segment, rest.map segment, ?_, rfl, Segment.Covers.nil _,
        hpattern, rfl, hcovers⟩
      simp [mergeIntoAndReturnRemaining, hempty, hoverlap, isASingleInvocation_eq h hne, hsingle,
        InvocationGroupCfc.mergeIterationInfo, hmerge, hrest, leaves, Except.map, merges]
  | false =>
      have hns : ns ≠ [] := by
        rintro rfl
        simp [(RepetitionPattern.isSingleton_iff_last h hlast).2 rfl] at hsingle
      rcases RepetitionPattern.removeLastInstance_eq h hlast with ⟨p', hp', hasc', rfl⟩
      let stays : LoopTraceEntry := { first with invocationRepetitionPattern := p' }
      let merges : LoopTraceEntry :=
        { invocationRepetitionPattern := [(m, m)]
          invocation := { first.invocation with iterations := merged } }
      refine ⟨stays, merges :: rest, [stays.segment], merges.segment, rest.map segment, ?_, rfl, ?_,
        rfl, rfl, hcovers⟩
      · simp [mergeIntoAndReturnRemaining, hempty, hoverlap, isASingleInvocation_eq h hne, hsingle,
          extractLastInvocationIntoNewGroup, getLastInvocationNumber,
          RepetitionPattern.getLastInstance_eq h hlast, hp', InvocationGroupCfc.mergeIterationInfo,
          hmerge, hrest, leaves, Except.map, merges, stays]
      · exact Segment.Covers.singleton (s := stays.segment) hasc'
          (RepetitionPattern.ne_nil_of_numbers rfl hns)

/-- A failed merge of the iterations. -/
theorem mergeIntoAndReturnRemaining_error (h : Ascending first.invocationRepetitionPattern)
    (h' : Ascending second.invocationRepetitionPattern)
    (hlast : numbers first.invocationRepetitionPattern = ns ++ [m])
    (hfirst : numbers second.invocationRepetitionPattern = m :: ms) {e : Fault}
    (hmerge : mergeGroups first.invocation.iterations second.invocation.iterations = .error e) :
    first.mergeIntoAndReturnRemaining second = .error e := by
  have hne := RepetitionPattern.ne_nil_of_numbers hlast (by simp)
  have hne' := RepetitionPattern.ne_nil_of_numbers hfirst (by simp)
  have hempty : second.isEmpty = false := by simpa [isEmpty] using hne'
  have hoverlap : first.lastAndFirstInvocationOverlap second = .ok true := by
    simp [lastAndFirstInvocationOverlap, getLastInvocationNumber, getFirstInvocationNumber,
      RepetitionPattern.getLastInstance_eq h hlast,
      RepetitionPattern.getFirstInstance_eq h' hfirst, sameNumber]
  rcases RepetitionPattern.removeLastInstance_eq h hlast with ⟨p', hp', -, -⟩
  cases hsingle : first.invocationRepetitionPattern.isSingleton with
  | true =>
      simp [mergeIntoAndReturnRemaining, hempty, hoverlap, isASingleInvocation_eq h hne, hsingle,
        InvocationGroupCfc.mergeIterationInfo, hmerge]
  | false =>
      simp [mergeIntoAndReturnRemaining, hempty, hoverlap, isASingleInvocation_eq h hne, hsingle,
        extractLastInvocationIntoNewGroup, getLastInvocationNumber,
        RepetitionPattern.getLastInstance_eq h hlast, hp', InvocationGroupCfc.mergeIterationInfo,
        hmerge]

/-- After the merge the entries hold what the two held. -/
def MergesInto (first second : LoopTraceEntry) : Prop :=
  ∃ lte rest, first.mergeIntoAndReturnRemaining second = .ok (lte, rest) ∧
    Segment.Merged first.segment second.segment ((lte :: rest).map segment)

theorem mergesInto_iff (h : first.segment.Cut second.segment) :
    first.MergesInto second ↔
      (first.invocation.iterations ≠ [] → second.invocation.iterations ≠ []) ∧
      (second.isASingleInvocation = .ok true ∨
        ¬ SharesCut first.invocation.iterations second.invocation.iterations) := by
  rcases h.exists_numbers with ⟨ns, m, ms, hlast, hfirst⟩
  have hsingle : second.isASingleInvocation = .ok true ↔ ms = [] := by
    rw [isASingleInvocation_eq h.proper'.ascending h.proper'.nonempty, Except.ok.injEq]
    exact RepetitionPattern.isSingleton_iff_first h.proper'.ascending hfirst
  by_cases hne : first.invocation.iterations ≠ [] → second.invocation.iterations ≠ []
  · rcases mergeGroups_eq (h.proper.separate ()) (h.proper'.separate ()) (h.adjoins ()) hne with
      ⟨merged, left, hmerge, hmerged, hleft⟩
    rcases mergeIntoAndReturnRemaining_eq h.proper.ascending h.proper'.ascending hlast hfirst
      hmerge with ⟨lte, rest, stays, joined, remaining, hok, hentries, hstays, hpattern, hgroups,
        hremaining⟩
    have hiff := Segment.merged_iff h.proper h.proper' hlast hfirst
      (fun i => by rw [hgroups]; exact hmerged) (fun _ => hleft) hstays hpattern hremaining
    rw [← hentries] at hiff
    constructor
    · rintro ⟨lte', rest', hok', hall⟩
      obtain ⟨rfl, rfl⟩ := Prod.mk.inj (Except.ok.inj (hok.symm.trans hok'))
      refine ⟨hne, ?_⟩
      rcases hiff.1 hall with hms | hshares
      · exact Or.inl (hsingle.2 hms)
      · exact Or.inr (hshares ())
    · rintro ⟨-, hcond⟩
      refine ⟨lte, rest, hok, hiff.2 ?_⟩
      rcases hcond with hms | hshares
      · exact Or.inl (hsingle.1 hms)
      · exact Or.inr fun _ => hshares
  · -- the code compares with an iteration group that is not there
    rcases not_forall.1 hne with ⟨hex, hnil⟩
    have hmerge : mergeGroups first.invocation.iterations second.invocation.iterations
        = .error .outOfRange := by
      rw [not_not.1 hnil]
      exact mergeGroups_nil (h.proper.separate ()) hex
    have herror := mergeIntoAndReturnRemaining_error h.proper.ascending h.proper'.ascending hlast
      hfirst hmerge
    constructor
    · rintro ⟨lte, rest, hok, -⟩
      rw [herror] at hok
      cases hok
    · rintro ⟨hcond, -⟩
      exact absurd hcond hne

end LoopTraceEntry

/-! ## Entries of the call trace -/

namespace CallTraceLoopInvocationGroup

/-- The loop invocations of the entry and the instance groups of each call. -/
def segment (clig : CallTraceLoopInvocationGroup) : Segment UInt64 where
  invocations := clig.repetitions
  groups := instancesOf clig.calls

variable {clig first second : CallTraceLoopInvocationGroup} {ns ms : List Nat} {m : Nat}

theorem remainingInvocations_eq (clig : CallTraceLoopInvocationGroup)
    (h : Ascending clig.repetitions)
    (hfirst : numbers clig.repetitions = m :: ms) :
    ∃ remaining, clig.remainingInvocations = .ok remaining ∧
      Segment.Covers (remaining.map segment) ms clig.segment.groups := by
  rw [remainingInvocations, isASingleInvocation]
  cases hsingle : clig.repetitions.isSingleton with
  | true =>
      rw [(RepetitionPattern.isSingleton_iff_first h hfirst).1 hsingle]
      exact ⟨[], rfl, Segment.Covers.nil _⟩
  | false =>
      have hms : ms ≠ [] := by
        rintro rfl
        simp [(RepetitionPattern.isSingleton_iff_first h hfirst).2 rfl] at hsingle
      rcases RepetitionPattern.removeFirstInstance_eq h hfirst with ⟨p', hp', hasc', rfl⟩
      refine ⟨[{ clig with repetitions := p' }], by simp [hp'], ?_⟩
      exact Segment.Covers.singleton (s := segment { clig with repetitions := p' }) hasc'
        (RepetitionPattern.ne_nil_of_numbers rfl hms)

/-- The entries after a merge. -/
theorem mergeIntoAndReturnRemaining_eq (h : first.segment.Cut second.segment)
    (hlast : numbers first.repetitions = ns ++ [m])
    (hfirst : numbers second.repetitions = m :: ms) :
    ∃ merged rest stays joined remaining left,
      first.mergeIntoAndReturnRemaining second = .ok (merged, rest) ∧
      (merged :: rest).map segment = stays ++ joined :: remaining ∧
      Segment.Covers stays ns first.segment.groups ∧ joined.invocations = [(m, m)] ∧
      (∀ id, MergedGroups (first.segment.groups id) (second.segment.groups id)
        (joined.groups id)) ∧
      (∀ id, LeftGroups (first.segment.groups id) (second.segment.groups id) (left id)) ∧
      Segment.Covers remaining ms left := by
  have hasc : Ascending first.repetitions := h.proper.ascending
  have hasc' : Ascending second.repetitions := h.proper'.ascending
  have hne' := RepetitionPattern.ne_nil_of_numbers hfirst (by simp)
  have hempty : second.isEmpty = false := by simp [isEmpty, hne']
  have hoverlap : first.lastAndFirstInvocationOverlap second = .ok true := by
    simp [lastAndFirstInvocationOverlap, getLastInvocationNumber, getFirstInvocationNumber,
      RepetitionPattern.getLastInstance_eq hasc hlast,
      RepetitionPattern.getFirstInstance_eq hasc' hfirst, sameNumber]
  -- the invocation of both is taken out of the first entry, unless it is the only one there
  cases hsingle : first.repetitions.isSingleton with
  | true =>
      obtain rfl := (RepetitionPattern.isSingleton_iff_last hasc hlast).1 hsingle
      have hpattern : first.repetitions = [(m, m)] := hasc.eq_singleton (by simpa using hlast)
      rcases mergeCallInfo_eq first h.proper.separate h.proper'.separate h.adjoins with
        ⟨calls, left, hmerge, hgroups⟩
      rcases remainingInvocations_eq { second with calls := left } hasc' hfirst with
        ⟨rest, hrest, hcovers⟩
      refine ⟨{ first with calls }, rest, [], segment { first with calls }, rest.map segment,
        instancesOf left, ?_, rfl, Segment.Covers.nil _, hpattern, fun id => (hgroups id).1,
        fun id => (hgroups id).2, hcovers⟩
      simp [mergeIntoAndReturnRemaining, hempty, hoverlap, isASingleInvocation, hsingle, hmerge,
        hrest, Except.map]
  | false =>
      have hns : ns ≠ [] := by
        rintro rfl
        simp [(RepetitionPattern.isSingleton_iff_last hasc hlast).2 rfl] at hsingle
      rcases RepetitionPattern.removeLastInstance_eq hasc hlast with ⟨p', hp', hascp, rfl⟩
      let workingOn : CallTraceLoopInvocationGroup :=
        { new with repetitions := [(m, m)], calls := first.calls }
      rcases mergeCallInfo_eq workingOn h.proper.separate h.proper'.separate
        h.adjoins with ⟨calls, left, hmerge, hgroups⟩
      rcases remainingInvocations_eq { second with calls := left } hasc' hfirst with
        ⟨rest, hrest, hcovers⟩
      let stays : CallTraceLoopInvocationGroup := { first with repetitions := p' }
      let merges : CallTraceLoopInvocationGroup := { workingOn with calls }
      refine ⟨stays, merges :: rest, [stays.segment], merges.segment, rest.map segment,
        instancesOf left, ?_, rfl, ?_, rfl, fun id => (hgroups id).1, fun id => (hgroups id).2,
        hcovers⟩
      · simp [mergeIntoAndReturnRemaining, hempty, hoverlap, isASingleInvocation, hsingle,
          extractLastInvocationIntoNewGroup, getLastInvocationNumber,
          RepetitionPattern.getLastInstance_eq hasc hlast, hp', hmerge, hrest, Except.map, stays,
          merges, workingOn]
      · exact Segment.Covers.singleton (s := stays.segment) hascp
          (RepetitionPattern.ne_nil_of_numbers rfl hns)

/-- After the merge the entries hold what the two held. -/
def MergesInto (first second : CallTraceLoopInvocationGroup) : Prop :=
  ∃ merged rest, first.mergeIntoAndReturnRemaining second = .ok (merged, rest) ∧
    Segment.Merged first.segment second.segment ((merged :: rest).map segment)

theorem mergesInto_iff (h : first.segment.Cut second.segment) :
    first.MergesInto second ↔
      second.isASingleInvocation = true ∨
        ∀ id, ¬ SharesCut (instancesOf first.calls id) (instancesOf second.calls id) := by
  rcases h.exists_numbers with ⟨ns, m, ms, hlast, hfirst⟩
  have hsingle : second.isASingleInvocation = true ↔ ms = [] :=
    RepetitionPattern.isSingleton_iff_first h.proper'.ascending hfirst
  rcases mergeIntoAndReturnRemaining_eq h hlast hfirst with
    ⟨merged, rest, stays, joined, remaining, left, hok, hentries, hstays, hpattern, hmerged, hleft,
      hremaining⟩
  have hiff := Segment.merged_iff h.proper h.proper' hlast hfirst hmerged hleft hstays hpattern
    hremaining
  rw [← hentries, ← hsingle] at hiff
  refine Iff.trans ?_ hiff
  constructor
  · rintro ⟨merged', rest', hok', hall⟩
    obtain ⟨rfl, rfl⟩ := Prod.mk.inj (Except.ok.inj (hok.symm.trans hok'))
    exact hall
  · intro hall
    exact ⟨merged, rest, hok, hall⟩

end CallTraceLoopInvocationGroup

/-- Two segments merge without loss unless the cut number shares its group in the second segment
and other invocations share that group; for a loop, the second segment needs iterations if the
first has any. -/
theorem mergeIntoAndReturnRemaining_iff (first second : LoopTraceEntry)
    (firstCalls secondCalls : CallTraceLoopInvocationGroup) :
    (first.segment.Cut second.segment →
      (first.MergesInto second ↔
        (first.invocation.iterations ≠ [] → second.invocation.iterations ≠ []) ∧
        (second.isASingleInvocation = .ok true ∨
          ¬ SharesCut first.invocation.iterations second.invocation.iterations))) ∧
    (firstCalls.segment.Cut secondCalls.segment →
      (firstCalls.MergesInto secondCalls ↔
        secondCalls.isASingleInvocation = true ∨
          ∀ id, ¬ SharesCut (firstCalls.segment.groups id) (secondCalls.segment.groups id))) :=
  ⟨LoopTraceEntry.mergesInto_iff, CallTraceLoopInvocationGroup.mergesInto_iff⟩

/-! ## Entries of one range -/

/-- A group of one range. -/
def CfcGroup.ofRange (first last : Nat) (symbols : List CSymbol) : CfcGroup where
  repetitions := [(first, last)]
  controlFlow := symbols.map CompressionPattern.leaf
  numInstancesLut := ∅

/-- An entry of one range of invocations. -/
def LoopTraceEntry.ofRange (first last : Nat) (iterations : List IterationGroupCfc) :
    LoopTraceEntry where
  invocationRepetitionPattern := [(first, last)]
  invocation := { InvocationGroupCfc.new with iterations }

theorem ascending_range {a b : Nat} (h : a ≤ b) : Ascending [(a, b)] :=
  ⟨h, by simp, trivial⟩

theorem groupNumbers_ofRange (a b : Nat) (symbols : List CSymbol) :
    groupNumbers [CfcGroup.ofRange a b symbols] = rangeNumbers (a, b) := by
  simp [CfcGroup.ofRange, groupNumbers]

theorem separate_ofRange {a b : Nat} (h : a ≤ b) (symbols : List CSymbol) :
    Separate [CfcGroup.ofRange a b symbols] where
  ascending := List.forall_mem_singleton.2 (ascending_range h)
  nonempty := List.forall_mem_singleton.2 (by simp [CfcGroup.ofRange])
  nodup := by
    rw [groupNumbers_ofRange]
    exact List.nodup_range'

theorem lastNumber_ofRange {a b : Nat} (h : a ≤ b) (symbols : List CSymbol) :
    lastNumber [CfcGroup.ofRange a b symbols] = some b := by
  rw [lastNumber, groupNumbers_ofRange, List.max?_eq_some_iff]
  exact ⟨mem_rangeNumbers.2 ⟨h, Nat.le_refl b⟩, fun k hk => (mem_rangeNumbers.1 hk).2⟩

theorem firstNumber_ofRange {a b : Nat} (h : a ≤ b) (symbols : List CSymbol) :
    firstNumber [CfcGroup.ofRange a b symbols] = some a := by
  rw [firstNumber, groupNumbers_ofRange, List.min?_eq_some_iff]
  exact ⟨mem_rangeNumbers.2 ⟨Nat.le_refl a, h⟩, fun k hk => (mem_rangeNumbers.1 hk).1⟩

theorem LoopTraceEntry.cut_ofRange {a b c x y z w : Nat} (hab : a ≤ b) (hbc : b ≤ c)
    (hxy : x ≤ y) (hzw : z ≤ w) (hz : z = y ∨ z = y + 1) (symbols symbols' : List CSymbol) :
    (ofRange a b [CfcGroup.ofRange x y symbols]).segment.Cut
      (ofRange b c [CfcGroup.ofRange z w symbols']).segment where
  proper := ⟨ascending_range hab, by simp [segment, ofRange], fun _ => separate_ofRange hxy symbols⟩
  proper' :=
    ⟨ascending_range hbc, by simp [segment, ofRange], fun _ => separate_ofRange hzw symbols'⟩
  overlap := ⟨b, rfl, rfl⟩
  adjoins := by
    intro _ m n hm hn
    obtain rfl : y = m := Option.some.inj ((lastNumber_ofRange hxy symbols).symm.trans hm)
    obtain rfl : z = n := Option.some.inj ((firstNumber_ofRange hzw symbols').symm.trans hn)
    exact hz

namespace CallTraceLoopInvocationGroup

/-- A group of one range of invocations, with the instances of one call. -/
def ofRange (first last : Nat) (callID : UInt64) (callInstances : List CallTraceInstanceGroup) :
    CallTraceLoopInvocationGroup :=
  { new with
    repetitions := [(first, last)]
    calls := (∅ : CallMap).insert callID { CallTraceCall.new with callInstances } }

theorem instancesOf_ofRange (first last : Nat) (callID id : UInt64)
    (callInstances : List CallTraceInstanceGroup) :
    instancesOf (ofRange first last callID callInstances).calls id
      = if id = callID then callInstances else [] := by
  by_cases hid : id = callID
  · rw [if_pos hid, hid]
    exact instancesOf_insert_self _ _ _
  · rw [if_neg hid]
    exact (instancesOf_insert_of_ne _ (Ne.symm hid) _).trans rfl

theorem cut_ofRange {a b c x y z w : Nat} (hab : a ≤ b) (hbc : b ≤ c) (hxy : x ≤ y) (hzw : z ≤ w)
    (hz : z = y ∨ z = y + 1) (callID : UInt64) (symbols symbols' : List CSymbol) :
    (ofRange a b callID [CfcGroup.ofRange x y symbols]).segment.Cut
      (ofRange b c callID [CfcGroup.ofRange z w symbols']).segment where
  proper := by
    refine ⟨ascending_range hab, by simp [segment, ofRange], fun id => ?_⟩
    simp only [segment, instancesOf_ofRange]
    split
    · exact separate_ofRange hxy symbols
    · exact Separate.nil
  proper' := by
    refine ⟨ascending_range hbc, by simp [segment, ofRange], fun id => ?_⟩
    simp only [segment, instancesOf_ofRange]
    split
    · exact separate_ofRange hzw symbols'
    · exact Separate.nil
  overlap := ⟨b, rfl, rfl⟩
  adjoins := by
    intro id m n hm hn
    simp only [segment, instancesOf_ofRange] at hm hn
    by_cases hid : id = callID
    · rw [if_pos hid] at hm hn
      obtain rfl : y = m := Option.some.inj ((lastNumber_ofRange hxy symbols).symm.trans hm)
      obtain rfl : z = n := Option.some.inj ((firstNumber_ofRange hzw symbols').symm.trans hn)
      exact hz
    · rw [if_neg hid] at hm
      have hnone : lastNumber ([] : List CfcGroup) = none := rfl
      exact absurd (hnone.symm.trans hm) (by simp)

end CallTraceLoopInvocationGroup

/-- Invocations 4 and 5 with iterations 0 to 2, the rest of invocation 5 from iteration 2 on; and the
same with instances of call 9. -/
theorem mergeIntoAndReturnRemaining_iff_split :
    (LoopTraceEntry.ofRange 4 5 [.ofRange 0 2 [1]]).MergesInto
        (.ofRange 5 5 [.ofRange 2 3 [2]]) ∧
      (CallTraceLoopInvocationGroup.ofRange 4 5 9 [.ofRange 0 2 [1]]).MergesInto
        (.ofRange 5 5 9 [.ofRange 2 3 [2]]) := by
  have hiff := mergeIntoAndReturnRemaining_iff (.ofRange 4 5 [.ofRange 0 2 [1]])
    (.ofRange 5 5 [.ofRange 2 3 [2]]) (.ofRange 4 5 9 [.ofRange 0 2 [1]])
    (.ofRange 5 5 9 [.ofRange 2 3 [2]])
  constructor
  · refine (hiff.1 ?_).2 ⟨fun _ => by simp [LoopTraceEntry.ofRange], Or.inl rfl⟩
    exact LoopTraceEntry.cut_ofRange (by decide) (by decide) (by decide) (by decide) (Or.inl rfl)
      _ _
  · refine (hiff.2 ?_).2 (Or.inl rfl)
    exact CallTraceLoopInvocationGroup.cut_ofRange (by decide) (by decide) (by decide) (by decide)
      (Or.inl rfl) 9 _ _

/-- Iteration 0 of invocation 5 is cut.  Invocation 6 has the iterations of the second segment as
well, and iteration 0 is missing there afterwards. -/
theorem mergeIntoAndReturnRemaining_loses_iteration :
    let first := LoopTraceEntry.ofRange 5 5 [.ofRange 0 0 [1]]
    let second := LoopTraceEntry.ofRange 5 6 [.ofRange 0 1 [2]]
    first.segment.Cut second.segment ∧ ¬ first.MergesInto second ∧
      second.segment.flow 6 () 0 = some [.leaf 2] ∧
      (first.mergeIntoAndReturnRemaining second).map
          (fun r => r.2.map fun e => (e.invocationRepetitionPattern, e.segment.flow 6 () 0))
        = .ok [([(6, 6)], none)] := by
  intro first second
  have hcut : first.segment.Cut second.segment :=
    LoopTraceEntry.cut_ofRange (by decide) (by decide) (by decide) (by decide) (Or.inl rfl) _ _
  refine ⟨hcut, ?_, rfl, rfl⟩
  rw [LoopTraceEntry.mergesInto_iff hcut]
  rintro ⟨-, hsingle | hshares⟩
  · have hseveral : second.isASingleInvocation = .ok false := rfl
    rw [hseveral] at hsingle
    cases hsingle
  · exact hshares ⟨0, rfl, rfl, .ofRange 0 1 [2], List.mem_singleton.2 rfl, by decide, by decide⟩

end CamAlias
