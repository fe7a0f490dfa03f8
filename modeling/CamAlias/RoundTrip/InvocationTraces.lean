import CamAlias.Analyser.ConstantCallID
import CamAlias.Dependence.LoopAnalysis
import CamAlias.RoundTrip.CallAnalysis

/-!
# InvocationTraces — the loop over the invocations, whatever is done with their traces

The traces that the loop hands to the analysis of an invocation do not depend on what the analysis
does, so the loop is the analysis of one invocation after the other (`analyseAll`).

* `Visited.visitTraces`: one round;
* `visitTraces_cases`: the whole loop over the files of a trace.
-/

namespace CamAlias

open Lib

/-! ## The traces of an invocation -/

/-- What the loop has of the invocation `n`, with the calls in the order of the cache. -/
structure Traced (invs : List Invocation) (groupOf : Nat → InvocationGroupCfc)
    (es : List CallTraceLoopInvocationGroup) (n : Nat) (inv : Invocation)
    (order : List (UInt64 × Nat)) (t : InvocationTraces) : Prop where
  invocGroup : t.invocGroup = groupOf n
  groupOrder : GroupOrder invs es n inv order
  found : CallOrder.Found inv.calls order
  callInstances : ∀ s, t.invocCallTrace.callInstances s
    = cacheEntries (CallTraceLoopInvocationGroup.seenInCall inv.calls s) 0 order
  constantCallIDs : t.invocCallTrace.ConstantCallIDs

/-- Nothing is analysed of an invocation in which nothing is seen. -/
inductive TracedIf (invs : List Invocation) (groupOf : Nat → InvocationGroupCfc)
    (es : List CallTraceLoopInvocationGroup) (n : Nat) (inv : Invocation) :
    Option InvocationTraces → Prop
  | empty (h : inv.iterations.flatten = []) : TracedIf invs groupOf es n inv none
  | seen {order : List (UInt64 × Nat)} {t : InvocationTraces} (h : inv.iterations.flatten ≠ [])
      (htraced : Traced invs groupOf es n inv order t) : TracedIf invs groupOf es n inv (some t)

/-- The analysis of one invocation. -/
def analyseOne {σ : Type} (analyse : σ → InvocationTraces → Except Fault σ) (s : σ) :
    Option InvocationTraces → Except Fault σ
  | none => .ok s
  | some t => analyse s t

/-- The analysis of one invocation after the other. -/
def analyseAll {σ : Type} (analyse : σ → InvocationTraces → Except Fault σ) :
    σ → List (Option InvocationTraces) → Except Fault σ
  | s, [] => .ok s
  | s, o :: ts =>
      match analyseOne analyse s o with
      | .error f => .error f
      | .ok s => analyseAll analyse s ts

section Loop

variable {invs : List Invocation} {groupOf : Nat → InvocationGroupCfc}
  {es : List CallTraceLoopInvocationGroup} {callList : List UInt64} {n : Nat} {st : CallAnalysis}
  {inv : Invocation}

/-- Behind an invocation in which something is seen the cache of its group is there. -/
theorem Visited.invocCallTrace_eq (htraces : TracesDescribe invs groupOf es callList)
    (h : Visited invs groupOf es (n + 1) st) (hget : invs[n]? = some inv)
    (hseen : inv.iterations.flatten ≠ []) :
    ∃ clig order, st.invocCallTrace n = .ok clig ∧ clig ∈ st.callTraces.invocations ∧
      GroupOrder invs es n inv order ∧ CallOrder.Found inv.calls order ∧
      clig.Cached inv.calls order := by
  rcases htraces.exists_lookup (List.getElem?_eq_some_iff.1 hget).1 with ⟨i, e, he, hn, hlookup⟩
  rcases h.group i e he with ⟨clig, hclig, hvisited⟩
  have heq : st.invocCallTrace n = .ok clig := by
    have hfound : st.callTraces.getInvocCallTraceFromInvocNumber n = .ok i := by
      rw [StreamParseCallTrace.getInvocCallTraceFromInvocNumber, h.lut, hlookup]
    rw [CallAnalysis.invocCallTrace, if_neg (by simp [h.not_empty he hn])]
    simp only [hfound, hclig]
  cases hvisited with
  | waiting hwaiting =>
      rcases exists_firstNonempty hn hget hseen with ⟨m, inv', hle, hm⟩
      exact absurd (hwaiting m inv' hm) (Nat.not_le.2 (Nat.lt_succ_of_le hle))
  | built hlt hfirst horder hfound hrepetitions hcached =>
      rename_i m inv' order
      have hmem := List.mem_of_getElem? he
      have hcalls := htraces.calls_eq hmem hn hget hfirst.mem hfirst.get
      refine ⟨clig, order, heq, List.mem_of_getElem? hclig, ⟨e, hmem, hn, _, _, hfirst, ?_⟩, ?_, ?_⟩
      · exact hcalls ▸ horder
      · exact hcalls ▸ hfound
      · exact hcalls ▸ hcached

/-- One round of the loop. -/
theorem Visited.visitTraces (htraces : TracesDescribe invs groupOf es callList)
    (h : Visited invs groupOf es n st) (hflags : st.FlagsRight) (hget : invs[n]? = some inv)
    {fuel : Nat} (hfuel : inv.iterations.flatten.length ≤ fuel) :
    (∃ st' o, Visited invs groupOf es (n + 1) st' ∧ st'.FlagsRight ∧
      TracedIf invs groupOf es n inv o ∧
      ∀ {σ : Type} (analyse : σ → InvocationTraces → Except Fault σ) (s : σ),
        CamAlias.visitTraces fuel callList analyse (st, s) n (groupOf n)
          = (analyseOne analyse s o).map fun s => (st', s)) ∨
    (NotFound invs es ∧
      ∀ {σ : Type} (analyse : σ → InvocationTraces → Except Fault σ) (s : σ),
        ∃ f, CamAlias.visitTraces fuel callList analyse (st, s) n (groupOf n) = .error f) := by
  rcases htraces.loop n inv hget with ⟨g, hg, hdescribes, -⟩
  have hempty := isEmpty_iff_of_describes hdescribes
  rw [← hg] at hempty
  rcases h.visitInvocation htraces hget hfuel with ⟨st', hvisit, hvisited⟩ | ⟨hnot, f, herror⟩
  · have hflags' := hflags.visitInvocation hvisit
    refine Or.inl ⟨st', ?_⟩
    by_cases hseen : inv.iterations.flatten = []
    · refine ⟨none, hvisited, hflags', TracedIf.empty hseen, fun analyse s => ?_⟩
      simp only [CamAlias.visitTraces, hvisit, hempty.2 hseen, if_true, analyseOne, Except.map]
    · rcases hvisited.invocCallTrace_eq htraces hget hseen with
        ⟨clig, order, hclig, hmem, horder, hfound, hcached⟩
      refine ⟨some ⟨groupOf n, clig⟩, hvisited, hflags', TracedIf.seen hseen
        ⟨rfl, horder, hfound, hcached.callInstances, (hflags'.groups clig hmem).2 hcached.built⟩,
        fun analyse s => ?_⟩
      have hnonempty : (groupOf n).isEmpty = false := by
        rw [← Bool.not_eq_true]
        exact fun hyes => hseen (hempty.1 hyes)
      simp only [CamAlias.visitTraces, hvisit, hnonempty, Bool.false_eq_true, if_false, hclig,
        analyseOne]
      cases analyse s ⟨groupOf n, clig⟩ <;> rfl
  · refine Or.inr ⟨hnot, fun analyse s => ⟨f, ?_⟩⟩
    simp only [CamAlias.visitTraces, herror]

/-- What the loop has of the invocations from `n` on. -/
structure TracedAll (invs : List Invocation) (groupOf : Nat → InvocationGroupCfc)
    (es : List CallTraceLoopInvocationGroup) (n : Nat) (ts : List (Option InvocationTraces)) :
    Prop where
  length : n + ts.length = invs.length
  traced : ∀ (k : Nat) (o : Option InvocationTraces), ts[k]? = some o →
    ∃ inv, invs[n + k]? = some inv ∧ TracedIf invs groupOf es (n + k) inv o

theorem TracedAll.cons {o : Option InvocationTraces} {ts : List (Option InvocationTraces)}
    (h : TracedAll invs groupOf es (n + 1) ts) (hget : invs[n]? = some inv)
    (ho : TracedIf invs groupOf es n inv o) : TracedAll invs groupOf es n (o :: ts) := by
  refine ⟨by rw [List.length_cons, ← h.length]; omega, fun k o' hk => ?_⟩
  cases k with
  | zero =>
      rcases Option.some.inj hk with rfl
      exact ⟨_, hget, ho⟩
  | succ k =>
      rw [Nat.add_succ, ← Nat.succ_add]
      exact h.traced k o' hk

/-- The loop from some invocation on. -/
theorem TracesDescribe.visitTracesFrom (htraces : TracesDescribe invs groupOf es callList)
    {fuel : Nat} (hfuel : ∀ inv ∈ invs, inv.iterations.flatten.length ≤ fuel) :
    ∀ (m n : Nat) (st : CallAnalysis), n + m = invs.length → Visited invs groupOf es n st →
      st.FlagsRight →
      (∃ ts, TracedAll invs groupOf es n ts ∧ ¬ NotFound invs es ∧
        ∀ {σ : Type} (analyse : σ → InvocationTraces → Except Fault σ) (s : σ),
          (StreamParseLoopRec.visitAll (CamAlias.visitTraces fuel callList analyse) (st, s)
            ((List.range' n m).map fun k => (k, groupOf k))).map Prod.snd
              = analyseAll analyse s ts) ∨
      (NotFound invs es ∧
        ∀ {σ : Type} (analyse : σ → InvocationTraces → Except Fault σ) (s : σ),
          ∃ f, StreamParseLoopRec.visitAll (CamAlias.visitTraces fuel callList analyse) (st, s)
            ((List.range' n m).map fun k => (k, groupOf k)) = .error f) := by
  intro m
  -- on the number of invocations that are left
  induction m with
  | zero =>
      intro n st hn h _
      rw [Nat.add_zero] at hn
      exact Or.inl ⟨[], ⟨hn, by simp⟩, (hn ▸ h).not_notFound, fun analyse s => rfl⟩
  | succ m ih =>
      intro n st hn h hflags
      have hlt : n < invs.length := by omega
      have hget : invs[n]? = some invs[n] := List.getElem?_eq_getElem hlt
      rw [List.range'_succ, List.map_cons]
      rcases h.visitTraces htraces hflags hget (hfuel _ (List.getElem_mem hlt)) with
        ⟨st', o, hvisited, hflags', ho, hround⟩ | ⟨hnot, herror⟩
      · rcases ih (n + 1) st' (by omega) hvisited hflags' with
          ⟨ts, hts, hnot, hloop⟩ | ⟨hnot, herror⟩
        · refine Or.inl ⟨o :: ts, hts.cons hget ho, hnot, fun analyse s => ?_⟩
          simp only [StreamParseLoopRec.visitAll, hround, analyseAll]
          cases analyseOne analyse s o with
          | error f => rfl
          | ok s' => exact hloop analyse s'
        · refine Or.inr ⟨hnot, fun analyse s => ?_⟩
          simp only [StreamParseLoopRec.visitAll, hround]
          cases analyseOne analyse s o with
          | error f => exact ⟨f, rfl⟩
          | ok s' => exact herror analyse s'
      · refine Or.inr ⟨hnot, fun analyse s => ?_⟩
        rcases herror analyse s with ⟨f, hf⟩
        exact ⟨f, by simp only [StreamParseLoopRec.visitAll, hf]⟩

end Loop

/-- The loop over the invocations of two files: the analysis of one invocation after the other, or
some instance of a call is not found. -/
theorem TracesRead.visitTraces_cases {loopTrace callTrace : List BzRead} {done : List Invocation}
    {groupOf : Nat → InvocationGroupCfc} {es : List CallTraceLoopInvocationGroup}
    {callList subInstrList : Finset UInt64}
    (h : TracesRead loopTrace callTrace done groupOf es callList subInstrList) {fuel : Nat}
    (hlong : done.length < fuel) (hfuel : ∀ inv ∈ done, inv.iterations.flatten.length ≤ fuel) :
    ∃ callTraces, StreamParseCallTrace.parseCallTrace fuel callTrace = .ok callTraces ∧
      ((∃ ts, TracedAll done groupOf es 0 ts ∧ ¬ NotFound done es ∧
        ∀ {σ : Type} (analyse : σ → InvocationTraces → Except Fault σ) (s : σ),
          (StreamParseLoopRec.visitAll (visitTraces fuel (callList.sort (· ≤ ·)) analyse)
            (CallAnalysis.start callTraces subInstrList, s)
            ((List.range' 0 done.length).map fun n => (n, groupOf n))).map Prod.snd
              = analyseAll analyse s ts) ∨
      (NotFound done es ∧
        ∀ {σ : Type} (analyse : σ → InvocationTraces → Except Fault σ) (s : σ),
          ∃ f, StreamParseLoopRec.visitAll (visitTraces fuel (callList.sort (· ≤ ·)) analyse)
            (CallAnalysis.start callTraces subInstrList, s)
            ((List.range' 0 done.length).map fun n => (n, groupOf n)) = .error f)) := by
  let callTraces := es.foldl StreamParseCallTrace.addNewInvocationGroup StreamParseCallTrace.new
  have hparse : StreamParseCallTrace.parseCallTrace fuel callTrace = .ok callTraces := by
    rw [StreamParseCallTrace.parseCallTrace, h.entries fuel hlong]
    rfl
  have hinvocations : callTraces.invocations = es :=
    StreamParseCallTrace.invocations_foldl_add es _
  have hflags : (CallAnalysis.start callTraces subInstrList).FlagsRight := by
    refine CallAnalysis.flagsRight_start subInstrList fun clig hclig => ?_
    have hfresh := h.describe.fresh clig (hinvocations ▸ hclig)
    exact ⟨hfresh.empty, hfresh.notBuilt⟩
  exact ⟨callTraces, hparse, h.describe.visitTracesFrom hfuel done.length 0 _ (Nat.zero_add _)
    (Visited.start subInstrList hinvocations) hflags⟩

end CamAlias
