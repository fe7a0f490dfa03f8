import CamAlias.Analyser.Merge

/-!
# Symbols — the instructions and calls that an entry names

The symbols at the leaves of a control flow, and the call IDs of an entry of the call trace.
Merging two pieces of an invocation moves groups and joins control flows, but no symbol and no call
ID is lost or added (`mem_symbolsOf_mergeGroups`, `mem_mergeCallInfo`).
-/

namespace CamAlias

open Lib

namespace CompressionPattern

mutual

/-- The symbols at the leaves. -/
def symbols : CompressionPattern → List CSymbol
  | .leaf s => [s]
  | .node _ ps _ => symbolsAll ps

def symbolsAll : List CompressionPattern → List CSymbol
  | [] => []
  | p :: ps => symbols p ++ symbolsAll ps

end

@[simp] theorem symbolsAll_nil : symbolsAll [] = [] := by
  simp [symbolsAll]

@[simp] theorem symbolsAll_append (ps qs : List CompressionPattern) :
    symbolsAll (ps ++ qs) = symbolsAll ps ++ symbolsAll qs := by
  induction ps with
  | nil => simp
  | cons p ps ih => simp [symbolsAll, ih]

mutual

/-- A pattern that is repeated at all expands to its symbols. -/
theorem mem_expand (s : CSymbol) : ∀ p : CompressionPattern, Positive p →
    (s ∈ expand p ↔ s ∈ symbols p)
  | .leaf sym, _ => by simp [expand, symbols]
  | .node _ ps n, h => by
      rcases (by simpa only [Positive] using h) with ⟨hn, hps⟩
      rw [symbols, ← mem_expandAll s ps hps, expand]
      simp [Nat.pos_iff_ne_zero.1 hn]

theorem mem_expandAll (s : CSymbol) : ∀ ps : List CompressionPattern, PositiveAll ps →
    (s ∈ expandAll ps ↔ s ∈ symbolsAll ps)
  | [], _ => by simp
  | p :: ps, h => by
      rcases (by simpa only [PositiveAll] using h) with ⟨hp, hps⟩
      rw [expandAll_cons, symbolsAll, List.mem_append, List.mem_append, mem_expand s p hp,
        mem_expandAll s ps hps]

end

end CompressionPattern

/-! ## Groups -/

/-- The symbols in the control flows of the groups. -/
def symbolsOf (gs : List CfcGroup) : List CSymbol :=
  gs.flatMap fun g => CompressionPattern.symbolsAll g.controlFlow

variable {s : CSymbol} {existing new merged left : List CfcGroup} {a b : CfcGroup}

/-- Groups name what is seen in the content that they stand for. -/
theorem Describes.mem_symbolsOf {first : Nat} {content : List (List UInt64)} {gs : List CfcGroup}
    (h : Describes first content gs) : s ∈ symbolsOf gs ↔ s ∈ content.flatten := by
  have hiff := h.groups.exists_iff (P := fun cf => s ∈ CompressionPattern.symbolsAll cf)
    (Q := fun symbols => s ∈ symbols) (by
      rintro cf symbols ⟨rfl, hpos⟩
      exact (CompressionPattern.mem_expandAll s cf hpos).symm)
  rw [symbolsOf, List.mem_flatMap, List.mem_flatten]
  refine Iff.trans ?_ hiff
  constructor
  · rintro ⟨g, hg, hs⟩
    exact ⟨g.group, List.mem_map_of_mem hg, hs⟩
  · rintro ⟨_, hgroup, hs⟩
    rcases List.mem_map.1 hgroup with ⟨g, hg, rfl⟩
    exact ⟨g, hg, hs⟩

@[simp] theorem symbolsOf_append (gs hs : List CfcGroup) :
    symbolsOf (gs ++ hs) = symbolsOf gs ++ symbolsOf hs :=
  List.flatMap_append

theorem mem_symbolsOf_append {gs hs : List CfcGroup} :
    s ∈ symbolsOf (gs ++ hs) ↔ s ∈ symbolsOf gs ∨ s ∈ symbolsOf hs := by
  rw [symbolsOf_append, List.mem_append]

theorem mem_symbolsOf_singleton {g : CfcGroup} :
    s ∈ symbolsOf [g] ↔ s ∈ CompressionPattern.symbolsAll g.controlFlow := by
  simp [symbolsOf]

/-- A group of the list, taken apart from the others. -/
theorem mem_symbolsOf_of_getElem? {gs : List CfcGroup} {i : Nat} {g : CfcGroup}
    (h : gs[i]? = some g) :
    s ∈ symbolsOf gs ↔
      s ∈ CompressionPattern.symbolsAll g.controlFlow ∨ s ∈ symbolsOf (gs.eraseIdx i) := by
  rcases List.getElem?_eq_some_iff.1 h with ⟨hlt, hg⟩
  have hsplit : gs = gs.take i ++ g :: gs.drop (i + 1) := by
    rw [← hg, ← List.drop_eq_getElem_cons hlt, List.take_append_drop]
  have herase : gs.eraseIdx i = gs.take i ++ gs.drop (i + 1) := List.eraseIdx_eq_take_drop_succ gs i
  rw [herase, mem_symbolsOf_append]
  rw [hsplit, mem_symbolsOf_append, ← hsplit]
  simp only [symbolsOf, List.flatMap_cons, List.mem_append]
  exact or_left_comm

/-- The group replaced by one with this control flow. -/
theorem mem_symbolsOf_set {gs : List CfcGroup} {i : Nat} {g : CfcGroup} (h : gs[i]? = some g)
    (g' : CfcGroup) :
    s ∈ symbolsOf (gs.set i g') ↔
      s ∈ CompressionPattern.symbolsAll g'.controlFlow ∨ s ∈ symbolsOf (gs.eraseIdx i) := by
  rcases List.getElem?_eq_some_iff.1 h with ⟨hlt, -⟩
  have hget : (gs.set i g')[i]? = some g' := by simp [hlt]
  have herase : (gs.set i g').eraseIdx i = gs.eraseIdx i := by
    rw [List.eraseIdx_set_eq]
  rw [mem_symbolsOf_of_getElem? hget, herase]

theorem mem_symbolsOf_mergeIntoLast {i : Nat} (ha : existing[i]? = some a)
    (h : mergeIntoLast existing i a b = .ok merged) :
    s ∈ symbolsOf merged ↔
      s ∈ symbolsOf existing ∨ s ∈ CompressionPattern.symbolsAll b.controlFlow := by
  simp only [mergeIntoLast] at h
  split at h
  · -- the group is one iteration, which grows
    rcases Except.ok.inj h with rfl
    rw [mem_symbolsOf_set ha, mem_symbolsOf_of_getElem? ha, CompressionPattern.symbolsAll_append,
      List.mem_append]
    exact or_right_comm
  · -- the iteration is taken out of the group, with the same control flow
    split at h
    · simp at h
    · rename_i stays last hextract
      rcases Except.ok.inj h with rfl
      have hsame : stays.controlFlow = a.controlFlow ∧ last.controlFlow = a.controlFlow := by
        simp only [CfcGroup.extractLast] at hextract
        split at hextract
        · rcases Prod.mk.inj (Except.ok.inj hextract) with ⟨rfl, rfl⟩
          exact ⟨rfl, rfl⟩
        · simp at hextract
        · simp at hextract
      rw [mem_symbolsOf_append, mem_symbolsOf_singleton, mem_symbolsOf_set ha,
        mem_symbolsOf_of_getElem? ha, CompressionPattern.symbolsAll_append, List.mem_append,
        hsame.1, hsame.2]
      grind

theorem mem_symbolsOf_remainingGroups {j : Nat} {rest : List CfcGroup} (hb : new[j]? = some b)
    (h : remainingGroups new j b = .ok (rest, left)) :
    s ∈ symbolsOf new ↔
      s ∈ CompressionPattern.symbolsAll b.controlFlow ∨ s ∈ symbolsOf rest := by
  simp only [remainingGroups] at h
  split at h
  · rcases Prod.mk.inj (Except.ok.inj h) with ⟨rfl, -⟩
    exact mem_symbolsOf_of_getElem? hb
  · split at h
    · simp at h
    · rename_i b' hextract
      rcases Prod.mk.inj (Except.ok.inj h) with ⟨rfl, -⟩
      have hsame : b'.controlFlow = b.controlFlow := by
        simp only [CfcGroup.extractFirst] at hextract
        split at hextract
        · rcases Except.ok.inj hextract with rfl
          rfl
        · simp at hextract
      rw [mem_symbolsOf_set hb, mem_symbolsOf_of_getElem? hb, hsame]
      grind

/-- Two parts that are merged have the symbols of both. -/
theorem mem_symbolsOf_mergeGroups (h : mergeGroups existing new = .ok (merged, left)) :
    s ∈ symbolsOf merged ↔ s ∈ symbolsOf existing ∨ s ∈ symbolsOf new := by
  simp only [mergeGroups] at h
  split at h
  · split at h
    · rcases Prod.mk.inj (Except.ok.inj h) with ⟨rfl, -⟩
      exact mem_symbolsOf_append
    · simp at h
    · rename_i maxExisting minNew hmax hmin
      split at h
      · split at h
        · split at h
          · rename_i into rest left' hinto hremaining
            rcases Prod.mk.inj (Except.ok.inj h) with ⟨rfl, -⟩
            rw [mem_symbolsOf_append, mem_symbolsOf_mergeIntoLast hmax hinto,
              mem_symbolsOf_remainingGroups hmin hremaining]
            grind
          · simp at h
          · simp at h
        · rcases Prod.mk.inj (Except.ok.inj h) with ⟨rfl, -⟩
          exact mem_symbolsOf_append
      · simp at h
      · simp at h
  · simp at h
  · simp at h

/-! ## Entries of the loop trace -/

/-- A pattern with one number, which is the last one of `p`. -/
theorem RepetitionPattern.mem_numbers_of_overlap {p q : RepetitionPattern} (hp : Ascending p)
    (hq : Ascending q) (hoverlap : sameNumber p.getLastInstance q.getFirstInstance = .ok true)
    (hsingle : sameNumber q.getLastInstance q.getFirstInstance = .ok true) {k : Nat}
    (hk : k ∈ numbers q) : k ∈ numbers p := by
  have hpne : p ≠ [] := by
    rintro rfl
    simp [sameNumber, getLastInstance] at hoverlap
  have hqne : q ≠ [] := by
    rintro rfl
    simp at hk
  rcases exists_last hp hpne with ⟨before, last, hlast, hgetLast⟩
  rcases exists_first hq hqne with ⟨first, rest, hfirst, hgetFirst⟩
  rcases exists_last hq hqne with ⟨before', last', hlast', hgetLast'⟩
  simp only [sameNumber, hgetLast, hgetFirst, Except.ok.injEq, beq_iff_eq] at hoverlap
  simp only [sameNumber, hgetLast', hgetFirst, Except.ok.injEq, beq_iff_eq] at hsingle
  -- nothing lies between the first and the last number
  have hle : first ≤ k := by
    have hpairwise := hq.pairwise_numbers
    rw [hfirst] at hk hpairwise
    rcases List.mem_cons.1 hk with rfl | hk
    · exact Nat.le_refl k
    · exact Nat.le_of_lt ((List.pairwise_cons.1 hpairwise).1 k hk)
  have hge : k ≤ last' := by
    have hpairwise := hq.pairwise_numbers
    rw [hlast'] at hk hpairwise
    rcases List.mem_append.1 hk with hk | hk
    · exact Nat.le_of_lt ((List.pairwise_append.1 hpairwise).2.2 k hk last' (by simp))
    · exact Nat.le_of_eq (List.mem_singleton.1 hk)
  have hk' : k = last := by omega
  rw [hk', hlast]
  simp

namespace LoopTraceEntry

/-- A symbol occurs in the patterns of the entry. -/
def Names (lte : LoopTraceEntry) (s : CSymbol) : Prop :=
  s ∈ symbolsOf lte.invocation.iterations

/-- Nothing but a merge inside one invocation leaves nothing behind: the first entry takes the
iterations of the second. -/
theorem mergeInto_eq_ok {first second merged : LoopTraceEntry} (hne : second.isEmpty = false)
    (h : first.mergeIntoAndReturnRemaining second = .ok (merged, [])) :
    second.isASingleInvocation = .ok true ∧ ∃ iterations left,
      mergeGroups first.invocation.iterations second.invocation.iterations = .ok (iterations, left) ∧
      merged = { first with invocation := { first.invocation with iterations } } := by
  simp only [mergeIntoAndReturnRemaining, hne] at h
  rw [if_neg (by simp)] at h
  split at h
  · simp at h
  · simp at h
  · split at h
    · simp at h
    · split at h
      · simp at h
      · rename_i invocation left hmerge
        cases hrest : remainingInvocations { second with invocation := left } with
        | error e => simp [hrest, Except.map] at h
        | ok rest =>
            simp only [hrest, Except.map, Except.ok.injEq, Prod.mk.injEq] at h
            rcases h with ⟨rfl, rfl⟩
            simp only [InvocationGroupCfc.mergeIterationInfo] at hmerge
            split at hmerge
            · rename_i iterations left' hgroups
              rcases Prod.mk.inj (Except.ok.inj hmerge) with ⟨rfl, -⟩
              refine ⟨?_, iterations, left', hgroups, rfl⟩
              simp only [remainingInvocations] at hrest
              split at hrest
              · simp at hrest
              · assumption
              · split at hrest <;> simp at hrest
            · simp at hmerge
    · -- of several invocations, one would be left
      split at h
      · simp at h
      · split at h
        · simp at h
        · rename_i invocation left hmerge
          cases hrest : remainingInvocations { second with invocation := left } with
          | error e => simp [hrest, Except.map] at h
          | ok rest => simp [hrest, Except.map] at h

theorem names_mergeInto {first second merged : LoopTraceEntry} (hne : second.isEmpty = false)
    (h : first.mergeIntoAndReturnRemaining second = .ok (merged, [])) :
    merged.Names s ↔ first.Names s ∨ second.Names s := by
  rcases mergeInto_eq_ok hne h with ⟨-, iterations, left, hgroups, rfl⟩
  exact mem_symbolsOf_mergeGroups hgroups

/-- The invocation of the second entry is the last one of the first. -/
theorem mem_numbers_mergeInto {first second merged : LoopTraceEntry} {k : Nat}
    (hfirst : Ascending first.invocationRepetitionPattern)
    (hsecond : Ascending second.invocationRepetitionPattern)
    (hoverlap : first.lastAndFirstInvocationOverlap second = .ok true)
    (hne : second.isEmpty = false)
    (h : first.mergeIntoAndReturnRemaining second = .ok (merged, [])) :
    merged.invocationRepetitionPattern = first.invocationRepetitionPattern ∧
      (k ∈ numbers second.invocationRepetitionPattern →
        k ∈ numbers first.invocationRepetitionPattern) := by
  rcases mergeInto_eq_ok hne h with ⟨hsingle, iterations, left, -, rfl⟩
  exact ⟨rfl, RepetitionPattern.mem_numbers_of_overlap hfirst hsecond hoverlap hsingle⟩

end LoopTraceEntry

/-! ## Entries of the call trace -/

namespace CallTraceLoopInvocationGroup

/-- A symbol occurs in the patterns of some call of the entry. -/
def Names (clig : CallTraceLoopInvocationGroup) (s : CSymbol) : Prop :=
  ∃ id, s ∈ symbolsOf (instancesOf clig.calls id)

/-- The entry has the call. -/
def HasCall (clig : CallTraceLoopInvocationGroup) (id : UInt64) : Prop :=
  id ∈ clig.calls

/-- The instances of a call and of the one added to it. -/
theorem mem_symbolsOf_addCallTraceCall {call c call' c' : CallTraceCall}
    (h : call.addCallTraceCall c = .ok (call', c')) :
    s ∈ symbolsOf call'.callInstances ↔
      s ∈ symbolsOf call.callInstances ∨ s ∈ symbolsOf c.callInstances := by
  simp only [CallTraceCall.addCallTraceCall] at h
  split at h
  · rcases Prod.mk.inj (Except.ok.inj h) with ⟨rfl, -⟩
    exact mem_symbolsOf_append
  · split at h
    · rename_i callInstances left hmerge
      rcases Prod.mk.inj (Except.ok.inj h) with ⟨rfl, -⟩
      exact mem_symbolsOf_mergeGroups hmerge
    · simp at h

/-- Calls merged one after the other. -/
theorem mem_mergeCalls : ∀ (rest : List (UInt64 × CallTraceCall)) {calls left calls' left' : CallMap},
    mergeCalls rest calls left = .ok (calls', left') →
    ∀ id, (id ∈ calls' ↔ id ∈ calls ∨ ∃ item ∈ rest, item.1 = id) ∧
      (s ∈ symbolsOf (instancesOf calls' id) ↔ s ∈ symbolsOf (instancesOf calls id) ∨
        ∃ item ∈ rest, item.1 = id ∧ s ∈ symbolsOf item.2.callInstances) := by
  intro rest
  induction rest with
  | nil =>
      intro calls left calls' left' h id
      rcases Prod.mk.inj (Except.ok.inj h) with ⟨rfl, -⟩
      simp
  | cons item rest ih =>
      rcases item with ⟨callID, c⟩
      intro calls left calls' left' h id
      simp only [mergeCalls] at h
      split at h
      · simp at h
      · rename_i call c' hadd
        rcases ih h id with ⟨hkeys, hsymbols⟩
        rw [hkeys, hsymbols]
        by_cases hid : callID = id
        · subst hid
          have hone := mem_symbolsOf_addCallTraceCall (s := s) hadd
          rw [instancesOf_insert_self, hone]
          constructor
          · simp
          · simp only [List.mem_cons, exists_eq_or_imp, true_and]
            rw [instancesOf]
            grind
        · rw [instancesOf_insert_of_ne calls hid]
          constructor
          · simp [Std.ExtTreeMap.mem_insert, hid]
          · simp [hid]

/-- Merging keeps the call IDs and the symbols of both. -/
theorem mem_mergeCallInfo {clig merged : CallTraceLoopInvocationGroup} {other left : CallMap}
    (h : clig.mergeCallInfo other = .ok (merged, left)) (id : UInt64) :
    (id ∈ merged.calls ↔ id ∈ clig.calls ∨ id ∈ other) ∧
      (s ∈ symbolsOf (instancesOf merged.calls id) ↔
        s ∈ symbolsOf (instancesOf clig.calls id) ∨ s ∈ symbolsOf (instancesOf other id)) := by
  simp only [mergeCallInfo] at h
  cases hmerge : mergeCalls other.toList clig.calls other with
  | error e => simp [hmerge, Except.map] at h
  | ok r =>
      simp only [hmerge, Except.map, Except.ok.injEq, Prod.mk.injEq] at h
      rcases h with ⟨rfl, -⟩
      rcases mem_mergeCalls (s := s) other.toList hmerge id with ⟨hkeys, hsymbols⟩
      have hitem : ∀ item : UInt64 × CallTraceCall,
          item ∈ other.toList ↔ other[item.1]? = some item.2 := fun item =>
        Std.ExtTreeMap.mem_toList_iff_getElem?_eq_some
      refine ⟨hkeys.trans (or_congr_right ?_), hsymbols.trans (or_congr_right ?_)⟩
      · constructor
        · rintro ⟨item, hmem, rfl⟩
          rw [Std.ExtTreeMap.mem_iff_isSome_getElem?, (hitem item).1 hmem]
          rfl
        · intro hmem
          rw [Std.ExtTreeMap.mem_iff_isSome_getElem?] at hmem
          rcases Option.isSome_iff_exists.1 hmem with ⟨c, hc⟩
          exact ⟨(id, c), (hitem (id, c)).2 hc, rfl⟩
      · constructor
        · rintro ⟨item, hmem, rfl, hs⟩
          simpa [instancesOf, (hitem item).1 hmem] using hs
        · intro hs
          cases hget : other[id]? with
          | none => simp [instancesOf, hget, CallTraceCall.new, symbolsOf] at hs
          | some c =>
              refine ⟨(id, c), (hitem (id, c)).2 hget, rfl, ?_⟩
              simpa [instancesOf, hget] using hs

/-- What a merge inside one loop invocation makes of the calls. -/
theorem mergeInto_eq_ok {first second merged : CallTraceLoopInvocationGroup}
    (hne : second.isEmpty = false)
    (h : first.mergeIntoAndReturnRemaining second = .ok (merged, [])) :
    ∃ left, first.mergeCallInfo second.calls = .ok (merged, left) := by
  simp only [mergeIntoAndReturnRemaining, hne] at h
  rw [if_neg (by simp)] at h
  split at h
  · simp at h
  · simp at h
  · split at h
    · split at h
      · simp at h
      · rename_i clig left hmerge
        cases hrest : remainingInvocations { second with calls := left } with
        | error e => simp [hrest, Except.map] at h
        | ok rest =>
            simp only [hrest, Except.map, Except.ok.injEq, Prod.mk.injEq] at h
            rcases h with ⟨rfl, -⟩
            exact ⟨left, hmerge⟩
    · split at h
      · simp at h
      · split at h
        · simp at h
        · rename_i clig left hmerge
          cases hrest : remainingInvocations { second with calls := left } with
          | error e => simp [hrest, Except.map] at h
          | ok rest => simp [hrest, Except.map] at h

theorem names_mergeInto {first second merged : CallTraceLoopInvocationGroup}
    (hne : second.isEmpty = false)
    (h : first.mergeIntoAndReturnRemaining second = .ok (merged, [])) :
    merged.Names s ↔ first.Names s ∨ second.Names s := by
  rcases mergeInto_eq_ok hne h with ⟨left, hmerge⟩
  rw [Names, Names, Names, ← exists_or]
  exact exists_congr fun id => (mem_mergeCallInfo hmerge id).2

theorem hasCall_mergeInto {first second merged : CallTraceLoopInvocationGroup} {id : UInt64}
    (hne : second.isEmpty = false)
    (h : first.mergeIntoAndReturnRemaining second = .ok (merged, [])) :
    merged.HasCall id ↔ first.HasCall id ∨ second.HasCall id := by
  rcases mergeInto_eq_ok hne h with ⟨left, hmerge⟩
  exact (mem_mergeCallInfo (s := 0) hmerge id).1

end CallTraceLoopInvocationGroup
end CamAlias
