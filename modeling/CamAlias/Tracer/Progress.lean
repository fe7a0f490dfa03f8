import CamAlias.Analyser.LoopRec

/-!
# Progress — a sequence that is being recorded in parts

The elements of a sequence (the iterations of an invocation, the instances of a call) recorded since
the last write, and the one that is running.  `Part.join` puts them behind, or inside, what has been
written; a write changes nothing in the whole (`join_restart`).
-/

namespace CamAlias

/-- The elements of a sequence since the last write, and the one that is running. -/
structure Progress where
  first : Nat
  values : List (List UInt64)
  current : Option (List UInt64)

namespace Progress

def new : Progress where
  first := 0
  values := []
  current := none

/-- All elements, the running one included. -/
def part (p : Progress) : Part where
  first := p.first
  values := p.values ++ p.current.toList

/-- The running element ends. -/
def finish (p : Progress) : Progress where
  first := p.first
  values := p.values ++ p.current.toList
  current := none

/-- The next element begins. -/
def next (p : Progress) : Progress :=
  { p.finish with current := some [] }

/-- The next element begins, and has seen the symbols already. -/
def nextWith (p : Progress) (symbols : List UInt64) : Progress :=
  { p.finish with current := some symbols }

/-- The running element sees a symbol. -/
def record (p : Progress) (symbol : UInt64) : Progress :=
  { p with current := p.current.map (· ++ [symbol]) }

/-- What is left after a write: the rest of the running element. -/
def restart (p : Progress) : Progress where
  first := p.first + p.values.length
  values := []
  current := p.current.map fun _ => []

/-- The number of elements so far. -/
def count (p : Progress) : Nat :=
  p.part.first + p.part.values.length

@[simp] theorem part_new : new.part = { first := 0, values := [] } := rfl

@[simp] theorem part_finish (p : Progress) : p.finish.part = p.part := by
  simp [part, finish]

@[simp] theorem count_finish (p : Progress) : p.finish.count = p.count := by
  simp [count]

@[simp] theorem count_next (p : Progress) : p.next.count = p.count + 1 := by
  simp [count, part, next, finish]
  omega

@[simp] theorem count_nextWith (p : Progress) (symbols : List UInt64) :
    (p.nextWith symbols).count = p.count + 1 := by
  simp [count, part, nextWith, finish]
  omega

@[simp] theorem count_record (p : Progress) (symbol : UInt64) :
    (p.record symbol).count = p.count := by
  cases h : p.current <;> simp [count, part, record, h]

@[simp] theorem count_restart (p : Progress) : p.restart.count = p.count := by
  cases h : p.current <;> simp [count, part, restart, h]
  omega

/-- The running element is the last one. -/
theorem part_eq {p : Progress} {x : List UInt64} (h : p.current = some x) :
    p.part = { first := p.first, values := p.values ++ [x] } := by
  simp [part, h]

/-! ### What has been recorded -/

variable {p : Progress} {xs : List (List UInt64)}

/-- The part continues what has been written. -/
def Follows (p : Progress) (xs : List (List UInt64)) : Prop :=
  p.part.Continues xs

theorem Follows.new : Follows Progress.new [] :=
  Or.inr rfl

theorem Follows.next (h : p.Follows xs) : p.next.Follows xs := by
  rcases h with ⟨hlen, -⟩ | hlen
  · exact Or.inl ⟨hlen, by simp [part, Progress.next]⟩
  · exact Or.inr hlen

theorem Follows.nextWith (h : p.Follows xs) (symbols : List UInt64) :
    (p.nextWith symbols).Follows xs := by
  rcases h with ⟨hlen, -⟩ | hlen
  · exact Or.inl ⟨hlen, by simp [part, Progress.nextWith]⟩
  · exact Or.inr hlen

theorem Follows.finish (h : p.Follows xs) : p.finish.Follows xs := by
  rw [Follows, part_finish]
  exact h

theorem Follows.record (h : p.Follows xs) (symbol : UInt64) : (p.record symbol).Follows xs := by
  rcases h with ⟨hlen, hne⟩ | hlen
  · refine Or.inl ⟨hlen, ?_⟩
    cases hc : p.current <;> simp_all [part, Progress.record]
  · exact Or.inr hlen

theorem join_next (h : p.Follows xs) : p.next.part.join xs = p.part.join xs ++ [[]] := by
  have hpart : p.next.part = { p.part with values := p.part.values ++ [[]] } := by
    simp [part, next, finish]
  rw [hpart, Part.join_append h]

/-- The running element is the last of all. -/
theorem exists_join {x : List UInt64} (h : p.Follows xs) (hx : p.current = some x) :
    ∃ ys y, p.part.join xs = ys ++ [y] ∧
      ∀ symbol, (p.record symbol).part.join xs = ys ++ [y ++ [symbol]] := by
  rw [Follows, part_eq hx] at h
  have hrecord : ∀ symbol, (p.record symbol).current = some (x ++ [symbol]) := by
    intro symbol
    simp [record, hx]
  rcases h with ⟨hlen, -⟩ | hlen
  · rcases List.eq_nil_or_concat' xs with rfl | ⟨zs, z, rfl⟩
    · simp at hlen
    · have hfirst : p.first = zs.length := by simpa using hlen
      cases hvalues : p.values with
      | nil =>
          -- the element began before the last write
          refine ⟨zs, z ++ x, ?_, ?_⟩
          · rw [part_eq hx, hfirst, hvalues]
            exact Part.join_cut zs z x []
          · intro symbol
            have hp : (p.record symbol).part
                = { first := zs.length, values := [x ++ [symbol]] } := by
              rw [part_eq (hrecord symbol)]
              simp [record, hfirst, hvalues]
            rw [hp, Part.join_cut, List.append_assoc]
      | cons v vs =>
          refine ⟨zs ++ (z ++ v) :: vs, x, ?_, ?_⟩
          · rw [part_eq hx, hfirst, hvalues, List.cons_append, Part.join_cut]
            simp
          · intro symbol
            have hp : (p.record symbol).part
                = { first := zs.length, values := v :: (vs ++ [x ++ [symbol]]) } := by
              rw [part_eq (hrecord symbol)]
              simp [record, hfirst, hvalues]
            rw [hp, Part.join_cut]
            simp
  · have hfirst : p.first = xs.length := hlen
    refine ⟨xs ++ p.values, x, ?_, ?_⟩
    · rw [part_eq hx, hfirst, Part.join_next, List.append_assoc]
    · intro symbol
      have hp : (p.record symbol).part
          = { first := xs.length, values := p.values ++ [x ++ [symbol]] } := by
        rw [part_eq (hrecord symbol)]
        simp [record, hfirst]
      rw [hp, Part.join_next, List.append_assoc]

/-- A write leaves what has been recorded. -/
theorem join_restart (h : p.Follows xs) :
    p.restart.Follows (p.part.join xs) ∧ p.restart.part.join (p.part.join xs) = p.part.join xs := by
  have hlen := Part.length_join h
  cases hc : p.current with
  | none =>
      have hpart : p.restart.part = { first := (p.part.join xs).length, values := [] } := by
        rw [hlen]
        simp [part, restart, hc]
      rw [Follows, hpart]
      refine ⟨Or.inr rfl, ?_⟩
      rw [Part.join_next, List.append_nil]
  | some x =>
      rcases exists_join h hc with ⟨ys, y, hjoin, -⟩
      rw [hjoin] at hlen ⊢
      have hpart : p.restart.part = { first := ys.length, values := [[]] } := by
        have hfirst : ys.length = p.first + p.values.length := by
          simp only [part, hc, List.length_append, List.length_singleton, Option.toList] at hlen
          omega
        simp [part, restart, hc, hfirst]
      rw [Follows, hpart]
      refine ⟨Or.inl ⟨by simp, by simp⟩, ?_⟩
      rw [Part.join_cut, List.append_nil]

end Progress

end CamAlias
