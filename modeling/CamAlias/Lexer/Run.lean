import CamAlias.Analyser.CompressionPattern

/-!
# Run — the generated scanners as state machines over tokens

The actions of a lexer change its state; an action may return 1 to the caller, which calls the
lexer again later.  `Reads l ts l'` says that the tokens `ts` take the lexer from `l` to `l'`
without a return, whatever follows them.
-/

namespace CamAlias

variable {L τ : Type} (lexToken : L → τ → Except Fault (L × Bool))

/-- The actions of the tokens one after the other, until one returns 1: the tokens not yet read,
and whether one did. -/
def lexUntil (l : L) : List τ → Except Fault (L × List τ × Bool)
  | [] => .ok (l, [], false)
  | t :: ts =>
      match lexToken l t with
      | .error e => .error e
      | .ok (l, true) => .ok (l, ts, true)
      | .ok (l, false) => lexUntil l ts

/-- The lexer gets from `l` to `l'` on `ts`, whatever follows. -/
def Reads (l : L) (ts : List τ) (l' : L) : Prop :=
  ∀ rest, lexUntil lexToken l (ts ++ rest) = lexUntil lexToken l' rest

variable {lexToken} {l l' l'' : L} {ts us : List τ}

namespace Reads

theorem nil : Reads lexToken l [] l := fun _ => rfl

theorem append (h : Reads lexToken l ts l') (h' : Reads lexToken l' us l'') :
    Reads lexToken l (ts ++ us) l'' := by
  intro rest
  rw [List.append_assoc, h, h']

theorem token {t : τ} (h : lexToken l t = .ok (l', false)) : Reads lexToken l [t] l' := by
  intro rest
  simp only [List.singleton_append, lexUntil, h]

theorem cons {t : τ} (h : lexToken l t = .ok (l', false)) (h' : Reads lexToken l' us l'') :
    Reads lexToken l (t :: us) l'' :=
  (token h).append h'

/-- A token that changes nothing, several times. -/
theorem skip {t : τ} (h : lexToken l t = .ok (l, false)) (ts : List τ)
    (hts : ∀ t' ∈ ts, t' = t) : Reads lexToken l ts l := by
  induction ts with
  | nil => exact nil
  | cons t' ts ih =>
      rcases hts t' (by simp) with rfl
      exact cons h (ih fun t'' ht'' => hts t'' (List.mem_cons_of_mem _ ht''))

/-- Up to the token whose action returns. -/
theorem lexUntil_eq {t : τ} (h : Reads lexToken l ts l') (ht : lexToken l' t = .ok (l'', true))
    (rest : List τ) : lexUntil lexToken l (ts ++ t :: rest) = .ok (l'', rest, true) := by
  rw [h]
  simp only [lexUntil, ht]

end Reads

/-! ## A lexer called until the end of the file -/

/-- After a return the lexer is called again. -/
def lexAll (lexToken : L → τ → Except Fault (L × Bool)) (l : L) : List τ → Except Fault L
  | [] => .ok l
  | t :: ts =>
      match lexToken l t with
      | .error e => .error e
      | .ok (l, _) => lexAll lexToken l ts

theorem lexAll_append (ts us : List τ) : ∀ l : L, lexAll lexToken l (ts ++ us)
    = (lexAll lexToken l ts).bind fun l' => lexAll lexToken l' us := by
  induction ts with
  | nil => exact fun _ => rfl
  | cons t ts ih =>
      intro l
      simp only [List.cons_append, lexAll]
      cases h : lexToken l t with
      | error e => rfl
      | ok r => exact ih r.1

/-- The lexer gets from `l` to `l'` on `ts`, over its returns. -/
def LexesAll (lexToken : L → τ → Except Fault (L × Bool)) (l : L) (ts : List τ) (l' : L) :
    Prop :=
  lexAll lexToken l ts = .ok l'

namespace LexesAll

theorem nil : LexesAll lexToken l [] l := rfl

theorem append (h : LexesAll lexToken l ts l') (h' : LexesAll lexToken l' us l'') :
    LexesAll lexToken l (ts ++ us) l'' := by
  rw [LexesAll, lexAll_append, h]
  exact h'

theorem token {t : τ} {more : Bool} (h : lexToken l t = .ok (l', more)) :
    LexesAll lexToken l [t] l' := by
  simp only [LexesAll, lexAll, h]

/-- A token without a return. -/
theorem consume {t : τ} (h : lexToken l t = .ok (l', false)) : LexesAll lexToken l [t] l' :=
  token h

theorem cons {t : τ} {more : Bool} (h : lexToken l t = .ok (l', more))
    (h' : LexesAll lexToken l' us l'') : LexesAll lexToken l (t :: us) l'' :=
  (token h).append h'

/-- A token that changes nothing, several times. -/
theorem skip {t : τ} (h : lexToken l t = .ok (l, false)) (ts : List τ)
    (hts : ∀ t' ∈ ts, t' = t) : LexesAll lexToken l ts l := by
  induction ts with
  | nil => exact nil
  | cons t' ts ih =>
      rcases hts t' (by simp) with rfl
      exact cons h (ih fun t'' ht'' => hts t'' (List.mem_cons_of_mem _ ht''))

end LexesAll

/-- The tokens of two buffers, one behind the other. -/
theorem lexUntil_append (ts us : List τ) : ∀ l : L, lexUntil lexToken l (ts ++ us)
    = match lexUntil lexToken l ts with
      | .error e => .error e
      | .ok (l', rest, true) => .ok (l', rest ++ us, true)
      | .ok (l', _, false) => lexUntil lexToken l' us := by
  induction ts with
  | nil => exact fun _ => rfl
  | cons t ts ih =>
      intro l
      simp only [List.cons_append, lexUntil]
      cases h : lexToken l t with
      | error e => rfl
      | ok r =>
          rcases r with ⟨l', _ | _⟩
          · exact ih l'
          · rfl

/-- Where no action returns, all tokens are read. -/
theorem eq_nil_of_lexUntil {rest : List τ} (h : lexUntil lexToken l ts = .ok (l', rest, false)) :
    rest = [] := by
  induction ts generalizing l with
  | nil => exact (Prod.mk.inj (Prod.mk.inj (Except.ok.inj h)).2).1.symm
  | cons t ts ih =>
      simp only [lexUntil] at h
      split at h
      · cases h
      · simp at h
      · exact ih h

/-- A caller that goes on after a return reads the tokens that are left. -/
theorem lexAll_eq_of_lexUntil {rest : List τ} {more : Bool}
    (h : lexUntil lexToken l ts = .ok (l', rest, more)) :
    lexAll lexToken l ts = lexAll lexToken l' rest := by
  induction ts generalizing l with
  | nil =>
      rcases Prod.mk.inj (Except.ok.inj h) with ⟨rfl, hrest⟩
      rw [← (Prod.mk.inj hrest).1]
  | cons t ts ih =>
      simp only [lexUntil] at h
      rw [lexAll]
      split at h
      · cases h
      · rename_i ht
        rcases Prod.mk.inj (Except.ok.inj h) with ⟨rfl, hrest⟩
        rw [ht, ← (Prod.mk.inj hrest).1]
      · rename_i ht
        rw [ht]
        exact ih h

theorem lexAll_error_of_lexUntil {e : Fault} (h : lexUntil lexToken l ts = .error e) :
    lexAll lexToken l ts = .error e := by
  induction ts generalizing l with
  | nil => cases h
  | cons t ts ih =>
      simp only [lexUntil] at h
      rw [lexAll]
      split at h
      · rename_i ht
        rw [ht]
        exact congrArg Except.error (Except.error.inj h)
      · cases h
      · rename_i ht
        rw [ht]
        exact ih h

/-- A return leaves fewer tokens. -/
theorem length_lt_of_lexUntil {rest : List τ}
    (h : lexUntil lexToken l ts = .ok (l', rest, true)) : rest.length < ts.length := by
  induction ts generalizing l with
  | nil => simp [lexUntil] at h
  | cons t ts ih =>
      simp only [lexUntil] at h
      split at h
      · simp at h
      · simp only [Except.ok.injEq, Prod.mk.injEq, and_true] at h
        simp [h.2]
      · have := ih h
        simp only [List.length_cons]
        omega

end CamAlias
