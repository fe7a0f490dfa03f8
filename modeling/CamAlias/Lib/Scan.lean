/-!
# Scan — pieces of text that are scanned independently of what follows

A scanner maps a text to its tokens.  `Scans f t toks` says that the piece `t` gives the tokens
`toks` in front of any other text, so a text printed in such pieces is scanned piece by piece.
-/

namespace CamAlias
namespace Lib

variable {α β γ : Type _} {f : List α → List β}

/-- The scanner `f` turns `t` into `toks`, whatever comes after it. -/
def Scans (f : List α → List β) (t : List α) (toks : List β) : Prop :=
  ∀ rest, f (t ++ rest) = toks ++ f rest

theorem Scans.nil : Scans f [] [] := by
  intro rest
  simp

theorem Scans.append {t u : List α} {toks toks' : List β} (ht : Scans f t toks)
    (hu : Scans f u toks') : Scans f (t ++ u) (toks ++ toks') := by
  intro rest
  rw [List.append_assoc, ht, hu, List.append_assoc]

/-- Pieces printed one after the other. -/
theorem Scans.flatMap {print : γ → List α} {toks : γ → List β} {xs : List γ}
    (h : ∀ x ∈ xs, Scans f (print x) (toks x)) :
    Scans f (xs.flatMap print) (xs.flatMap toks) := by
  induction xs with
  | nil => simpa using Scans.nil
  | cons x xs ih =>
      have hx := h x (by simp)
      have hxs := ih fun y hy => h y (List.mem_cons_of_mem _ hy)
      simpa only [List.flatMap_cons] using hx.append hxs

/-- A whole text is such a piece in front of nothing. -/
theorem Scans.eq {t : List α} {toks : List β} (h : Scans f t toks) (hnil : f [] = []) :
    f t = toks := by
  simpa [hnil] using h []

end Lib
end CamAlias
