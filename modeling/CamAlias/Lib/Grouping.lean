import Mathlib.Data.List.Basic
import Mathlib.Data.List.Nodup
import Mathlib.Data.List.Perm.Basic
import Mathlib.Tactic.Common

/-!
# Grouping — numbered values kept once per group of equal ones

A sequence of values is numbered from `lo` on and stored as groups: each group has the numbers of
its members and one representative.  `Groups R lo content gs` says that the groups split the
numbers and that the representative of a group stands, through `R`, for the value at each of its
numbers.  `FirstSeen` adds that the groups are listed in the order of their first members.

* `Groups.snoc_new`, `Groups.snoc_join`: the next value starts a group or joins one;
* `FirstSeen.snoc_new`, `FirstSeen.snoc_join`: the same for the order.
-/

namespace CamAlias
namespace Lib

variable {α β γ : Type _} {R : α → β → Prop}

/-- The groups split the numbers `lo, lo + 1, …` of `content`. -/
structure Groups (R : α → β → Prop) (lo : Nat) (content : List β)
    (gs : List (List Nat × α)) : Prop where
  perm : (gs.flatMap Prod.fst).Perm (List.range' lo content.length)
  nonempty : ∀ g ∈ gs, g.1 ≠ []
  value : ∀ g ∈ gs, ∀ k ∈ g.1, ∃ c, content[k - lo]? = some c ∧ R g.2 c

namespace Groups

variable {lo : Nat} {content : List β} {gs : List (List Nat × α)}

theorem nil : Groups R lo [] [] where
  perm := by simp
  nonempty := by simp
  value := by simp

theorem bounds (h : Groups R lo content gs) {g : List Nat × α} (hg : g ∈ gs) {k : Nat}
    (hk : k ∈ g.1) : lo ≤ k ∧ k < lo + content.length := by
  have hmem : k ∈ gs.flatMap Prod.fst := List.mem_flatMap.2 ⟨g, hg, hk⟩
  exact List.mem_range'_1.1 (h.perm.mem_iff.1 hmem)

theorem exists_group (h : Groups R lo content gs) {k : Nat} (hlo : lo ≤ k)
    (hk : k < lo + content.length) : ∃ g ∈ gs, k ∈ g.1 := by
  have hmem : k ∈ gs.flatMap Prod.fst := h.perm.mem_iff.2 (List.mem_range'_1.2 ⟨hlo, hk⟩)
  exact List.mem_flatMap.1 hmem

theorem nodup (h : Groups R lo content gs) : (gs.flatMap Prod.fst).Nodup :=
  h.perm.nodup_iff.2 List.nodup_range'

/-- A number lies in one group only. -/
theorem index_unique (h : Groups R lo content gs) {i i' : Nat} {g g' : List Nat × α}
    (hg : gs[i]? = some g) (hg' : gs[i']? = some g') {k : Nat} (hk : k ∈ g.1) (hk' : k ∈ g'.1) :
    i = i' := by
  have hapart := List.pairwise_iff_getElem.1 (List.nodup_flatMap.1 h.nodup).2
  rcases List.getElem?_eq_some_iff.1 hg with ⟨hi, rfl⟩
  rcases List.getElem?_eq_some_iff.1 hg' with ⟨hi', rfl⟩
  rcases Nat.lt_trichotomy i i' with hlt | heq | hlt
  · exact absurd hk' (hapart i i' hi hi' hlt hk)
  · exact heq
  · exact absurd hk (hapart i' i hi' hi hlt hk')

/-- There are no more groups than values. -/
theorem length_le (h : Groups R lo content gs) : gs.length ≤ content.length := by
  have hsizes : ∀ gs : List (List Nat × α), (∀ g ∈ gs, g.1 ≠ []) →
      gs.length ≤ (gs.flatMap Prod.fst).length := by
    intro gs
    induction gs with
    | nil => exact fun _ => Nat.le_refl _
    | cons g gs ih =>
        intro hne
        have hpos := List.length_pos_iff.2 (hne g List.mem_cons_self)
        have hrest := ih fun g' hg' => hne g' (List.mem_cons_of_mem _ hg')
        rw [List.flatMap_cons, List.length_append, List.length_cons]
        omega
  calc gs.length ≤ (gs.flatMap Prod.fst).length := hsizes gs h.nonempty
    _ = content.length := by rw [h.perm.length_eq, List.length_range']

/-- What is said of a group can be said of its values. -/
theorem exists_iff (h : Groups R lo content gs) {P : α → Prop} {Q : β → Prop}
    (hPQ : ∀ x c, R x c → (P x ↔ Q c)) : (∃ g ∈ gs, P g.2) ↔ ∃ c ∈ content, Q c := by
  constructor
  · rintro ⟨g, hg, hP⟩
    rcases List.exists_mem_of_ne_nil _ (h.nonempty g hg) with ⟨k, hk⟩
    rcases h.value g hg k hk with ⟨c, hc, hR⟩
    exact ⟨c, List.mem_of_getElem? hc, (hPQ _ _ hR).1 hP⟩
  · rintro ⟨c, hc, hQ⟩
    rcases List.mem_iff_getElem?.1 hc with ⟨i, hi⟩
    have hlt := (List.getElem?_eq_some_iff.1 hi).1
    rcases h.exists_group (Nat.le_add_right lo i) (Nat.add_lt_add_left hlt lo) with ⟨g, hg, hmem⟩
    rcases h.value g hg _ hmem with ⟨c', hc', hR⟩
    rw [Nat.add_sub_cancel_left, hi] at hc'
    rcases Option.some.inj hc' with rfl
    exact ⟨g, hg, (hPQ _ _ hR).2 hQ⟩

/-- The groups settle the values. -/
theorem content_unique (hR : ∀ x c c', R x c → R x c' → c = c') {content' : List β}
    (h : Groups R lo content gs) (h' : Groups R lo content' gs) : content = content' := by
  have hlen : content.length = content'.length := by
    simpa using (h.perm.symm.trans h'.perm).length_eq
  refine List.ext_getElem? ?_
  intro k
  by_cases hk : k < content.length
  · rcases h.exists_group (Nat.le_add_right lo k) (Nat.add_lt_add_left hk lo) with ⟨g, hg, hmem⟩
    rcases h.value g hg _ hmem with ⟨c, hc, hr⟩
    rcases h'.value g hg _ hmem with ⟨c', hc', hr'⟩
    rw [Nat.add_sub_cancel_left] at hc hc'
    rw [hc, hc', hR g.2 c c' hr hr']
  · rw [List.getElem?_eq_none (Nat.le_of_not_lt hk),
      List.getElem?_eq_none (hlen ▸ Nat.le_of_not_lt hk)]

/-- The next value in a group of its own. -/
theorem snoc_new (h : Groups R lo content gs) {x : α} {c : β} (hx : R x c) :
    Groups R lo (content ++ [c]) (gs ++ [([lo + content.length], x)]) where
  perm := by
    simp only [List.flatMap_append, List.flatMap_cons, List.flatMap_nil, List.append_nil,
      List.length_append, List.length_cons, List.length_nil, List.range'_concat, Nat.one_mul]
    exact h.perm.append (List.Perm.refl _)
  nonempty := by
    intro g hg
    rcases List.mem_append.1 hg with hg | hg
    · exact h.nonempty g hg
    · rcases List.mem_singleton.1 hg with rfl
      simp
  value := by
    intro g hg k hk
    rcases List.mem_append.1 hg with hg | hg
    · have hb := h.bounds hg hk
      rcases h.value g hg k hk with ⟨c', hc', hr⟩
      exact ⟨c', by rw [List.getElem?_append_left (by omega), hc'], hr⟩
    · rcases List.mem_singleton.1 hg with rfl
      rcases List.mem_singleton.1 hk with rfl
      exact ⟨c, by simp, hx⟩

/-- The next value in the group of an equal one. -/
theorem snoc_join {as bs : List (List Nat × α)} {ns : List Nat} {y : α}
    (h : Groups R lo content (as ++ (ns, y) :: bs)) {c : β} (hy : R y c) :
    Groups R lo (content ++ [c]) (as ++ (ns ++ [lo + content.length], y) :: bs) where
  perm := by
    have hperm := h.perm
    simp only [List.flatMap_append, List.flatMap_cons, List.length_append, List.length_cons,
      List.length_nil, List.range'_concat, Nat.one_mul] at hperm ⊢
    refine List.Perm.trans ?_ (hperm.append (List.Perm.refl [lo + content.length]))
    rw [List.append_assoc, List.append_assoc, List.append_assoc]
    exact ((List.perm_append_comm).append_left ns).append_left _
  nonempty := by
    intro g hg
    rcases List.mem_append.1 hg with hg | hg
    · exact h.nonempty g (List.mem_append_left _ hg)
    · rcases List.mem_cons.1 hg with rfl | hg
      · simp
      · exact h.nonempty g (by simp [hg])
  value := by
    have hold : ∀ g ∈ as ++ (ns, y) :: bs, ∀ k ∈ g.1,
        ∃ c', (content ++ [c])[k - lo]? = some c' ∧ R g.2 c' := by
      intro g hg k hk
      have hb := h.bounds hg hk
      rcases h.value g hg k hk with ⟨c', hc', hr⟩
      exact ⟨c', by rw [List.getElem?_append_left (by omega), hc'], hr⟩
    intro g hg k hk
    rcases List.mem_append.1 hg with hg | hg
    · exact hold g (List.mem_append_left _ hg) k hk
    · rcases List.mem_cons.1 hg with rfl | hg
      · rcases List.mem_append.1 hk with hk | hk
        · exact hold (ns, y) (by simp) k hk
        · rcases List.mem_singleton.1 hk with rfl
          exact ⟨c, by simp, hy⟩
      · exact hold g (by simp [hg]) k hk

/-! ### Joining and splitting -/

theorem of_perm {gs' : List (List Nat × α)} (h : Groups R lo content gs) (hp : gs.Perm gs') :
    Groups R lo content gs' where
  perm := (hp.flatMap_right Prod.fst).symm.trans h.perm
  nonempty := fun g hg => h.nonempty g (hp.mem_iff.2 hg)
  value := fun g hg => h.value g (hp.mem_iff.2 hg)

theorem append {content' : List β} {hs : List (List Nat × α)} (h : Groups R lo content gs)
    (h' : Groups R (lo + content.length) content' hs) :
    Groups R lo (content ++ content') (gs ++ hs) where
  perm := by
    rw [List.flatMap_append, List.length_append, ← List.range'_append, Nat.one_mul]
    exact h.perm.append h'.perm
  nonempty := by
    intro g hg
    rcases List.mem_append.1 hg with hg | hg
    · exact h.nonempty g hg
    · exact h'.nonempty g hg
  value := by
    intro g hg k hk
    rcases List.mem_append.1 hg with hg | hg
    · have hb := h.bounds hg hk
      rcases h.value g hg k hk with ⟨c, hc, hr⟩
      exact ⟨c, by rw [List.getElem?_append_left (by omega), hc], hr⟩
    · have hb := h'.bounds hg hk
      rcases h'.value g hg k hk with ⟨c, hc, hr⟩
      refine ⟨c, ?_, hr⟩
      rw [List.getElem?_append_right (by omega), ← hc]
      congr 1
      omega

theorem map {R' : α → γ → Prop} {f : β → γ} (h : Groups R lo content gs)
    (hvalue : ∀ x, ∀ c ∈ content, R x c → R' x (f c)) : Groups R' lo (content.map f) gs where
  perm := by simpa using h.perm
  nonempty := h.nonempty
  value := by
    intro g hg k hk
    rcases h.value g hg k hk with ⟨c, hc, hr⟩
    exact ⟨f c, by simp [hc], hvalue _ c (List.mem_of_getElem? hc) hr⟩

/-- The same groups with other representatives. -/
theorem image {ι δ : Type _} {R' : δ → β → Prop} {xs : List ι} {f : ι → List Nat × α}
    {f' : ι → List Nat × δ} (h : Groups R lo content (xs.map f))
    (hfst : ∀ x ∈ xs, (f' x).1 = (f x).1)
    (hvalue : ∀ x ∈ xs, ∀ c ∈ content, R (f x).2 c → R' (f' x).2 c) :
    Groups R' lo content (xs.map f') where
  perm := by
    have hsame : (xs.map f').flatMap Prod.fst = (xs.map f).flatMap Prod.fst := by
      rw [List.flatMap_map, List.flatMap_map]
      exact List.flatMap_congr hfst
    rw [hsame]
    exact h.perm
  nonempty := by
    intro g hg
    rcases List.mem_map.1 hg with ⟨x, hx, rfl⟩
    rw [hfst x hx]
    exact h.nonempty _ (List.mem_map_of_mem hx)
  value := by
    intro g hg k hk
    rcases List.mem_map.1 hg with ⟨x, hx, rfl⟩
    rw [hfst x hx] at hk
    rcases h.value _ (List.mem_map_of_mem hx) k hk with ⟨c, hc, hr⟩
    exact ⟨c, hc, hvalue x hx c (List.mem_of_getElem? hc) hr⟩

/-- Without groups there are no values. -/
theorem eq_nil (h : Groups R lo content []) : content = [] := by
  have hlen := h.perm.length_eq
  simpa [eq_comm] using hlen

theorem singleton {n : Nat} {x : α} {c : β} (hx : R x c) : Groups R n [c] [([n], x)] := by
  simpa using (nil : Groups R n [] []).snoc_new hx

/-- A group that may have lost its last member. -/
def keep (ns : List Nat) (x : α) : List (List Nat × α) :=
  if ns = [] then [] else [(ns, x)]

@[simp] theorem flatMap_keep (ns : List Nat) (x : α) :
    (keep ns x).flatMap Prod.fst = ns := by
  by_cases h : ns = [] <;> simp [keep, h]

theorem mem_keep {ns : List Nat} {x : α} {g : List Nat × α} (h : g ∈ keep ns x) :
    g = (ns, x) ∧ ns ≠ [] := by
  by_cases hns : ns = []
  · simp [keep, hns] at h
  · exact ⟨by simpa [keep, hns] using h, hns⟩

/-- Take the largest number away. -/
theorem split_last {c : β} {rest : List (List Nat × α)} {ns : List Nat} {y : α}
    (h : Groups R lo (content ++ [c]) ((ns ++ [lo + content.length], y) :: rest)) :
    Groups R lo content (keep ns y ++ rest) ∧ R y c := by
  have hperm := h.perm
  simp only [List.flatMap_cons, List.length_append, List.length_cons, List.length_nil,
    List.range'_concat, Nat.one_mul] at hperm
  have hswap : (ns ++ [lo + content.length] ++ rest.flatMap Prod.fst).Perm
      ((ns ++ rest.flatMap Prod.fst) ++ [lo + content.length]) := by
    rw [List.append_assoc, List.append_assoc]
    exact List.perm_append_comm.append_left ns
  have hcut := (List.perm_append_right_iff _).1 (hswap.symm.trans hperm)
  have hbounds : ∀ k ∈ ns ++ rest.flatMap Prod.fst, lo ≤ k ∧ k < lo + content.length := fun k hk =>
    List.mem_range'_1.1 (hcut.mem_iff.1 hk)
  have hvalue : ∀ g ∈ (ns ++ [lo + content.length], y) :: rest, ∀ k ∈ g.1,
      k < lo + content.length → lo ≤ k → ∃ c, content[k - lo]? = some c ∧ R g.2 c := by
    intro g hg k hk hlt hlo
    rcases h.value g hg k hk with ⟨c', hc', hr⟩
    rw [List.getElem?_append_left (by omega)] at hc'
    exact ⟨c', hc', hr⟩
  constructor
  · constructor
    · rw [List.flatMap_append, flatMap_keep]
      exact hcut
    · intro g hg
      rcases List.mem_append.1 hg with hg | hg
      · rcases mem_keep hg with ⟨rfl, hne⟩
        exact hne
      · exact h.nonempty g (List.mem_cons_of_mem _ hg)
    · intro g hg k hk
      rcases List.mem_append.1 hg with hg | hg
      · rcases mem_keep hg with ⟨rfl, -⟩
        have hb := hbounds k (List.mem_append_left _ hk)
        exact hvalue (ns ++ [lo + content.length], y) (by simp) k (List.mem_append_left _ hk)
          hb.2 hb.1
      · have hb := hbounds k (List.mem_append_right _ (List.mem_flatMap.2 ⟨g, hg, hk⟩))
        exact hvalue g (List.mem_cons_of_mem _ hg) k hk hb.2 hb.1
  · rcases h.value (ns ++ [lo + content.length], y) (by simp) (lo + content.length) (by simp) with
      ⟨c', hc', hr⟩
    have hcc : c = c' := by simpa using hc'
    rwa [hcc]

/-- Take the smallest number away. -/
theorem split_first {c : β} {rest : List (List Nat × α)} {ms : List Nat} {y : α}
    (h : Groups R lo (c :: content) ((lo :: ms, y) :: rest)) :
    Groups R (lo + 1) content (keep ms y ++ rest) ∧ R y c := by
  have hperm := h.perm
  simp only [List.flatMap_cons, List.length_cons, List.range'_succ, List.cons_append] at hperm
  have hcut := (List.perm_cons lo).1 hperm
  have hbounds : ∀ k ∈ ms ++ rest.flatMap Prod.fst, lo + 1 ≤ k := fun k hk =>
    (List.mem_range'_1.1 (hcut.mem_iff.1 hk)).1
  have hvalue : ∀ g ∈ (lo :: ms, y) :: rest, ∀ k ∈ g.1, lo + 1 ≤ k →
      ∃ c, content[k - (lo + 1)]? = some c ∧ R g.2 c := by
    intro g hg k hk hlo
    rcases h.value g hg k hk with ⟨c', hc', hr⟩
    have hidx : k - lo = k - (lo + 1) + 1 := by omega
    rw [hidx, List.getElem?_cons_succ] at hc'
    exact ⟨c', hc', hr⟩
  constructor
  · constructor
    · rw [List.flatMap_append, flatMap_keep]
      exact hcut
    · intro g hg
      rcases List.mem_append.1 hg with hg | hg
      · rcases mem_keep hg with ⟨rfl, hne⟩
        exact hne
      · exact h.nonempty g (List.mem_cons_of_mem _ hg)
    · intro g hg k hk
      rcases List.mem_append.1 hg with hg | hg
      · rcases mem_keep hg with ⟨rfl, -⟩
        exact hvalue (lo :: ms, y) (by simp) k (List.mem_cons_of_mem _ hk)
          (hbounds k (List.mem_append_left _ hk))
      · exact hvalue g (List.mem_cons_of_mem _ hg) k hk
          (hbounds k (List.mem_append_right _ (List.mem_flatMap.2 ⟨g, hg, hk⟩)))
  · rcases h.value (lo :: ms, y) (by simp) lo (by simp) with ⟨c', hc', hr⟩
    have hcc : c = c' := by simpa using hc'
    rwa [hcc]

end Groups

/-! ## The order of the groups -/

/-- Each group has a member all of whose predecessors have been seen in earlier groups. -/
def FirstSeen (lo : Nat) : (Nat → Prop) → List (List Nat × α) → Prop
  | _, [] => True
  | seen, g :: gs =>
      (∃ n ∈ g.1, ∀ k, lo ≤ k → k < n → seen k) ∧ FirstSeen lo (fun k => seen k ∨ k ∈ g.1) gs

namespace FirstSeen

variable {lo : Nat} {seen seen' : Nat → Prop} {gs : List (List Nat × α)}

theorem mono (h : FirstSeen lo seen gs) (hseen : ∀ k, seen k → seen' k) :
    FirstSeen lo seen' gs := by
  induction gs generalizing seen seen' with
  | nil => trivial
  | cons g gs ih =>
      rcases h with ⟨⟨n, hn, hbefore⟩, hrest⟩
      refine ⟨⟨n, hn, fun k hlo hk => hseen k (hbefore k hlo hk)⟩, ih hrest ?_⟩
      rintro k (hk | hk)
      · exact Or.inl (hseen k hk)
      · exact Or.inr hk

/-- More numbers in front, all of them seen. -/
theorem of_le {lo' : Nat} (h : FirstSeen lo' seen gs) (hseen : ∀ k, lo ≤ k → k < lo' → seen k) :
    FirstSeen lo seen gs := by
  induction gs generalizing seen with
  | nil => trivial
  | cons g gs ih =>
      rcases h with ⟨⟨n, hn, hbefore⟩, hrest⟩
      refine ⟨⟨n, hn, ?_⟩, ih hrest fun k hlo hk => Or.inl (hseen k hlo hk)⟩
      intro k hlo hk
      by_cases hlo' : lo' ≤ k
      · exact hbefore k hlo' hk
      · exact hseen k hlo (by omega)

/-- Fewer numbers in front. -/
theorem tail {lo' : Nat} (h : FirstSeen lo seen gs) (hlo : lo ≤ lo')
    (hseen : ∀ k, lo' ≤ k → seen k → seen' k) : FirstSeen lo' seen' gs := by
  induction gs generalizing seen seen' with
  | nil => trivial
  | cons g gs ih =>
      rcases h with ⟨⟨n, hn, hbefore⟩, hrest⟩
      refine ⟨⟨n, hn, fun k hk hkn => hseen k hk (hbefore k (Nat.le_trans hlo hk) hkn)⟩,
        ih hrest ?_⟩
      rintro k hk (hs | hg)
      · exact Or.inl (hseen k hk hs)
      · exact Or.inr hg

/-- The order depends on the numbers only. -/
theorem of_fst_eq {hs : List (List Nat × β)} (h : FirstSeen lo seen gs)
    (heq : hs.map Prod.fst = gs.map Prod.fst) : FirstSeen lo seen hs := by
  induction hs generalizing gs seen with
  | nil => trivial
  | cons g' hs ih =>
      cases gs with
      | nil => simp at heq
      | cons g gs =>
          rcases List.cons.inj heq with ⟨hg, hgs⟩
          rcases h with ⟨hfirst, hrest⟩
          exact ⟨hg ▸ hfirst, ih (hg ▸ hrest) hgs⟩

theorem append {hs : List (List Nat × α)} :
    FirstSeen lo seen (gs ++ hs) ↔
      FirstSeen lo seen gs ∧ FirstSeen lo (fun k => seen k ∨ k ∈ gs.flatMap Prod.fst) hs := by
  induction gs generalizing seen with
  | nil => simp [FirstSeen]
  | cons g gs ih =>
      simp only [List.cons_append, FirstSeen, ih, List.flatMap_cons, List.mem_append, or_assoc,
        and_assoc]

theorem snoc_new (h : FirstSeen lo seen gs) {n : Nat} {x : α}
    (hn : ∀ k, lo ≤ k → k < n → seen k ∨ k ∈ gs.flatMap Prod.fst) :
    FirstSeen lo seen (gs ++ [([n], x)]) :=
  append.2 ⟨h, ⟨n, by simp, hn⟩, trivial⟩

theorem snoc_join {as bs : List (List Nat × α)} {ns ms : List Nat} {y : α}
    (h : FirstSeen lo seen (as ++ (ns, y) :: bs)) :
    FirstSeen lo seen (as ++ (ns ++ ms, y) :: bs) := by
  rcases append.1 h with ⟨has, ⟨n, hn, hbefore⟩, hbs⟩
  refine append.2 ⟨has, ⟨n, List.mem_append_left _ hn, hbefore⟩, hbs.mono ?_⟩
  rintro k (hk | hk)
  · exact Or.inl hk
  · exact Or.inr (List.mem_append_left _ hk)

/-- The first member of a group is the smallest number not yet seen, so the group's place follows
from the distances between its members. -/
theorem offset_eq {bits : List Nat} {o o' : Nat}
    (h : ∃ n ∈ bits.map (o + ·), ∀ k, lo ≤ k → k < n → seen k)
    (h' : ∃ n ∈ bits.map (o' + ·), ∀ k, lo ≤ k → k < n → seen k)
    (hnew : ∀ k ∈ bits.map (o + ·), lo ≤ k ∧ ¬ seen k)
    (hnew' : ∀ k ∈ bits.map (o' + ·), lo ≤ k ∧ ¬ seen k) : o = o' := by
  rcases h with ⟨n, hn, hbefore⟩
  rcases h' with ⟨n', hn', hbefore'⟩
  have hle : n ≤ n' := by
    by_contra hlt
    exact (hnew' n' hn').2 (hbefore n' (hnew' n' hn').1 (by omega))
  have hge : n' ≤ n := by
    by_contra hlt
    exact (hnew n hn).2 (hbefore' n (hnew n hn).1 (by omega))
  rcases List.mem_map.1 hn with ⟨b, hb, rfl⟩
  rcases List.mem_map.1 hn' with ⟨b', hb', rfl⟩
  -- neither group has a member in front of the common one
  have hb_le : ¬ o + b' < o + b := fun hlt =>
    (hnew _ (List.mem_map_of_mem hb')).2 (hbefore _ (hnew _ (List.mem_map_of_mem hb')).1 hlt)
  have hb'_le : ¬ o' + b < o' + b' := fun hlt =>
    (hnew' _ (List.mem_map_of_mem hb)).2 (hbefore' _ (hnew' _ (List.mem_map_of_mem hb)).1 hlt)
  omega

end FirstSeen

end Lib
end CamAlias
