import CamAlias.Lib.Grouping
import CamAlias.Tracer.BitSet

/-!
# ShareTable — groups of equal behaviour with their sharers

Three places of the tracer keep one copy of equal behaviour and mark who shares it: the iterations
of a running loop (`IterationInfo`), the invocations of a loop or a call (`InvocationInfo`) and the
call traces of the loop invocations (`LoopInvocationCallInfo`).  All three look for a match among
the 32 groups used most recently, mark a sharer and move the group to the front, or append a group.

`share` is that operation with the comparison as a parameter, and `share_eq_some` says what it can
do; `Groups` and `FirstSeen` are kept by it.
-/

namespace CamAlias

open Lib

variable {α β : Type _}

/-- The common part of `IterationInfo`, `InvocationInfo` and `LoopInvocationCallInfo`. -/
structure SharedInfo (α : Type _) where
  payload : α
  sharersOffset : Nat
  sharers : XanBitSet
  partiallyDumped : Bool

namespace SharedInfo

/-- The constructors: the bit set has 64 bits, the first of them set. -/
def new (payload : α) (num : Nat) (partiallyDumped : Bool) : SharedInfo α where
  payload
  sharersOffset := num
  sharers := XanBitSet.new.setBit 0
  partiallyDumped

/-- `markSharer`, with its `assert(num >= sharersOffset)`. -/
def markSharer (info : SharedInfo α) (num : Nat) : Option (SharedInfo α) :=
  if info.sharersOffset ≤ num then
    some { info with sharers := info.sharers.setBit (num - info.sharersOffset) }
  else none

/-- The numbers of the sharers. -/
def members (info : SharedInfo α) : List Nat :=
  info.sharers.members.map (info.sharersOffset + ·)

/-- The members and what they share. -/
def group (info : SharedInfo α) : List Nat × α :=
  (info.members, info.payload)

@[simp] theorem group_fst (info : SharedInfo α) : info.group.1 = info.members := rfl

@[simp] theorem group_snd (info : SharedInfo α) : info.group.2 = info.payload := rfl

@[simp] theorem members_new (payload : α) (num : Nat) (partiallyDumped : Bool) :
    (new payload num partiallyDumped).members = [num] := by
  have hbit : (XanBitSet.new.setBit 0).members = [0] := by decide
  simp only [members, new, hbit, List.map_cons, Nat.add_zero, List.map_nil]

@[simp] theorem group_new (payload : α) (num : Nat) (partiallyDumped : Bool) :
    (new payload num partiallyDumped).group = ([num], payload) := by
  have hmembers := members_new payload num partiallyDumped
  simp only [group, hmembers]
  rfl

theorem mem_members {info : SharedInfo α} {n : Nat} :
    n ∈ info.members ↔ info.sharersOffset ≤ n ∧
      info.sharers.bits.testBit (n - info.sharersOffset) = true := by
  simp only [members, List.mem_map, XanBitSet.mem_members]
  constructor
  · rintro ⟨k, hk, rfl⟩
    exact ⟨Nat.le_add_right _ _, by simpa using hk⟩
  · rintro ⟨hle, hbit⟩
    exact ⟨n - info.sharersOffset, hbit, by omega⟩

/-- A sharer above all others joins the members at their end. -/
theorem markSharer_eq_some {info : SharedInfo α} {num : Nat} (hne : info.members ≠ [])
    (hlt : ∀ k ∈ info.members, k < num) :
    ∃ info', info.markSharer num = some info' ∧ info'.group = (info.members ++ [num], info.payload)
      ∧ info'.partiallyDumped = info.partiallyDumped := by
  rcases List.exists_mem_of_ne_nil _ hne with ⟨m, hm⟩
  have hoffset : info.sharersOffset ≤ num := by
    have hle := (mem_members.1 hm).1
    have := hlt m hm
    omega
  refine ⟨_, if_pos hoffset, ?_, rfl⟩
  have hbits : ∀ k ∈ info.sharers.members, k < num - info.sharersOffset := by
    intro k hk
    have := hlt (info.sharersOffset + k) (List.mem_map.2 ⟨k, hk, rfl⟩)
    omega
  simp only [group, members, XanBitSet.members_setBit hbits, List.map_append, List.map_cons,
    List.map_nil]
  rw [Nat.add_sub_cancel' hoffset]

/-- Infos with the same bits, listed in the order of their first members, have the same members. -/
theorem map_members_eq {lo : Nat} {infos infos' : List (SharedInfo α)}
    (hsame : List.Forall₂ (fun i i' : SharedInfo α => i.sharers.members = i'.sharers.members) infos
      infos') :
    ∀ {seen : Nat → Prop}, FirstSeen lo seen (infos.map group) →
      FirstSeen lo seen (infos'.map group) →
      (infos.flatMap members).Nodup → (infos'.flatMap members).Nodup →
      (∀ k ∈ infos.flatMap members, lo ≤ k ∧ ¬ seen k) →
      (∀ k ∈ infos'.flatMap members, lo ≤ k ∧ ¬ seen k) →
      infos.map members = infos'.map members := by
  induction hsame with
  | nil =>
      intro seen _ _ _ _ _ _
      rfl
  | @cons i i' infos infos' hbits hrest ih =>
      intro seen h h' hnodup hnodup' hnew hnew'
      rcases h with ⟨hfirst, hseen⟩
      rcases h' with ⟨hfirst', hseen'⟩
      simp only [List.flatMap_cons] at hnodup hnodup' hnew hnew'
      have hoffset : i.sharersOffset = i'.sharersOffset := by
        simp only [group_fst, members] at hfirst hfirst'
        rw [← hbits] at hfirst'
        refine FirstSeen.offset_eq hfirst hfirst' ?_ ?_
        · exact fun k hk => hnew k (List.mem_append_left _ hk)
        · exact fun k hk => hnew' k (List.mem_append_left _ (by rwa [members, ← hbits]))
      have hmembers : i.members = i'.members := by
        rw [members, members, hbits, hoffset]
      rcases List.nodup_append.1 hnodup with ⟨-, hnodup_rest, hdisjoint⟩
      rcases List.nodup_append.1 hnodup' with ⟨-, hnodup_rest', hdisjoint'⟩
      simp only [group_fst, ← hmembers] at hseen'
      have htail := ih hseen hseen' hnodup_rest hnodup_rest'
        (fun k hk => ⟨(hnew k (List.mem_append_right _ hk)).1, by
          rintro (hs | hm)
          · exact (hnew k (List.mem_append_right _ hk)).2 hs
          · exact hdisjoint k hm k hk rfl⟩)
        (fun k hk => ⟨(hnew' k (List.mem_append_right _ hk)).1, by
          rintro (hs | hm)
          · exact (hnew' k (List.mem_append_right _ hk)).2 hs
          · exact hdisjoint' k (hmembers ▸ hm) k hk rfl⟩)
      rw [List.map_cons, List.map_cons, hmembers, htail]

end SharedInfo

/-- A list of groups and the indices of those used most recently, youngest first. -/
structure ShareTable (α : Type _) where
  infos : List (SharedInfo α)
  recent : List Nat

namespace ShareTable

def empty : ShareTable α where
  infos := []
  recent := []

/-- `MAX_RECENT_ITER_MATCHES`, `numLatestInvocationGroups` and `MAX_RECENT_LOOP_INV_CALL_INFOS`. -/
def maxRecent : Nat := 32

/-- The first recent group that may be matched and is matched. -/
def findRecent (isMatch : α → α → Bool) (t : ShareTable α) (payload : α) : Option Nat :=
  t.recent.find? fun i =>
    match t.infos[i]? with
    | some info => !info.partiallyDumped && isMatch payload info.payload
    | none => false

/-- Record `payload` under the number `num`, and whether a match was found.  `none` where the
`assert` of `markSharer` fails. -/
def share (isMatch : α → α → Bool) (t : ShareTable α) (payload : α) (num : Nat)
    (attemptMatch : Bool) : Option (ShareTable α × Bool) :=
  match if attemptMatch then t.findRecent isMatch payload else none with
  | some i =>
      match t.infos[i]? with
      | some info =>
          (info.markSharer num).map fun info' =>
            ({ infos := t.infos.set i info', recent := i :: t.recent.erase i }, true)
      | none => none
  | none =>
      -- a new entry, in front of the cache of recent ones
      some ({
        infos := t.infos ++ [SharedInfo.new payload num (!attemptMatch)]
        recent := (t.infos.length :: t.recent).take maxRecent }, false)

def groups (t : ShareTable α) : List (List Nat × α) :=
  t.infos.map SharedInfo.group

@[simp] theorem groups_empty : (empty : ShareTable α).groups = [] := rfl

variable {isMatch : α → α → Bool} {t t' : ShareTable α} {payload : α} {num : Nat}
  {attemptMatch found : Bool}

theorem findRecent_eq_some {i : Nat} (h : t.findRecent isMatch payload = some i) :
    ∃ as info bs, t.infos = as ++ info :: bs ∧ as.length = i ∧ info.partiallyDumped = false ∧
      isMatch payload info.payload = true := by
  have hsome := List.find?_some h
  cases hget : t.infos[i]? with
  | none => simp [hget] at hsome
  | some info =>
      rcases List.getElem?_eq_some_iff.1 hget with ⟨hlt, hinfo⟩
      simp only [hget, Bool.and_eq_true, Bool.not_eq_true'] at hsome
      refine ⟨t.infos.take i, info, t.infos.drop (i + 1), ?_, ?_, hsome.1, hsome.2⟩
      · rw [← hinfo, ← List.drop_eq_getElem_cons hlt, List.take_append_drop]
      · rw [List.length_take]
        omega

/-- All that `share` can do: append a group, or mark a sharer of one that matches. -/
theorem share_eq_some (h : t.share isMatch payload num attemptMatch = some (t', found)) :
    (found = false ∧ t'.infos = t.infos ++ [SharedInfo.new payload num (!attemptMatch)]) ∨
    (found = true ∧ attemptMatch = true ∧ ∃ as info info' bs,
      t.infos = as ++ info :: bs ∧ info.partiallyDumped = false ∧
      isMatch payload info.payload = true ∧ info.markSharer num = some info' ∧
      t'.infos = as ++ info' :: bs) := by
  simp only [share] at h
  split at h
  · rename_i i hi
    cases attemptMatch with
    | false => simp at hi
    | true =>
        rcases findRecent_eq_some (by simpa using hi) with ⟨as, info, bs, hinfos, rfl, hp, hm⟩
        have hget : t.infos[as.length]? = some info := by simp [hinfos]
        simp only [hget, Option.map_eq_some_iff, Prod.mk.injEq] at h
        rcases h with ⟨info', hmark, rfl, rfl⟩
        exact Or.inr ⟨rfl, rfl, as, info, info', bs, hinfos, hp, hm, hmark, by simp [hinfos]⟩
  · simp only [Option.some.injEq, Prod.mk.injEq] at h
    rcases h with ⟨rfl, rfl⟩
    exact Or.inl ⟨rfl, rfl⟩

/-- Without an attempt to match, a group is appended. -/
theorem share_false (t : ShareTable α) (payload : α) (num : Nat) :
    ∃ t', t.share isMatch payload num false = some (t', false) ∧
      t'.infos = t.infos ++ [SharedInfo.new payload num true] :=
  ⟨_, rfl, rfl⟩

/-- The `assert` of `markSharer` holds when the number lies above all members. -/
theorem share_isSome (hmem : ∀ g ∈ t.groups, g.1 ≠ [] ∧ ∀ k ∈ g.1, k < num) :
    ∃ t' found, t.share isMatch payload num attemptMatch = some (t', found) := by
  cases hfind : (if attemptMatch then t.findRecent isMatch payload else none) with
  | none =>
      simp only [share, hfind]
      exact ⟨_, _, rfl⟩
  | some i =>
      have hrecent : t.findRecent isMatch payload = some i := by
        cases attemptMatch with
        | true => simpa using hfind
        | false => simp at hfind
      rcases findRecent_eq_some hrecent with ⟨as, info, bs, hinfos, rfl, -, -⟩
      have hinfo := hmem info.group (List.mem_map_of_mem (by simp [hinfos]))
      rcases SharedInfo.markSharer_eq_some hinfo.1 hinfo.2 with ⟨info', hmark, -, -⟩
      have hget : t.infos[as.length]? = some info := by simp [hinfos]
      simp only [share, hfind, hget, hmark, Option.map_some]
      exact ⟨_, _, rfl⟩

/-- The next value is recorded: the groups split one number more, in the order of first members. -/
theorem share_groups {R : α → β → Prop} {lo : Nat} {content : List β}
    (hgroups : Groups R lo content t.groups) {c : β} (hpayload : R payload c)
    (hmatch : ∀ info ∈ t.infos, info.partiallyDumped = false →
      isMatch payload info.payload = true → R info.payload c) (attemptMatch : Bool) :
    ∃ t' found, t.share isMatch payload (lo + content.length) attemptMatch = some (t', found) ∧
      Groups R lo (content ++ [c]) t'.groups ∧
      ∀ seen, FirstSeen lo seen t.groups → FirstSeen lo seen t'.groups := by
  have hmem : ∀ g ∈ t.groups, g.1 ≠ [] ∧ ∀ k ∈ g.1, k < lo + content.length := fun g hg =>
    ⟨hgroups.nonempty g hg, fun k hk => (hgroups.bounds hg hk).2⟩
  rcases share_isSome hmem
    with ⟨t', found, hshare⟩
  refine ⟨t', found, hshare, ?_⟩
  rcases share_eq_some hshare with
    ⟨-, hinfos⟩ | ⟨-, -, as, info, info', bs, hinfos, hp, hm, hmark, hinfos'⟩
  · have hg : t'.groups = t.groups ++ [([lo + content.length], payload)] := by
      simp [groups, hinfos]
    rw [hg]
    refine ⟨hgroups.snoc_new hpayload, fun seen hseen => hseen.snoc_new ?_⟩
    intro k hlo hk
    rcases hgroups.exists_group hlo hk with ⟨g, hgm, hkg⟩
    exact Or.inr (List.mem_flatMap.2 ⟨g, hgm, hkg⟩)
  · have hg : t.groups = as.map SharedInfo.group
        ++ (info.members, info.payload) :: bs.map SharedInfo.group := by
      simp [groups, hinfos, SharedInfo.group]
    have hinfo := hmem (info.members, info.payload) (by simp [hg])
    rcases SharedInfo.markSharer_eq_some hinfo.1 hinfo.2 with ⟨marked, hmarked, hgroup, -⟩
    have hsame : info' = marked := Option.some.inj (hmark.symm.trans hmarked)
    have hg' : t'.groups = as.map SharedInfo.group
        ++ (info.members ++ [lo + content.length], info.payload) :: bs.map SharedInfo.group := by
      simp [groups, hinfos', hsame, hgroup]
    rw [hg] at hgroups
    rw [hg, hg']
    have hcontent := hmatch info (by simp [hinfos]) hp hm
    exact ⟨hgroups.snoc_join hcontent, fun seen hseen => hseen.snoc_join⟩

end ShareTable
end CamAlias
