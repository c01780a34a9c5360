import Ensemble.Proofs.Members
import Ensemble.Quorum.Hierarchy

/-!
# Groupings

A hierarchy is made of groups and weights exactly if they give every voter its share
(`Hierarchy.make_eq_ok_iff`), where the groups list no one twice (`Hierarchy.assignAll_eq_ok_iff`).
The groups and the weights of a hierarchy make it again (`Hierarchy.make_groups`).
-/

namespace Ensemble.Hierarchy

theorem eq_of_shares {h h' : Hierarchy} (hm : h.members = h'.members) (hs : h.shares = h'.shares)
    (hv : h.version = h'.version) : h = h' := by
  obtain ⟨m, s, w, n, v, hvoting, hkeys, htotals, hn⟩ := h
  obtain ⟨m', s', w', n', v', hvoting', hkeys', htotals', hn'⟩ := h'
  cases hm
  cases hs
  cases hv
  obtain rfl : w = w' := Except.ok.inj (htotals.symm.trans htotals')
  obtain rfl : n = n' := hn.trans hn'.symm
  rfl

/-! ### Groups -/

section Make

variable {members : Members} {groups : Table GroupId (List ServerId)}
  {weights : Table ServerId Weight} {version : Version}

/-- Who is listed, and in which group. -/
def listed (groups : Table GroupId (List ServerId)) : List (ServerId × GroupId) :=
  groups.toList.flatMap fun e => e.2.map fun id => (id, e.1)

theorem assign_eq_ok_iff {g : GroupId} {groupOf groupOf' : Table ServerId GroupId} {id : ServerId} :
    assign members g groupOf id = .ok groupOf' ↔
      members.voting.contains id ∧ groupOf'.toList.Perm ([(id, g)] ++ groupOf.toList) := by
  rw [List.singleton_append, Table.perm_cons_iff, assign]
  by_cases hv : members.voting.contains id
  · simp only [hv, Bool.not_true, Bool.false_eq_true, if_false, true_and]
    cases hg : groupOf.get? id with
    | some first =>
      constructor
      · intro h
        cases h
      · rintro ⟨hid, -⟩
        exact absurd (Table.mem_keys_iff.mpr ⟨first, hg⟩) hid
    | none =>
      constructor
      · intro h
        cases h
        refine ⟨fun hid => ?_, rfl⟩
        obtain ⟨g', hg'⟩ := Table.mem_keys_iff.mp hid
        rw [hg] at hg'
        cases hg'
      · rintro ⟨-, rfl⟩
        rfl
  · simp [hv]

/-- Groups are assigned exactly if none is empty, all who are listed vote, and no one is listed
twice. -/
theorem assignAll_eq_ok_iff {groupOf : Table ServerId GroupId} :
    assignAll members groups = .ok groupOf ↔
      (∀ e ∈ groups.toList, e.2 ≠ [] ∧ ∀ id ∈ e.2, members.voting.contains id) ∧
        groupOf.toList.Perm (listed groups) := by
  have step : ∀ (t : Table ServerId GroupId) (e : GroupId × List ServerId) t',
      (if e.2 = [] then throw (.invalidValue (groupKey e.1) "" .emptyGroup)
        else e.2.foldlM (assign members e.1) t : Except ConfigError _) = .ok t' ↔
      (e.2 ≠ [] ∧ ∀ id ∈ e.2, members.voting.contains id) ∧
        t'.toList.Perm ((e.2.map fun id => (id, e.1)) ++ t.toList) := by
    intro t e t'
    by_cases he : e.2 = []
    · simp [he]
    · have hassign : ∀ groupOf id groupOf', assign members e.1 groupOf id = .ok groupOf' ↔
          members.voting.contains id ∧ groupOf'.toList.Perm ([(id, e.1)] ++ groupOf.toList) :=
        fun _ _ _ => assign_eq_ok_iff
      rw [if_neg he, Table.foldlM_eq_ok_iff_perm hassign, ← List.map_eq_flatMap]
      simp [he]
  rw [assignAll, Table.foldlM_eq_ok_iff_perm step]
  simp [listed, Table.empty]

theorem checkWeights_eq_ok_iff :
    checkWeights members weights = .ok () ↔ ∀ id ∈ weights.keys, members.voting.contains id := by
  unfold checkWeights
  induction weights.keys with
  | nil => exact ⟨fun _ => by simp, fun _ => rfl⟩
  | cons id ids ih =>
    change ((if members.voting.contains id then pure ()
      else throw (ConfigError.unknownGroupMember (weightKey id) id)) >>= fun _ => ids.forM _) = _ ↔ _
    by_cases hv : members.voting.contains id
    · rw [if_pos hv, pure_bind, ih]
      simp [hv]
    · rw [if_neg hv, Except.bind_eq_ok_iff]
      simp [hv]

/-! ### Making a hierarchy -/

theorem share_eq_ok_iff {groupOf : Table ServerId GroupId} {id : ServerId} {s : Share} :
    (match groupOf.get? id with
      | some g => pure (⟨g, (weights.get? id).getD 1⟩ : Share)
      | none => throw (ConfigError.ungroupedParticipant id) : Except ConfigError Share) = .ok s ↔
      groupOf.get? id = some s.group ∧ s.weight = (weights.get? id).getD 1 := by
  cases hg : groupOf.get? id with
  | none => simp
  | some g =>
    constructor
    · intro h
      cases h
      exact ⟨rfl, rfl⟩
    · rintro ⟨hgroup, hweight⟩
      obtain rfl := Option.some.inj hgroup
      rw [← hweight]
      rfl

/-- **A hierarchy is made** of groups and weights exactly if these can be assigned, the weights are
those of voters, and each voter has the share that they give it. -/
theorem make_eq_ok_iff {h : Hierarchy} : make members groups weights version = .ok h ↔
    h.members = members ∧ h.version = version ∧
      ∃ groupOf, assignAll members groups = .ok groupOf ∧ checkWeights members weights = .ok () ∧
        ∀ e ∈ h.shares.toList,
          groupOf.get? e.1 = some e.2.group ∧ e.2.weight = (weights.get? e.1).getD 1 := by
  unfold make
  constructor
  · intro hmake
    split at hmake
    · obtain ⟨groupOf, hassign, hmake⟩ := Except.bind_eq_ok_iff.mp hmake
      obtain ⟨⟨⟩, hcheck, hmake⟩ := Except.bind_eq_ok_iff.mp hmake
      obtain ⟨⟨shares, hkeys⟩, hmap, hmake⟩ := Except.bind_eq_ok_iff.mp hmake
      simp only at hmake
      split at hmake
      · obtain rfl := Except.ok.inj hmake
        refine ⟨rfl, rfl, groupOf, hassign, hcheck, fun e he => ?_⟩
        have hvoter : e.1 ∈ members.voting.keys := hkeys ▸ Table.mem_keys_of_mem he
        obtain ⟨s, hs⟩ := Table.mem_keys_iff.mp hvoter
        rw [Table.get?_eq_some_iff] at hs
        exact share_eq_ok_iff.mp (Table.mapM_eq_ok_iff.mp hmap e.1 s e.2 hs he)
      · cases hmake
    · cases hmake
  · rintro ⟨rfl, rfl, groupOf, hassign, hcheck, hshares⟩
    have hmap : h.members.voting.mapM (fun id _ => match groupOf.get? id with
        | some g => pure (⟨g, (weights.get? id).getD 1⟩ : Share)
        | none => throw (ConfigError.ungroupedParticipant id)) =
          .ok ⟨h.shares, h.keys_shares⟩ :=
      Table.mapM_eq_ok_iff.mpr fun id _ s _ hs => share_eq_ok_iff.mpr (hshares (id, s) hs)
    rw [dif_pos h.voting_ne_empty, hassign, hcheck]
    refine Except.bind_eq_ok_iff.mpr ⟨groupOf, rfl, Except.bind_eq_ok_iff.mpr ⟨(), rfl, ?_⟩⟩
    refine Except.bind_eq_ok_iff.mpr ⟨_, hmap, ?_⟩
    simp only
    split
    · exact congrArg Except.ok (eq_of_shares rfl rfl rfl)
    · rename_i e htotals
      rw [h.groupTotals_shares] at htotals
      cases htotals

end Make

/-! ### Making a hierarchy again -/

/-- The voters of a group, by id. -/
def idsIn (g : GroupId) (shares : List (ServerId × Share)) : List ServerId :=
  (shares.filter fun e => e.2.group = g).map Prod.fst

theorem mem_idsIn {g : GroupId} {shares : List (ServerId × Share)} {id : ServerId} :
    id ∈ idsIn g shares ↔ ∃ s, (id, s) ∈ shares ∧ s.group = g := by
  simp [idsIn]

theorem get?_foldl_groups (shares : List (ServerId × Share)) (t : Table GroupId (List ServerId))
    (g : GroupId) :
    (shares.foldl (fun t e =>
        t.insert e.2.group ((t.get? e.2.group).getD [] ++ [e.1])) t).get? g =
      if idsIn g shares = [] then t.get? g
      else some ((t.get? g).getD [] ++ idsIn g shares) := by
  induction shares generalizing t with
  | nil => simp [idsIn]
  | cons e shares ih =>
    rw [List.foldl_cons, ih, Table.get?_insert]
    by_cases he : e.2.group = g
    · have hcons : idsIn g (e :: shares) = e.1 :: idsIn g shares := by simp [idsIn, he]
      rw [hcons, if_pos he, he]
      by_cases hnil : idsIn g shares = []
      · simp [hnil]
      · simp [hnil]
    · have hcons : idsIn g (e :: shares) = idsIn g shares := by simp [idsIn, he]
      rw [hcons, if_neg he]

variable (h : Hierarchy)

theorem get?_groups (g : GroupId) : h.groups.get? g =
    if idsIn g h.shares.toList = [] then none else some (idsIn g h.shares.toList) := by
  rw [groups, get?_foldl_groups]
  simp

theorem mem_groups_iff {h : Hierarchy} {g : GroupId} {ids : List ServerId} :
    (g, ids) ∈ h.groups.toList ↔ ids ≠ [] ∧ ids = idsIn g h.shares.toList := by
  rw [← Table.get?_eq_some_iff, get?_groups]
  by_cases hnil : idsIn g h.shares.toList = []
  · simp [hnil]
  · simp only [hnil, if_false, Option.some.injEq]
    constructor
    · rintro rfl; exact ⟨hnil, rfl⟩
    · rintro ⟨-, rfl⟩; rfl

/-- The group of each voter. -/
def groupOf : Table ServerId GroupId := h.shares.mapValues Share.group

/-- The weight of each voter. -/
def weights : Table ServerId Weight := h.shares.mapValues Share.weight

theorem mem_listed_groups {p : ServerId × GroupId} :
    p ∈ listed h.groups ↔ p ∈ h.groupOf.toList := by
  obtain ⟨id, g⟩ := p
  simp only [listed, List.mem_flatMap, List.mem_map, groupOf, Table.mapValues, Prod.mk.injEq]
  constructor
  · rintro ⟨⟨g', ids⟩, he, id', hid, rfl, rfl⟩
    obtain ⟨-, rfl⟩ := mem_groups_iff.mp he
    obtain ⟨s, hs, hg⟩ := mem_idsIn.mp hid
    exact ⟨(id', s), hs, rfl, hg⟩
  · rintro ⟨⟨id', s⟩, hs, rfl, rfl⟩
    have hid : id' ∈ idsIn s.group h.shares.toList := mem_idsIn.mpr ⟨s, hs, rfl⟩
    exact ⟨_, mem_groups_iff.mpr ⟨List.ne_nil_of_mem hid, rfl⟩, id', hid, rfl, rfl⟩

theorem nodup_listed_groups : (listed h.groups).Nodup := by
  unfold listed
  rw [List.nodup_flatMap]
  constructor
  · rintro ⟨g, ids⟩ he
    obtain ⟨-, rfl⟩ := mem_groups_iff.mp he
    have hids : (idsIn g h.shares.toList).Nodup :=
      h.shares.nodup_keys.sublist (List.filter_sublist.map _)
    exact hids.map fun a b hab => congrArg Prod.fst hab
  · have hkeys := h.groups.nodup_keys
    rw [Table.keys, List.Nodup, List.pairwise_map] at hkeys
    refine hkeys.imp fun {e e'} hne => ?_
    intro p hp hp'
    obtain ⟨id, -, rfl⟩ := List.mem_map.mp hp
    obtain ⟨id', -, hp'⟩ := List.mem_map.mp hp'
    exact hne (congrArg Prod.snd hp').symm

theorem contains_of_mem_shares {e : ServerId × Share} (he : e ∈ h.shares.toList) :
    h.members.voting.contains e.1 := by
  have hid := Table.mem_keys_of_mem he
  rw [h.keys_shares] at hid
  exact Table.contains_iff.mpr hid

/-- The groups and the weights of a hierarchy make it again. -/
theorem make_groups : make h.members h.groups h.weights h.version = .ok h := by
  have hassign : assignAll h.members h.groups = .ok h.groupOf := by
    refine assignAll_eq_ok_iff.mpr ⟨?_, ?_⟩
    · rintro ⟨g, ids⟩ he
      obtain ⟨hne, rfl⟩ := mem_groups_iff.mp he
      refine ⟨hne, fun id hid => ?_⟩
      obtain ⟨s, hs, -⟩ := mem_idsIn.mp hid
      exact h.contains_of_mem_shares hs
    · refine (List.perm_ext_iff_of_nodup h.groupOf.nodup_toList h.nodup_listed_groups).mpr ?_
      exact fun p => h.mem_listed_groups.symm
  refine make_eq_ok_iff.mpr ⟨rfl, rfl, h.groupOf, hassign, checkWeights_eq_ok_iff.mpr ?_, ?_⟩
  · intro id hid
    obtain ⟨e, he, rfl⟩ := List.mem_map.mp hid
    obtain ⟨e', he', rfl⟩ := List.mem_map.mp he
    exact h.contains_of_mem_shares he'
  · rintro ⟨id, s⟩ he
    have hget := Table.get?_eq_some_iff.mpr he
    simp [groupOf, weights, Table.get?_mapValues, hget]

end Ensemble.Hierarchy
