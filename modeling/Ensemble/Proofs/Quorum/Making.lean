import Ensemble.Proofs.Quorum.Grouping
import Ensemble.Proofs.Quorum.Weight

/-!
# What hierarchies are made of

A hierarchy is made of servers, groups and weights exactly if the groups hold every voter once, the
weights are those of voters, and each group's weights add up to a word (`Hierarchy.IsGrouping`). The
checks are spread over the loops that make it; what they come to is `Hierarchy.exists_make_iff`.

The shares of the voters are then what the groups and the weights give (`Hierarchy.AreShares`), and
all that a hierarchy answers follows from its shares: weights, groups, totals and the number of
groups that weigh anything are those of what it was made of (`Hierarchy.IsMadeOf`).

Main statement: `Hierarchy.exists_ofServers_iff_and_isMadeOf`.
-/

namespace Ensemble.Hierarchy

/-! ### Groupings -/

/-- The weight of a voter: 1, unless it is given another. -/
def weightOf (weights : Table ServerId Weight) (id : ServerId) : Weight := (weights.get? id).getD 1

/-- What voters weigh together, without a bound. -/
def totalOf (weights : Table ServerId Weight) (ids : List ServerId) : Nat :=
  (ids.map fun id => (weightOf weights id).toNat).sum

@[simp] theorem totalOf_nil (weights : Table ServerId Weight) : totalOf weights [] = 0 := rfl

/-- Groups that hold every voter once, and weights of voters that add up to a word in each group. -/
structure IsGrouping (voters : List ServerId) (groups : Table GroupId (List ServerId))
    (weights : Table ServerId Weight) : Prop where
  voters_ne_nil : voters ≠ []
  group_ne_nil : ∀ ids ∈ groups.values, ids ≠ []
  listed_subset : groups.values.flatten ⊆ voters
  /-- No one is listed twice, in one group or in two. -/
  nodup : groups.values.flatten.Nodup
  subset_listed : voters ⊆ groups.values.flatten
  weights_subset : weights.keys ⊆ voters
  totalOf_lt : ∀ ids ∈ groups.values, totalOf weights ids < UInt64.size

section Make

variable {members : Members} {groups : Table GroupId (List ServerId)}
  {weights : Table ServerId Weight} {version : Version} {shares : Table ServerId Share}

/-- The order of the voters does not matter. -/
theorem IsGrouping.of_perm {voters voters' : List ServerId} (hperm : voters.Perm voters')
    (hg : IsGrouping voters groups weights) : IsGrouping voters' groups weights where
  voters_ne_nil hnil := hg.voters_ne_nil (hperm.trans (.of_eq hnil)).eq_nil
  group_ne_nil := hg.group_ne_nil
  listed_subset := List.Subset.trans hg.listed_subset hperm.subset
  nodup := hg.nodup
  subset_listed := List.Subset.trans hperm.symm.subset hg.subset_listed
  weights_subset := List.Subset.trans hg.weights_subset hperm.subset
  totalOf_lt := hg.totalOf_lt

theorem mem_flatten_iff {id : ServerId} :
    id ∈ groups.values.flatten ↔ ∃ g ids, groups.get? g = some ids ∧ id ∈ ids := by
  simp only [List.mem_flatten, Table.mem_values_iff]
  constructor
  · rintro ⟨ids, ⟨g, hg⟩, hid⟩
    exact ⟨g, ids, hg, hid⟩
  · rintro ⟨g, ids, hg, hid⟩
    exact ⟨ids, ⟨g, hg⟩, hid⟩

theorem mem_listed_iff {id : ServerId} {g : GroupId} :
    (id, g) ∈ listed groups ↔ ∃ ids, groups.get? g = some ids ∧ id ∈ ids := by
  simp [listed, Table.get?_eq_some_iff]

theorem map_fst_listed : (listed groups).map Prod.fst = groups.values.flatten := by
  simp [listed, Table.values, List.flatMap_def, Function.comp_def]

/-! ### Shares -/

/-- Groups that list no one twice give these shares, with these weights. -/
structure AreShares (groups : Table GroupId (List ServerId)) (weights : Table ServerId Weight)
    (shares : Table ServerId Share) : Prop where
  nodup : groups.values.flatten.Nodup
  get?_iff : ∀ id s, shares.get? id = some s ↔
    (∃ ids, groups.get? s.group = some ids ∧ id ∈ ids) ∧ s.weight = weightOf weights id

theorem areShares_of_assignAll {groupOf : Table ServerId GroupId}
    (hassign : assignAll members groups = .ok groupOf) (hkeys : shares.keys = members.voterIds)
    (hshares : ∀ e ∈ shares.toList,
      groupOf.get? e.1 = some e.2.group ∧ e.2.weight = weightOf weights e.1) :
    AreShares groups weights shares := by
  obtain ⟨hvoters, hperm⟩ := assignAll_eq_ok_iff.mp hassign
  have hnodup : groups.values.flatten.Nodup := by
    rw [← map_fst_listed]
    exact (hperm.map Prod.fst).nodup_iff.mp groupOf.nodup_keys
  have hgroupOf : ∀ id g, groupOf.get? id = some g ↔
      ∃ ids, groups.get? g = some ids ∧ id ∈ ids := by
    intro id g
    rw [Table.get?_eq_some_iff, hperm.mem_iff, mem_listed_iff]
  refine ⟨hnodup, fun id s => ⟨fun hs => ?_, ?_⟩⟩
  · obtain ⟨hgroup, hweight⟩ := hshares _ (Table.get?_eq_some_iff.mp hs)
    exact ⟨(hgroupOf id s.group).mp hgroup, hweight⟩
  · rintro ⟨⟨ids, hids, hid⟩, hweight⟩
    have hvoter : id ∈ shares.keys := by
      rw [hkeys]
      exact Table.contains_iff.mp ((hvoters _ (Table.get?_eq_some_iff.mp hids)).2 id hid)
    obtain ⟨s', hs'⟩ := Table.mem_keys_iff.mp hvoter
    obtain ⟨hgroup', hweight'⟩ := hshares _ (Table.get?_eq_some_iff.mp hs')
    rw [(hgroupOf id s.group).mpr ⟨ids, hids, hid⟩] at hgroup'
    obtain ⟨g, w⟩ := s
    obtain ⟨g', w'⟩ := s'
    obtain rfl : g = g' := Option.some.inj hgroup'
    obtain rfl : w = w' := hweight.trans hweight'.symm
    exact hs'

section Given

variable (hshares : AreShares groups weights shares)
include hshares

theorem AreShares.mem_idsIn_iff {g : GroupId} {id : ServerId} :
    id ∈ idsIn g shares.toList ↔ ∃ ids, groups.get? g = some ids ∧ id ∈ ids := by
  simp only [mem_idsIn, ← Table.get?_eq_some_iff]
  constructor
  · rintro ⟨s, hs, rfl⟩
    exact ((hshares.get?_iff id s).mp hs).1
  · intro hids
    exact ⟨⟨g, weightOf weights id⟩, (hshares.get?_iff id _).mpr ⟨hids, rfl⟩, rfl⟩

theorem AreShares.idsIn_eq_nil {g : GroupId} (hg : groups.get? g = none) :
    idsIn g shares.toList = [] := by
  refine List.eq_nil_iff_forall_not_mem.mpr fun id hid => ?_
  obtain ⟨ids, hids, -⟩ := hshares.mem_idsIn_iff.mp hid
  rw [hg] at hids
  cases hids

variable {g : GroupId} {ids : List ServerId}

theorem AreShares.perm_idsIn (hg : groups.get? g = some ids) :
    (idsIn g shares.toList).Perm ids := by
  have hids : ids.Nodup :=
    (List.nodup_flatten.mp hshares.nodup).1 ids (Table.mem_values_iff.mpr ⟨g, hg⟩)
  have hidsIn : (idsIn g shares.toList).Nodup :=
    shares.nodup_keys.sublist (List.filter_sublist.map _)
  refine (List.perm_ext_iff_of_nodup hidsIn hids).mpr fun id => ?_
  rw [hshares.mem_idsIn_iff, hg]
  simp

/-- The shares stand in the order of the ids, and given ids can be sorted in one way only. -/
theorem AreShares.idsIn_eq_mergeSort (hg : groups.get? g = some ids) :
    idsIn g shares.toList = ids.mergeSort (· ≤ ·) := by
  have hsorted : (idsIn g shares.toList).Pairwise (· ≤ ·) := by
    refine List.Pairwise.sublist (List.filter_sublist.map _) (List.pairwise_map.mpr ?_)
    refine shares.sorted.imp fun {a b} hlt => ?_
    exact Std.le_of_lt (Std.compare_eq_lt.mp hlt)
  have hmerged : (ids.mergeSort (· ≤ ·)).Pairwise (· ≤ ·) := by
    have := @List.pairwise_mergeSort _ (fun a b : ServerId => decide (a ≤ b))
      (fun a b c hab hbc => by simp only [decide_eq_true_eq] at *; exact UInt64.le_trans hab hbc)
      (fun a b => by simpa using UInt64.le_total a b) ids
    simpa using this
  exact ((hshares.perm_idsIn hg).trans (List.mergeSort_perm ids _).symm).eq_of_pairwise
    (fun _ _ _ _ => UInt64.le_antisymm) hsorted hmerged

theorem AreShares.weightIn_eq_totalOf_idsIn (g : GroupId) (p : ServerId → Bool) :
    weightIn shares.toList g p = totalOf weights ((idsIn g shares.toList).filter p) := by
  have hfilter : (idsIn g shares.toList).filter p =
      (shares.toList.filter fun e => e.2.group = g ∧ p e.1).map Prod.fst := by
    rw [idsIn, List.filter_map, List.filter_filter]
    congr 2
    funext e
    simp [and_comm]
  rw [hfilter, totalOf, List.map_map]
  refine congrArg List.sum (List.map_congr_left fun e he => ?_)
  have hs := Table.get?_eq_some_iff.mpr (List.mem_of_mem_filter he)
  exact congrArg UInt64.toNat ((hshares.get?_iff e.1 e.2).mp hs).2

/-- What some voters of a group weigh by their shares is what they were given. -/
theorem AreShares.weightIn_eq (hg : groups.get? g = some ids) (p : ServerId → Bool) :
    weightIn shares.toList g p = totalOf weights (ids.filter p) := by
  rw [hshares.weightIn_eq_totalOf_idsIn]
  exact (((hshares.perm_idsIn hg).filter p).map _).sum_eq

theorem AreShares.weightIn_true (hg : groups.get? g = some ids) :
    weightIn shares.toList g (fun _ => true) = totalOf weights ids := by
  rw [hshares.weightIn_eq hg, List.filter_true]

theorem AreShares.exists_groupTotals
    (hlt : ∀ ids ∈ groups.values, totalOf weights ids < UInt64.size) :
    ∃ totals, groupTotals shares.toList = .ok totals := by
  refine exists_foldlM_addShare_iff.mpr fun g => ?_
  rw [Table.get?_empty, Option.getD_none, UInt64.toNat_zero, Nat.zero_add]
  cases hids : groups.get? g with
  | some ids =>
    rw [hshares.weightIn_true hids]
    exact hlt ids (Table.mem_values_iff.mpr ⟨g, hids⟩)
  | none =>
    rw [hshares.weightIn_eq_totalOf_idsIn, hshares.idsIn_eq_nil hids, List.filter_nil, totalOf_nil]
    decide

end Given

/-! ### Acceptance -/

variable {h : Hierarchy}

theorem areShares_of_make (hmake : make members groups weights version = .ok h) :
    AreShares groups weights h.shares := by
  obtain ⟨rfl, rfl, groupOf, hassign, -, hshares⟩ := make_eq_ok_iff.mp hmake
  exact areShares_of_assignAll hassign h.keys_shares hshares

theorem isGrouping_of_make (hmake : make members groups weights version = .ok h) :
    IsGrouping members.voterIds groups weights := by
  have hshares := areShares_of_make hmake
  obtain ⟨rfl, rfl, groupOf, hassign, hcheck, -⟩ := make_eq_ok_iff.mp hmake
  obtain ⟨hlisted, -⟩ := assignAll_eq_ok_iff.mp hassign
  constructor
  case voters_ne_nil => exact Members.voterIds_ne_nil_iff.mpr h.voting_ne_empty
  case group_ne_nil =>
    intro ids hids
    obtain ⟨e, he, rfl⟩ := List.mem_map.mp hids
    exact (hlisted e he).1
  case listed_subset =>
    intro id hid
    obtain ⟨g, ids, hids, hmem⟩ := mem_flatten_iff.mp hid
    exact Table.contains_iff.mp ((hlisted _ (Table.get?_eq_some_iff.mp hids)).2 id hmem)
  case nodup => exact hshares.nodup
  case subset_listed =>
    intro id hid
    rw [← h.keys_shares] at hid
    obtain ⟨s, hs⟩ := Table.mem_keys_iff.mp hid
    obtain ⟨⟨ids, hids, hmem⟩, -⟩ := (hshares.get?_iff id s).mp hs
    exact mem_flatten_iff.mpr ⟨s.group, ids, hids, hmem⟩
  case weights_subset =>
    intro id hid
    exact Table.contains_iff.mp (checkWeights_eq_ok_iff.mp hcheck id hid)
  case totalOf_lt =>
    intro ids hids
    obtain ⟨g, hg⟩ := Table.mem_values_iff.mp hids
    rw [← hshares.weightIn_true hg]
    exact h.weightIn_lt g fun _ => true

/-- The shares of the voters in the groups that they have. -/
def sharesOf (members : Members) (groupOf : Table ServerId GroupId)
    (weights : Table ServerId Weight) : Table ServerId Share :=
  ⟨members.voting.toList.map fun e =>
      (e.1, ⟨(groupOf.get? e.1).getD 0, weightOf weights e.1⟩),
    List.pairwise_map.mpr members.voting.sorted⟩

theorem keys_sharesOf (members : Members) (groupOf : Table ServerId GroupId)
    (weights : Table ServerId Weight) :
    (sharesOf members groupOf weights).keys = members.voterIds := by
  simp [sharesOf, Table.keys, Members.voterIds]

theorem of_mem_sharesOf {groupOf : Table ServerId GroupId}
    (hall : ∀ id ∈ members.voterIds, ∃ g, groupOf.get? id = some g) :
    ∀ e ∈ (sharesOf members groupOf weights).toList,
      groupOf.get? e.1 = some e.2.group ∧ e.2.weight = weightOf weights e.1 := by
  intro e he
  obtain ⟨v, hv, rfl⟩ := List.mem_map.mp he
  obtain ⟨g, hgroup⟩ := hall v.1 (Table.mem_keys_of_mem hv)
  exact ⟨by rw [hgroup]; rfl, rfl⟩

section Grouping

variable (hg : IsGrouping members.voterIds groups weights)
include hg

theorem IsGrouping.exists_assignAll : ∃ groupOf, assignAll members groups = .ok groupOf ∧
    ∀ id ∈ members.voterIds, ∃ g, groupOf.get? id = some g := by
  have hnodup : ((listed groups).map Prod.fst).Nodup := by
    rw [map_fst_listed]
    exact hg.nodup
  have hperm := Table.perm_toList_ofList hnodup
  refine ⟨_, assignAll_eq_ok_iff.mpr ⟨fun e he => ?_, hperm⟩, fun id hid => ?_⟩
  · have hids : e.2 ∈ groups.values := List.mem_map_of_mem he
    exact ⟨hg.group_ne_nil _ hids, fun id hid =>
      Table.contains_iff.mpr (hg.listed_subset (List.mem_flatten.mpr ⟨_, hids, hid⟩))⟩
  · obtain ⟨g, hlisted⟩ := mem_flatten_iff.mp (hg.subset_listed hid)
    exact ⟨g, Table.get?_eq_some_iff.mpr (hperm.mem_iff.mpr (mem_listed_iff.mpr hlisted))⟩

theorem IsGrouping.checkWeights_eq_ok : checkWeights members weights = .ok () :=
  checkWeights_eq_ok_iff.mpr fun _ hid => Table.contains_iff.mpr (hg.weights_subset hid)

/-- The groups are assigned, each voter gets its share, and the shares are added up. -/
theorem exists_make_of_isGrouping : ∃ h, make members groups weights version = .ok h := by
  obtain ⟨groupOf, hassign, hall⟩ := hg.exists_assignAll
  have hkeys := keys_sharesOf members groupOf weights
  have hgiven := @of_mem_sharesOf members weights groupOf hall
  have hshares := areShares_of_assignAll hassign hkeys hgiven
  obtain ⟨groupWeights, htotals⟩ := hshares.exists_groupTotals hg.totalOf_lt
  have hvoting := Members.voterIds_ne_nil_iff.mp hg.voters_ne_nil
  exact ⟨⟨members, _, groupWeights, _, version, hvoting, hkeys, htotals, rfl⟩,
    make_eq_ok_iff.mpr ⟨rfl, rfl, groupOf, hassign, hg.checkWeights_eq_ok, hgiven⟩⟩

end Grouping

/-- **A hierarchy is made** of groups and weights exactly if they are a grouping of the voters. -/
theorem exists_make_iff : (∃ h, make members groups weights version = .ok h) ↔
    IsGrouping members.voterIds groups weights :=
  ⟨fun ⟨_, hmake⟩ => isGrouping_of_make hmake, exists_make_of_isGrouping⟩

/-! ### Answers -/

theorem weight?_of_make (hmake : make members groups weights version = .ok h) (id : ServerId) :
    h.weight? id = if id ∈ h.members.voterIds then some (weightOf weights id) else none := by
  have hshares := areShares_of_make hmake
  rw [weight?, ← h.keys_shares]
  cases hs : h.shares.get? id with
  | some s =>
    have hid : id ∈ h.shares.keys := Table.mem_keys_iff.mpr ⟨s, hs⟩
    rw [if_pos hid, Option.map_some, ((hshares.get?_iff id s).mp hs).2]
  | none =>
    have hid : id ∉ h.shares.keys := by
      rw [Table.mem_keys_iff, hs]
      simp
    rw [if_neg hid, Option.map_none]

theorem isSome_groupOf? (h : Hierarchy) (id : ServerId) :
    (h.groupOf? id).isSome ↔ id ∈ h.members.voterIds := by
  rw [← h.keys_shares, Table.mem_keys_iff, groupOf?, Option.isSome_map, Option.isSome_iff_exists]

theorem groupOf?_of_make (hmake : make members groups weights version = .ok h) {id : ServerId}
    {g : GroupId} : h.groupOf? id = some g ↔ ∃ ids, groups.get? g = some ids ∧ id ∈ ids := by
  rw [← (areShares_of_make hmake).mem_idsIn_iff, mem_idsIn, groupOf?, Option.map_eq_some_iff]
  simp only [Table.get?_eq_some_iff]

/-- A given group holds somebody, so somebody has a share in it. -/
theorem isSome_groupWeight?_of_make (hmake : make members groups weights version = .ok h)
    (g : GroupId) : (h.groupWeight? g).isSome = (groups.get? g).isSome := by
  have hshares := areShares_of_make hmake
  rw [isSome_groupWeight?, Bool.eq_iff_iff, List.any_eq_true, Option.isSome_iff_exists]
  constructor
  · rintro ⟨⟨id, s⟩, hs, hgroup⟩
    have hid := mem_idsIn.mpr ⟨s, hs, of_decide_eq_true hgroup⟩
    obtain ⟨ids, hids, -⟩ := hshares.mem_idsIn_iff.mp hid
    exact ⟨ids, hids⟩
  · rintro ⟨ids, hids⟩
    have hne := (isGrouping_of_make hmake).group_ne_nil ids (Table.mem_values_iff.mpr ⟨g, hids⟩)
    obtain ⟨id, hid⟩ := List.exists_mem_of_ne_nil _ hne
    obtain ⟨s, hs, hgroup⟩ := mem_idsIn.mp (hshares.mem_idsIn_iff.mpr ⟨ids, hids, hid⟩)
    exact ⟨(id, s), hs, decide_eq_true hgroup⟩

theorem groupWeight?_of_make (hmake : make members groups weights version = .ok h) (g : GroupId) :
    (h.groupWeight? g).map UInt64.toNat = (groups.get? g).map (totalOf weights) := by
  have hsome := isSome_groupWeight?_of_make hmake g
  have hsum := h.toNat_getD_groupWeight? g
  cases hids : groups.get? g with
  | none =>
    rw [hids, Option.isSome_none, Option.isSome_eq_false_iff, Option.isNone_iff_eq_none] at hsome
    rw [hsome, Option.map_none, Option.map_none]
  | some ids =>
    rw [hids, Option.isSome_some, Option.isSome_iff_exists] at hsome
    obtain ⟨w, hw⟩ := hsome
    rw [hw, Option.getD_some, (areShares_of_make hmake).weightIn_true hids] at hsum
    rw [hw, Option.map_some, Option.map_some, hsum]

/-- What is counted along the totals of groups can be counted along the given groups. -/
theorem countP_keys_of_make (hmake : make members groups weights version = .ok h)
    {p : GroupId → Bool} {q : List ServerId → Bool}
    (hpq : ∀ g ids, groups.get? g = some ids → (p g ↔ q ids)) :
    h.groupWeights.keys.countP p = groups.values.countP q := by
  have hperm : h.groupWeights.keys.Perm groups.keys := by
    refine (List.perm_ext_iff_of_nodup h.groupWeights.nodup_keys groups.nodup_keys).mpr fun g => ?_
    rw [← Table.contains_iff, ← Table.contains_iff]
    exact Bool.eq_iff_iff.mp (isSome_groupWeight?_of_make hmake g)
  rw [hperm.countP_eq, Table.keys, Table.values, List.countP_map, List.countP_map]
  exact List.countP_congr fun e he => hpq e.1 e.2 (Table.get?_eq_some_iff.mpr he)

theorem counts_of_make (hmake : make members groups weights version = .ok h) {g : GroupId}
    {ids : List ServerId} (hids : groups.get? g = some ids) :
    h.counts g ↔ 0 < totalOf weights ids := by
  rw [counts, decide_eq_true_eq, (areShares_of_make hmake).weightIn_true hids]

theorem numGroups_of_make (hmake : make members groups weights version = .ok h) :
    h.numGroups = groups.values.countP fun ids => 0 < totalOf weights ids := by
  rw [numGroups_eq_countP]
  refine countP_keys_of_make hmake fun g ids hids => ?_
  rw [counts_of_make hmake hids, decide_eq_true_eq]

theorem groups_of_make (hmake : make members groups weights version = .ok h) :
    h.groups = groups.mapValues fun ids => ids.mergeSort (· ≤ ·) := by
  have hshares := areShares_of_make hmake
  refine Table.ext_get? fun g => ?_
  rw [get?_groups, Table.get?_mapValues]
  cases hids : groups.get? g with
  | none => rw [if_pos (hshares.idsIn_eq_nil hids), Option.map_none]
  | some ids =>
    have hne : idsIn g h.shares.toList ≠ [] := by
      intro hnil
      have hperm := hshares.perm_idsIn hids
      rw [hnil] at hperm
      exact (isGrouping_of_make hmake).group_ne_nil ids (Table.mem_values_iff.mpr ⟨g, hids⟩)
        hperm.nil_eq.symm
    rw [if_neg hne, Option.map_some, hshares.idsIn_eq_mergeSort hids]

/-! ### Main result -/

/-- What a hierarchy answers is what the groups and the weights say that it is made of. -/
structure IsMadeOf (h : Hierarchy) (groups : Table GroupId (List ServerId))
    (weights : Table ServerId Weight) : Prop where
  weight?_eq : ∀ id, h.weight? id =
    if id ∈ h.members.voterIds then some (weightOf weights id) else none
  isSome_groupOf? : ∀ id, (h.groupOf? id).isSome ↔ id ∈ h.members.voterIds
  groupOf?_eq_some_iff : ∀ id g, h.groupOf? id = some g ↔
    ∃ ids, groups.get? g = some ids ∧ id ∈ ids
  groupWeight?_eq : ∀ g, (h.groupWeight? g).map UInt64.toNat = (groups.get? g).map (totalOf weights)
  numGroups_eq : h.numGroups = groups.values.countP fun ids => 0 < totalOf weights ids
  groups_eq : h.groups = groups.mapValues fun ids => ids.mergeSort (· ≤ ·)

theorem isMadeOf_of_make (hmake : make members groups weights version = .ok h) :
    h.IsMadeOf groups weights where
  weight?_eq := weight?_of_make hmake
  isSome_groupOf? := isSome_groupOf? h
  groupOf?_eq_some_iff _ _ := groupOf?_of_make hmake
  groupWeight?_eq := groupWeight?_of_make hmake
  numGroups_eq := numGroups_of_make hmake
  groups_eq := groups_of_make hmake

end Make

variable {servers : List Server} {groups : Table GroupId (List ServerId)}
  {weights : Table ServerId Weight} {version : Version} {h : Hierarchy}

theorem ofServers_eq_ok_iff : ofServers servers groups weights version = .ok h ↔
    ∃ members, Members.ofServers servers = .ok members ∧
      make members groups weights version = .ok h :=
  Except.bind_eq_ok_iff

/-- **Hierarchies of servers**: one is made exactly if no two servers have the same id and the
groups and the weights are a grouping of those that vote, and it answers what it is made of. -/
theorem exists_ofServers_iff_and_isMadeOf (servers : List Server)
    (groups : Table GroupId (List ServerId)) (weights : Table ServerId Weight) (version : Version) :
    ((∃ h, ofServers servers groups weights version = .ok h) ↔
        (servers.map Server.id).Nodup ∧ IsGrouping (Members.votersOf servers) groups weights) ∧
      ∀ h, ofServers servers groups weights version = .ok h →
        h.members.table.values.Perm servers ∧ h.version = version ∧ h.IsMadeOf groups weights := by
  refine ⟨⟨?_, ?_⟩, fun h hok => ?_⟩
  · rintro ⟨h, hok⟩
    obtain ⟨members, hmembers, hmake⟩ := ofServers_eq_ok_iff.mp hok
    exact ⟨Members.exists_ofServers_iff.mp ⟨members, hmembers⟩,
      (isGrouping_of_make hmake).of_perm (Members.perm_voterIds hmembers)⟩
  · rintro ⟨hids, hg⟩
    obtain ⟨members, hmembers⟩ := Members.exists_ofServers_iff.mpr hids
    obtain ⟨h, hmake⟩ :=
      exists_make_of_isGrouping (hg.of_perm (Members.perm_voterIds hmembers).symm)
    exact ⟨h, ofServers_eq_ok_iff.mpr ⟨members, hmembers, hmake⟩⟩
  · obtain ⟨members, hmembers, hmake⟩ := ofServers_eq_ok_iff.mp hok
    obtain ⟨rfl, hversion, -⟩ := make_eq_ok_iff.mp hmake
    exact ⟨Members.ofServers_eq_ok_iff.mp hmembers, hversion, isMadeOf_of_make hmake⟩

/-- Two voters in one group, listed out of order, one of which weighs nothing, and an observer. -/
theorem exists_ofServers_iff_and_isMadeOf_pair :
    ∃ h, ofServers [⟨3, none, none, .observer⟩, ⟨2, none, none, .participant⟩,
        ⟨1, none, none, .participant⟩] (.ofList [(7, [2, 1])]) (.ofList [(2, 0)]) 5 = .ok h ∧
      h.version = 5 ∧ h.IsMadeOf (.ofList [(7, [2, 1])]) (.ofList [(2, 0)]) := by
  obtain ⟨haccepts, hanswers⟩ := exists_ofServers_iff_and_isMadeOf
    [⟨3, none, none, .observer⟩, ⟨2, none, none, .participant⟩, ⟨1, none, none, .participant⟩]
    (.ofList [(7, [2, 1])]) (.ofList [(2, 0)]) 5
  obtain ⟨h, hok⟩ := haccepts.mpr ⟨by decide, by decide, by decide, by decide, by decide,
    by decide, by decide, by decide⟩
  exact ⟨h, hok, (hanswers h hok).2⟩

end Ensemble.Hierarchy
