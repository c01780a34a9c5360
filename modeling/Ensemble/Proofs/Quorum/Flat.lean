import Ensemble.Proofs.Quorum.Intersection
import Ensemble.Proofs.Quorum.Making

/-!
# Flat hierarchies

Hierarchies that come to majorities: one group of voters with equal weights
(`Hierarchy.IsOneGroup`), and a group for each voter with whatever weights above 0
(`Hierarchy.AreSingletons`). In the first the majority is one of weight in the group, in the second
one of groups. In both it is one of voters (`Hierarchy.containsQuorum_eq_majority`), though the one
rule halves the number of voters and the other the weight of each group and the number of groups.

The quorums of a hierarchy are said of the groups and weights that it is made of
(`Hierarchy.containsQuorum_iff_of_make`).
-/

namespace Ensemble.Hierarchy

variable {members : Members} {groups : Table GroupId (List ServerId)}
  {weights : Table ServerId Weight} {version : Version} {voters : List ServerId} {k : Weight}

/-! ### Quorums of given groups -/

section Make

variable {h : Hierarchy} (hmake : make members groups weights version = .ok h)
include hmake

theorem carries_of_make {g : GroupId} {ids : List ServerId} (hids : groups.get? g = some ids)
    (acks : List ServerId) : h.carries acks g ↔
      totalOf weights ids < 2 * totalOf weights (ids.filter fun id => id ∈ acks) := by
  have hshares := areShares_of_make hmake
  rw [carries, decide_eq_true_eq, hshares.weightIn_true hids, hshares.weightIn_eq hids]

/-- A quorum of a hierarchy, said of what it is made of. -/
theorem containsQuorum_iff_of_make (acks : List ServerId) : h.containsQuorum acks ↔
    (groups.values.countP fun ids => 0 < totalOf weights ids) <
      2 * groups.values.countP fun ids =>
        totalOf weights ids < 2 * totalOf weights (ids.filter fun id => id ∈ acks) := by
  have hcounts : h.groupWeights.keys.countP h.counts =
      groups.values.countP fun ids => 0 < totalOf weights ids := by
    refine countP_keys_of_make hmake fun g ids hids => ?_
    rw [counts_of_make hmake hids, decide_eq_true_eq]
  have hcarries : h.groupWeights.keys.countP (h.carries acks) = groups.values.countP fun ids =>
      totalOf weights ids < 2 * totalOf weights (ids.filter fun id => id ∈ acks) := by
    refine countP_keys_of_make hmake fun g ids hids => ?_
    rw [carries_of_make hmake hids, decide_eq_true_eq]
  rw [containsQuorum_iff, hcounts, hcarries]

end Make

/-! ### One group -/

/-- One group holds all voters, and each of them weighs `k`. -/
structure IsOneGroup (voters : List ServerId) (groups : Table GroupId (List ServerId))
    (weights : Table ServerId Weight) (k : Weight) : Prop where
  exists_group : ∃ g ids, groups.toList = [(g, ids)] ∧ ids.Perm voters
  weights_subset : weights.keys ⊆ voters
  weightOf_eq : ∀ id ∈ voters, weightOf weights id = k
  pos : 0 < k
  total_lt : voters.length * k.toNat < UInt64.size

theorem totalOf_of_weightOf_eq {ids : List ServerId} (hk : ∀ id ∈ ids, weightOf weights id = k) :
    totalOf weights ids = ids.length * k.toNat := by
  have hmap : (ids.map fun id => (weightOf weights id).toNat) = ids.map fun _ => k.toNat :=
    List.map_congr_left fun id hid => by rw [hk id hid]
  rw [totalOf, hmap, List.map_const', List.sum_replicate_nat]

theorem IsOneGroup.exists_values (hone : IsOneGroup voters groups weights k) :
    ∃ ids, groups.values = [ids] ∧ ids.Perm voters ∧ ∀ id ∈ ids, weightOf weights id = k := by
  obtain ⟨g, ids, hgroups, hperm⟩ := hone.exists_group
  refine ⟨ids, by rw [Table.values, hgroups]; rfl, hperm, fun id hid => ?_⟩
  exact hone.weightOf_eq id (hperm.mem_iff.mp hid)

theorem IsOneGroup.isGrouping (hone : IsOneGroup voters groups weights k) (hne : voters ≠ [])
    (hnodup : voters.Nodup) : IsGrouping voters groups weights := by
  obtain ⟨ids, hvalues, hperm, hk⟩ := hone.exists_values
  have hflatten : groups.values.flatten = ids := by simp [hvalues]
  have hids : ∀ ids' ∈ groups.values, ids' = ids := by simp [hvalues]
  constructor
  case voters_ne_nil => exact hne
  case group_ne_nil =>
    intro ids' hids' hnil
    rw [hids ids' hids'] at hnil
    exact hne (hnil ▸ hperm).nil_eq.symm
  case listed_subset =>
    rw [hflatten]
    exact hperm.subset
  case nodup =>
    rw [hflatten]
    exact hperm.nodup_iff.mpr hnodup
  case subset_listed =>
    rw [hflatten]
    exact hperm.symm.subset
  case weights_subset => exact hone.weights_subset
  case totalOf_lt =>
    intro ids' hids'
    rw [hids ids' hids', totalOf_of_weightOf_eq hk, hperm.length_eq]
    exact hone.total_lt

/-- Equal weights cancel: the weight of a part of the group is that many times `k`. -/
theorem IsOneGroup.containsQuorum_iff {h : Hierarchy} (hone : IsOneGroup voters groups weights k)
    (hne : voters ≠ []) (hmake : make members groups weights version = .ok h)
    (acks : List ServerId) : h.containsQuorum acks ↔
      voters.length < 2 * voters.countP fun id => id ∈ acks := by
  obtain ⟨ids, hvalues, hperm, hk⟩ := hone.exists_values
  have htotal : totalOf weights ids = voters.length * k.toNat := by
    rw [totalOf_of_weightOf_eq hk, hperm.length_eq]
  have hacked : totalOf weights (ids.filter fun id => id ∈ acks) =
      (voters.countP fun id => id ∈ acks) * k.toNat := by
    rw [totalOf_of_weightOf_eq fun id hid => hk id (List.mem_of_mem_filter hid),
      ← List.countP_eq_length_filter, hperm.countP_eq]
  have hkpos : 0 < k.toNat := UInt64.lt_iff_toNat_lt.mp hone.pos
  have hcounts : 0 < voters.length * k.toNat := Nat.mul_pos (List.length_pos_iff.mpr hne) hkpos
  have hcancel : voters.length * k.toNat < 2 * ((voters.countP fun id => id ∈ acks) * k.toNat) ↔
      voters.length < 2 * voters.countP fun id => id ∈ acks := by
    rw [← Nat.mul_assoc]
    exact Nat.mul_lt_mul_right hkpos
  rw [containsQuorum_iff_of_make hmake, hvalues]
  simp only [List.countP_singleton, htotal, hacked, hcounts, decide_true, if_true,
    decide_eq_true_eq]
  split
  · rename_i hcarried
    exact iff_of_true (by decide) (hcancel.mp hcarried)
  · rename_i hcarried
    exact iff_of_false (by decide) (mt hcancel.mpr hcarried)

/-! ### A group for each voter -/

/-- Every voter is alone in a group, and weighs something. -/
structure AreSingletons (voters : List ServerId) (groups : Table GroupId (List ServerId))
    (weights : Table ServerId Weight) : Prop where
  eq_singleton : ∀ ids ∈ groups.values, ∃ id, ids = [id]
  perm : groups.values.flatten.Perm voters
  weights_subset : weights.keys ⊆ voters
  weightOf_pos : ∀ id ∈ voters, 0 < weightOf weights id

theorem totalOf_singleton (id : ServerId) :
    totalOf weights [id] = (weightOf weights id).toNat := by
  simp [totalOf]

theorem AreSingletons.isGrouping (hsingle : AreSingletons voters groups weights)
    (hne : voters ≠ []) (hnodup : voters.Nodup) : IsGrouping voters groups weights := by
  constructor
  case voters_ne_nil => exact hne
  case group_ne_nil =>
    intro ids hids hnil
    obtain ⟨id, rfl⟩ := hsingle.eq_singleton ids hids
    cases hnil
  case listed_subset => exact hsingle.perm.subset
  case nodup => exact hsingle.perm.nodup_iff.mpr hnodup
  case subset_listed => exact hsingle.perm.symm.subset
  case weights_subset => exact hsingle.weights_subset
  case totalOf_lt =>
    intro ids hids
    obtain ⟨id, rfl⟩ := hsingle.eq_singleton ids hids
    rw [totalOf_singleton]
    exact UInt64.toNat_lt_size _

theorem eq_map_singleton {α : Type} {l : List (List α)} (h : ∀ xs ∈ l, ∃ x, xs = [x]) :
    l = l.flatten.map fun x => [x] := by
  induction l with
  | nil => rfl
  | cons xs l ih =>
    obtain ⟨x, rfl⟩ := h xs List.mem_cons_self
    have hl := ih fun ys hys => h ys (List.mem_cons_of_mem _ hys)
    rw [List.flatten_cons, List.singleton_append, List.map_cons, ← hl]

/-- Every group counts, and it is carried exactly if its voter is acknowledged. -/
theorem AreSingletons.containsQuorum_iff {h : Hierarchy}
    (hsingle : AreSingletons voters groups weights)
    (hmake : make members groups weights version = .ok h) (acks : List ServerId) :
    h.containsQuorum acks ↔ voters.length < 2 * voters.countP fun id => id ∈ acks := by
  have hpos : ∀ id ∈ groups.values.flatten, 0 < (weightOf weights id).toNat := by
    intro id hid
    exact UInt64.lt_iff_toNat_lt.mp (hsingle.weightOf_pos id (hsingle.perm.mem_iff.mp hid))
  have hcounts : (groups.values.countP fun ids => 0 < totalOf weights ids) = voters.length := by
    rw [eq_map_singleton hsingle.eq_singleton, List.countP_map, ← hsingle.perm.length_eq]
    refine List.countP_eq_length.mpr fun id hid => ?_
    simpa [totalOf_singleton] using hpos id hid
  have hcarried : (groups.values.countP fun ids =>
      totalOf weights ids < 2 * totalOf weights (ids.filter fun id => id ∈ acks)) =
        voters.countP fun id => id ∈ acks := by
    rw [eq_map_singleton hsingle.eq_singleton, List.countP_map, ← hsingle.perm.countP_eq]
    refine List.countP_congr fun id hid => ?_
    have hid := hpos id hid
    simp only [Function.comp_apply, decide_eq_true_eq]
    by_cases hack : id ∈ acks
    · have hfilter : [id].filter (fun id => id ∈ acks) = [id] := by simp [hack]
      rw [hfilter, totalOf_singleton]
      exact iff_of_true (by omega) hack
    · have hfilter : [id].filter (fun id => id ∈ acks) = [] := by simp [hack]
      rw [hfilter, totalOf_nil]
      exact iff_of_false (by omega) hack
  rw [containsQuorum_iff_of_make hmake, hcounts, hcarried]

/-! ### Main result -/

variable {servers : List Server}

theorem exists_ofServers_of_isGrouping (hmembers : Members.ofServers servers = .ok members)
    (hg : IsGrouping (Members.votersOf servers) groups weights) :
    ∃ h, ofServers servers groups weights version = .ok h ∧
      make members groups weights version = .ok h := by
  obtain ⟨h, hmake⟩ := exists_make_of_isGrouping (hg.of_perm (Members.perm_voterIds hmembers).symm)
  exact ⟨h, ofServers_eq_ok_iff.mpr ⟨members, hmembers, hmake⟩, hmake⟩

/-- **Flat hierarchies decide like majorities** of the same servers: one group of equal weights, and
a group for each voter. -/
theorem containsQuorum_eq_majority (hids : (servers.map Server.id).Nodup)
    (hvoter : ∃ s ∈ servers, s.isParticipant) (version : Version) :
    ∃ m, Majority.ofServers servers version = .ok m ∧
      (∀ groups weights k version, IsOneGroup (Members.votersOf servers) groups weights k →
        ∃ h, ofServers servers groups weights version = .ok h ∧
          ∀ acks, m.containsQuorum acks = h.containsQuorum acks) ∧
      ∀ groups weights version, AreSingletons (Members.votersOf servers) groups weights →
        ∃ h, ofServers servers groups weights version = .ok h ∧
          ∀ acks, m.containsQuorum acks = h.containsQuorum acks := by
  obtain ⟨members, hmembers⟩ := Members.exists_ofServers_iff.mpr hids
  have hperm := Members.perm_voterIds hmembers
  have hne : Members.votersOf servers ≠ [] := by
    obtain ⟨s, hs, hvotes⟩ := hvoter
    exact List.ne_nil_of_mem (List.mem_map_of_mem (List.mem_filter.mpr ⟨hs, hvotes⟩))
  have hnodup : (Members.votersOf servers).Nodup := hids.sublist (List.filter_sublist.map _)
  have hmajority : ∀ acks, (Majority.ofMembers members version).containsQuorum acks ↔
      (Members.votersOf servers).length < 2 * (Members.votersOf servers).countP (· ∈ acks) := by
    intro acks
    rw [Majority.containsQuorum_iff, Majority.ofMembers, hperm.length_eq, hperm.countP_eq]
  refine ⟨.ofMembers members version, by rw [Majority.ofServers, hmembers]; rfl, ?_, ?_⟩
  · intro groups weights k version hone
    obtain ⟨h, hok, hmake⟩ :=
      exists_ofServers_of_isGrouping hmembers (hone.isGrouping hne hnodup)
    refine ⟨h, hok, fun acks => Bool.eq_iff_iff.mpr ?_⟩
    rw [hmajority, hone.containsQuorum_iff hne hmake]
  · intro groups weights version hsingle
    obtain ⟨h, hok, hmake⟩ :=
      exists_ofServers_of_isGrouping hmembers (hsingle.isGrouping hne hnodup)
    refine ⟨h, hok, fun acks => Bool.eq_iff_iff.mpr ?_⟩
    rw [hmajority, hsingle.containsQuorum_iff hmake]

def threeVoters : List Server :=
  [⟨1, none, none, .participant⟩, ⟨4, none, none, .observer⟩, ⟨3, none, none, .participant⟩,
    ⟨2, none, none, .participant⟩]

/-- Three voters in one group with weight 4 each, and in groups of their own with weights up to the
largest. -/
theorem containsQuorum_eq_majority_trio :
    ∃ m one apart, Majority.ofServers threeVoters 1 = .ok m ∧
      ofServers threeVoters (.ofList [(9, [3, 1, 2])]) (.ofList [(1, 4), (2, 4), (3, 4)]) 2 =
        .ok one ∧
      ofServers threeVoters (.ofList [(5, [3]), (6, [1]), (7, [2])])
        (.ofList [(1, 7), (3, 18446744073709551615)]) 3 = .ok apart ∧
      ∀ acks, m.containsQuorum acks = one.containsQuorum acks ∧
        m.containsQuorum acks = apart.containsQuorum acks := by
  have hvoters : Members.votersOf threeVoters = [1, 3, 2] := rfl
  obtain ⟨m, hm, hone, hapart⟩ :=
    @containsQuorum_eq_majority threeVoters (by decide) (by decide) 1
  obtain ⟨one, hokOne, hagreesOne⟩ :=
    hone (.ofList [(9, [3, 1, 2])]) (.ofList [(1, 4), (2, 4), (3, 4)]) 4 2
      ⟨⟨9, [3, 1, 2], rfl, by decide⟩, by decide, by simp [hvoters]; decide, by decide, by decide⟩
  obtain ⟨apart, hokApart, hagreesApart⟩ :=
    hapart (.ofList [(5, [3]), (6, [1]), (7, [2])]) (.ofList [(1, 7), (3, 18446744073709551615)]) 3
      ⟨fun ids hids => List.length_eq_one_iff.mp (by revert ids; decide), by decide, by decide,
        by simp [hvoters]; decide⟩
  exact ⟨m, one, apart, hm, hokOne, hokApart, fun acks => ⟨hagreesOne acks, hagreesApart acks⟩⟩

end Ensemble.Hierarchy
