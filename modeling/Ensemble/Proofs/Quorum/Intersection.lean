import Ensemble.Proofs.Quorum.Weight
import Ensemble.Proofs.Table
import Ensemble.Quorum.Verifier

/-!
# Quorums intersect

Any two quorums of one membership share a voter that weighs something. For majorities two parts of
the voters that are larger than half overlap. For hierarchies two sets of groups that are larger
than half of the groups that weigh anything share a group, and two parts of that group that are
heavier than half of it share a voter.
-/

namespace Ensemble

namespace Majority

variable (m : Majority)

/-- The acknowledgements that are voters are the voters that are acknowledged. -/
theorem countP_contains_eq (acks : List ServerId) :
    (Table.distinct acks).countP m.members.voting.contains =
      m.members.voterIds.countP fun id => id ∈ acks := by
  refine countP_eq_of_nodup (Table.nodup_distinct acks) (Table.nodup_keys _) fun id => ?_
  rw [Table.mem_distinct_iff, Table.contains_iff, decide_eq_true_eq]
  exact And.comm

theorem containsQuorum_iff (acks : List ServerId) :
    m.containsQuorum acks ↔
      m.members.voterIds.length < 2 * m.members.voterIds.countP fun id => id ∈ acks := by
  have hsize : m.members.voting.size = m.members.voterIds.length := by
    simp [Table.size, Members.voterIds, Table.keys]
  rw [containsQuorum, countP_contains_eq, m.half_eq, hsize, decide_eq_true_eq]
  omega

/-- Every voter weighs 1. -/
theorem weight?_of_mem_voterIds {id : ServerId} (h : id ∈ m.members.voterIds) :
    m.weight? id = some 1 := by
  obtain ⟨s, hs⟩ := Table.mem_keys_iff.mp h
  have hmem : id ∈ m.members.table.keys :=
    Table.mem_keys_iff.mpr ⟨s, (Table.get?_filter_eq_some_iff.mp hs).1⟩
  rw [weight?, if_pos (Table.contains_iff.mpr hmem)]

theorem exists_voter_of_quorums {a b : List ServerId} (ha : m.containsQuorum a)
    (hb : m.containsQuorum b) : ∃ id ∈ m.members.voterIds, id ∈ a ∧ id ∈ b := by
  rw [containsQuorum_iff] at ha hb
  have hall : m.members.voterIds.countP (fun _ => true) = m.members.voterIds.length := by simp
  obtain ⟨id, hid, hia, hib⟩ := exists_mem_of_countP_lt (l := m.members.voterIds)
    (p := (· ∈ a)) (q := (· ∈ b)) (r := fun _ => true) (fun _ _ _ => rfl) (fun _ _ _ => rfl)
    (by omega)
  exact ⟨id, hid, of_decide_eq_true hia, of_decide_eq_true hib⟩

end Majority

namespace Hierarchy

variable (h : Hierarchy)

/-- Two quorums carry a common group. -/
theorem exists_group_of_quorums {a b : List ServerId} (ha : h.containsQuorum a)
    (hb : h.containsQuorum b) : ∃ g, h.carries a g ∧ h.carries b g := by
  rw [containsQuorum_iff] at ha hb
  obtain ⟨g, -, hga, hgb⟩ := exists_mem_of_countP_lt (l := h.groupWeights.keys)
    (p := h.carries a) (q := h.carries b) (r := h.counts)
    (fun _ _ => h.counts_of_carries) (fun _ _ => h.counts_of_carries) (by omega)
  exact ⟨g, hga, hgb⟩

/-- Two sets that carry a group share a voter of it that weighs something. -/
theorem exists_share_of_carries {a b : List ServerId} {g : GroupId} (ha : h.carries a g)
    (hb : h.carries b g) :
    ∃ e ∈ h.shares.toList, e.1 ∈ a ∧ e.1 ∈ b ∧ 0 < e.2.weight := by
  simp only [carries, decide_eq_true_eq] at ha hb
  have hlt : weightIn h.shares.toList g (fun _ => true) <
      weightIn h.shares.toList g (· ∈ a) + weightIn h.shares.toList g (· ∈ b) := by omega
  obtain ⟨e, he, hea, heb, hpos⟩ :=
    exists_mem_of_weigh_lt (by simp +contextual) (by simp +contextual) hlt
  simp only [decide_eq_true_eq] at hea heb
  exact ⟨e, he, hea.2, heb.2, UInt64.lt_iff_toNat_lt.mpr hpos⟩

/-- The voters are those with a share. -/
theorem mem_voterIds_of_mem_shares {e : ServerId × Share} (he : e ∈ h.shares.toList) :
    e.1 ∈ h.members.voterIds := by
  rw [← h.keys_shares]
  exact Table.mem_keys_of_mem he

theorem weight?_of_mem_shares {e : ServerId × Share} (he : e ∈ h.shares.toList) :
    h.weight? e.1 = some e.2.weight := by
  rw [weight?, Table.get?_eq_some_iff.mpr he, Option.map_some]

end Hierarchy

namespace Verifier

/-- **Quorums intersect**: any two share a voter that weighs something. -/
theorem exists_weighted_voter_of_quorums {v : Verifier} {a b : List ServerId}
    (ha : v.containsQuorum a) (hb : v.containsQuorum b) :
    ∃ id, id ∈ a ∧ id ∈ b ∧ v.voting.contains id ∧ ∃ w, v.weight? id = some w ∧ 0 < w := by
  cases v with
  | majority m =>
    obtain ⟨id, hid, hia, hib⟩ := m.exists_voter_of_quorums ha hb
    exact ⟨id, hia, hib, Table.contains_iff.mpr hid, 1, m.weight?_of_mem_voterIds hid, by decide⟩
  | hierarchical h =>
    obtain ⟨g, hga, hgb⟩ := h.exists_group_of_quorums ha hb
    obtain ⟨e, he, hea, heb, hpos⟩ := h.exists_share_of_carries hga hgb
    exact ⟨e.1, hea, heb, Table.contains_iff.mpr (h.mem_voterIds_of_mem_shares he), e.2.weight,
      h.weight?_of_mem_shares he, hpos⟩

/-- Three voters in two groups, the second of which weighs nothing. -/
theorem exists_weighted_voter_of_quorums_two_groups :
    ∃ h, Hierarchy.ofServers
        [⟨1, none, none, .participant⟩, ⟨2, none, none, .participant⟩, ⟨3, none, none, .participant⟩]
        (.ofList [(1, [1, 2]), (2, [3])]) (.ofList [(1, 3), (3, 0)]) 1 = .ok h ∧
      (hierarchical h).containsQuorum [1, 3] ∧ (hierarchical h).containsQuorum [9, 2, 1] ∧
      ∃ id, id ∈ [1, 3] ∧ id ∈ [9, 2, 1] ∧ (hierarchical h).voting.contains id ∧
        ∃ w, (hierarchical h).weight? id = some w ∧ 0 < w := by
  cases hrun : Hierarchy.ofServers
      [⟨1, none, none, .participant⟩, ⟨2, none, none, .participant⟩, ⟨3, none, none, .participant⟩]
      (.ofList [(1, [1, 2]), (2, [3])]) (.ofList [(1, 3), (3, 0)]) 1 with
  | error e =>
    have := congrArg (fun r => r.isOk) hrun
    cases this
  | ok h =>
    have hq := congrArg (fun r => r.map fun h =>
      (h.containsQuorum [1, 3], h.containsQuorum [9, 2, 1])) hrun
    replace hq := Except.ok.inj (hq.symm.trans (by rfl : _ = Except.ok (true, true)))
    have h1 : (hierarchical h).containsQuorum [1, 3] := congrArg Prod.fst hq
    have h2 : (hierarchical h).containsQuorum [9, 2, 1] := congrArg Prod.snd hq
    exact ⟨h, rfl, h1, h2, exists_weighted_voter_of_quorums h1 h2⟩

end Verifier

end Ensemble
