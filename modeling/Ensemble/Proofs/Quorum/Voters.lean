import Ensemble.Proofs.Quorum.Arithmetic
import Mathlib.Algebra.Order.BigOperators.Group.List

/-!
# Who counts for a quorum

A quorum is a matter of the voters that weigh something (`Verifier.weightedVoters`). Among the
acknowledgements of a set, those of other ids neither help nor hurt, and more of the weighted voters
never undo a quorum (`Verifier.containsQuorum_of_inter_subset`).

Every quorum holds a weighted voter, so without one there is no quorum at all; with one all the
voters are a quorum, as they carry every group that weighs anything
(`Verifier.containsQuorum_voting_iff`).
-/

namespace Ensemble

/-! ### Majorities -/

namespace Majority

variable (m : Majority) {a b : List ServerId}

theorem containsQuorum_mono (hab : ∀ id ∈ m.members.voterIds, id ∈ a → id ∈ b)
    (ha : m.containsQuorum a) : m.containsQuorum b := by
  have hle : m.members.voterIds.countP (fun id => id ∈ a) ≤
      m.members.voterIds.countP fun id => id ∈ b := by
    refine List.countP_mono_left fun id hid hia => ?_
    exact decide_eq_true (hab id hid (of_decide_eq_true hia))
  rw [containsQuorum_iff] at ha ⊢
  omega

theorem containsQuorum_voterIds {id : ServerId} (hid : id ∈ m.members.voterIds) :
    m.containsQuorum m.members.voterIds := by
  have hall : m.members.voterIds.countP (fun id => id ∈ m.members.voterIds) =
      m.members.voterIds.length :=
    List.countP_eq_length.mpr fun id hid => decide_eq_true hid
  have hpos : 0 < m.members.voterIds.length := List.length_pos_of_mem hid
  rw [containsQuorum_iff]
  omega

end Majority

/-! ### Hierarchies -/

namespace Hierarchy

variable (h : Hierarchy) {a b : List ServerId}

theorem containsQuorum_of_carries (hab : ∀ g, h.carries a g → h.carries b g)
    (ha : h.containsQuorum a) : h.containsQuorum b := by
  have hle : h.groupWeights.keys.countP (h.carries a) ≤ h.groupWeights.keys.countP (h.carries b) :=
    List.countP_mono_left fun g _ => hab g
  rw [containsQuorum_iff] at ha ⊢
  omega

theorem containsQuorum_mono
    (hab : ∀ e ∈ h.shares.toList, 0 < e.2.weight → e.1 ∈ a → e.1 ∈ b)
    (ha : h.containsQuorum a) : h.containsQuorum b := by
  refine h.containsQuorum_of_carries (fun g hg => ?_) ha
  have hle : weightIn h.shares.toList g (· ∈ a) ≤ weightIn h.shares.toList g (· ∈ b) := by
    refine weightIn_le_weightIn (fun e he hpos hea => ?_) g
    exact decide_eq_true (hab e he hpos (of_decide_eq_true hea))
  simp only [carries, decide_eq_true_eq] at hg ⊢
  omega

theorem counts_of_mem_shares {e : ServerId × Share} (he : e ∈ h.shares.toList)
    (hpos : 0 < e.2.weight) : h.counts e.2.group := by
  have hle : e.2.weight.toNat ≤ weightIn h.shares.toList e.2.group fun _ => true :=
    List.le_sum_of_mem (List.mem_map_of_mem (List.mem_filter.mpr ⟨he, by simp⟩))
  rw [UInt64.lt_iff_toNat_lt, UInt64.toNat_zero] at hpos
  rw [counts, decide_eq_true_eq]
  omega

/-- The voters together carry every group that weighs anything. -/
theorem carries_voterIds {g : GroupId} (hg : h.counts g) : h.carries h.members.voterIds g := by
  have hle : weightIn h.shares.toList g (fun _ => true) ≤
      weightIn h.shares.toList g (· ∈ h.members.voterIds) :=
    weightIn_le_weightIn (fun e he _ _ => decide_eq_true (h.mem_voterIds_of_mem_shares he)) g
  simp only [counts, carries, decide_eq_true_eq] at hg ⊢
  omega

theorem containsQuorum_voterIds {e : ServerId × Share} (he : e ∈ h.shares.toList)
    (hpos : 0 < e.2.weight) : h.containsQuorum h.members.voterIds := by
  have hcounts := h.counts_of_mem_shares he hpos
  have hsome : 0 < h.groupWeights.keys.countP h.counts :=
    List.countP_pos_iff.mpr ⟨e.2.group, h.mem_keys_groupWeights hcounts, hcounts⟩
  have hle : h.groupWeights.keys.countP h.counts ≤
      h.groupWeights.keys.countP (h.carries h.members.voterIds) :=
    List.countP_mono_left fun g _ => h.carries_voterIds
  rw [containsQuorum_iff]
  omega

end Hierarchy

/-! ### Weighted voters -/

namespace Verifier

variable {v : Verifier} {a b : List ServerId}

/-- The voters that weigh something. -/
def weightedVoters (v : Verifier) : List ServerId :=
  v.voting.keys.filter fun id => 0 < (v.weight? id).getD 0

theorem mem_weightedVoters_iff {id : ServerId} :
    id ∈ v.weightedVoters ↔ id ∈ v.voting.keys ∧ ∃ w, v.weight? id = some w ∧ 0 < w := by
  rw [weightedVoters, List.mem_filter]
  refine and_congr_right fun _ => ?_
  cases v.weight? id with
  | none => simp
  | some w => simp

theorem weightedVoters_majority (m : Majority) :
    (majority m).weightedVoters = m.members.voterIds := by
  refine List.filter_eq_self.mpr fun id hid => ?_
  have hw : (majority m).weight? id = some 1 := m.weight?_of_mem_voterIds hid
  rw [hw]
  decide

theorem mem_weightedVoters_hierarchical {h : Hierarchy} {id : ServerId} :
    id ∈ (hierarchical h).weightedVoters ↔ ∃ s, (id, s) ∈ h.shares.toList ∧ 0 < s.weight := by
  rw [mem_weightedVoters_iff]
  constructor
  · rintro ⟨-, w, hw, hpos⟩
    obtain ⟨s, hs, rfl⟩ := Option.map_eq_some_iff.mp hw
    exact ⟨s, Table.get?_eq_some_iff.mp hs, hpos⟩
  · rintro ⟨s, hs, hpos⟩
    exact ⟨h.mem_voterIds_of_mem_shares hs, s.weight, h.weight?_of_mem_shares hs, hpos⟩

/-- A quorum meets itself, so it holds a weighted voter. -/
theorem weightedVoters_ne_nil_of_containsQuorum (ha : v.containsQuorum a) :
    v.weightedVoters ≠ [] := by
  cases v with
  | majority m =>
    obtain ⟨id, hid, -, -⟩ := m.exists_voter_of_quorums ha ha
    rw [weightedVoters_majority]
    exact List.ne_nil_of_mem hid
  | hierarchical h =>
    obtain ⟨g, hg, -⟩ := h.exists_group_of_quorums ha ha
    obtain ⟨e, he, -, -, hpos⟩ := h.exists_share_of_carries hg hg
    exact List.ne_nil_of_mem (mem_weightedVoters_hierarchical.mpr ⟨e.2, he, hpos⟩)

theorem containsQuorum_voting_of_mem {id : ServerId} (hid : id ∈ v.weightedVoters) :
    v.containsQuorum v.voting.keys := by
  cases v with
  | majority m =>
    rw [weightedVoters_majority] at hid
    exact m.containsQuorum_voterIds hid
  | hierarchical h =>
    obtain ⟨s, hs, hpos⟩ := mem_weightedVoters_hierarchical.mp hid
    exact h.containsQuorum_voterIds hs hpos

/-! ### Main results -/

/-- **Quorums grow with their weighted voters** and see no one else. -/
theorem containsQuorum_of_inter_subset (hab : a ∩ v.weightedVoters ⊆ b ∩ v.weightedVoters)
    (ha : v.containsQuorum a) : v.containsQuorum b := by
  have hmem : ∀ id ∈ v.weightedVoters, id ∈ a → id ∈ b := by
    intro id hid hia
    exact (List.mem_inter_iff.mp (hab (List.mem_inter_iff.mpr ⟨hia, hid⟩))).1
  cases v with
  | majority m =>
    rw [weightedVoters_majority] at hmem
    exact m.containsQuorum_mono hmem ha
  | hierarchical h =>
    refine h.containsQuorum_mono (fun e he hpos => ?_) ha
    exact hmem e.1 (mem_weightedVoters_hierarchical.mpr ⟨e.2, he, hpos⟩)

/-- Two voters in one group, the second of which weighs nothing, and an observer. -/
def lopsided : Hierarchy where
  members := ⟨.ofList [(1, ⟨1, none, none, .participant⟩), (2, ⟨2, none, none, .participant⟩),
    (3, ⟨3, none, none, .observer⟩)], by decide⟩
  shares := .ofList [(1, ⟨1, 5⟩), (2, ⟨1, 0⟩)]
  groupWeights := .ofList [(1, 5)]
  numGroups := 1
  version := 1
  voting_ne_empty := by decide
  keys_shares := by decide
  groupTotals_shares := by rfl
  numGroups_eq := by decide

/-- The weightless voter may go, the observer and a stranger may come. -/
theorem containsQuorum_of_inter_subset_lopsided :
    [1, 2] ∩ (hierarchical lopsided).weightedVoters ⊆
        [9, 3, 1] ∩ (hierarchical lopsided).weightedVoters ∧
      (hierarchical lopsided).containsQuorum [1, 2] ∧
      (hierarchical lopsided).containsQuorum [9, 3, 1] := by
  have hsubset : [1, 2] ∩ (hierarchical lopsided).weightedVoters ⊆
      [9, 3, 1] ∩ (hierarchical lopsided).weightedVoters := by decide
  have hquorum : (hierarchical lopsided).containsQuorum [1, 2] := by decide
  exact ⟨hsubset, hquorum, containsQuorum_of_inter_subset hsubset hquorum⟩

/-- **A quorum can be reached** exactly if some voter weighs something: then all voters are one. -/
theorem containsQuorum_voting_iff (v : Verifier) :
    (v.containsQuorum v.voting.keys ↔ v.weightedVoters ≠ []) ∧
      (v.weightedVoters = [] → ∀ acks, v.containsQuorum acks = false) := by
  refine ⟨⟨weightedVoters_ne_nil_of_containsQuorum, fun hne => ?_⟩, fun hnil acks => ?_⟩
  · obtain ⟨id, hid⟩ := List.exists_mem_of_ne_nil _ hne
    exact containsQuorum_voting_of_mem hid
  · by_contra hquorum
    rw [Bool.not_eq_false] at hquorum
    exact weightedVoters_ne_nil_of_containsQuorum hquorum hnil

/-- Of an observer alone nothing is a quorum. -/
theorem containsQuorum_voting_iff_observer :
    ∃ m, Majority.ofServers [⟨1, none, none, .observer⟩] 1 = .ok m ∧
      (majority m).weightedVoters = [] ∧ ∀ acks, (majority m).containsQuorum acks = false := by
  have hnil : weightedVoters
      (majority (.ofMembers ⟨.ofList [(1, ⟨1, none, none, .observer⟩)], by decide⟩ 1)) = [] := by
    decide
  exact ⟨_, rfl, hnil, (containsQuorum_voting_iff _).2 hnil⟩

end Verifier

end Ensemble
