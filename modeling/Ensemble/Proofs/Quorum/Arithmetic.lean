import Ensemble.Proofs.Quorum.Intersection
import Mathlib.Algebra.BigOperators.Group.Finset.Basic
import Mathlib.Data.FinEnum

/-!
# The arithmetic of hierarchical quorums

A quorum of a hierarchy, in unbounded arithmetic over sets of ids: it carries more than half of the
groups that weigh anything, where it carries a group by more than half of its weight. The verdict is
reached with 64-bit sums, some of them saturating, and with two truncating halvings
(`Hierarchy.containsQuorum`); main statement: `Hierarchy.containsQuorum_iff_card`.

`Hierarchy.containsQuorum_iff` has the same comparison over the lists of the tables. What is left is
to leave these lists: ids and groups are listed without repetition, so lengths are sizes of sets and
sums of lists are sums over sets.
-/

namespace Ensemble.Hierarchy

open Finset

variable (h : Hierarchy)

/-! ### Sums over sets -/

/-- What the vote of a server weighs. A server that is no voter weighs nothing. -/
def voteWeight (id : ServerId) : Nat := ((h.weight? id).getD 0).toNat

/-- What the members of group `g` among `ids` weigh together. -/
def votesIn (g : GroupId) (ids : Finset ServerId) : Nat :=
  ∑ id ∈ ids with h.groupOf? id = some g, h.voteWeight id

theorem voteWeight_of_mem_shares {e : ServerId × Share} (he : e ∈ h.shares.toList) :
    h.voteWeight e.1 = e.2.weight.toNat := by
  rw [voteWeight, h.weight?_of_mem_shares he, Option.getD_some]

theorem groupOf?_eq_some_iff {id : ServerId} {g : GroupId} :
    h.groupOf? id = some g ↔ ∃ s, (id, s) ∈ h.shares.toList ∧ s.group = g := by
  simp only [groupOf?, Option.map_eq_some_iff, Table.get?_eq_some_iff]

/-- A weight that is added up along the shares is a sum over the ids of the group. -/
theorem weightIn_eq_votesIn (g : GroupId) (ids : Finset ServerId) :
    weightIn h.shares.toList g (· ∈ ids) = h.votesIn g ids := by
  have hnodup : ((h.shares.toList.filter fun e => e.2.group = g ∧ e.1 ∈ ids).map Prod.fst).Nodup :=
    h.shares.nodup_keys.sublist (List.filter_sublist.map _)
  have hids : ((h.shares.toList.filter fun e => e.2.group = g ∧ e.1 ∈ ids).map Prod.fst).toFinset =
      {id ∈ ids | h.groupOf? id = some g} := by
    ext id
    simp only [List.mem_toFinset, List.mem_map, List.mem_filter, decide_eq_true_eq, Prod.exists,
      exists_and_right, exists_eq_right, mem_filter, groupOf?_eq_some_iff]
    constructor
    · rintro ⟨s, hs, hg, hid⟩
      exact ⟨hid, s, hs, hg⟩
    · rintro ⟨hid, s, hs, hg⟩
      exact ⟨s, hs, hg, hid⟩
  rw [votesIn, ← hids, List.sum_toFinset _ hnodup, List.map_map]
  simp only [weightIn, weigh, decide_eq_true_eq]
  refine congrArg List.sum (List.map_congr_left fun e he => ?_)
  exact (h.voteWeight_of_mem_shares (List.mem_of_mem_filter he)).symm

theorem counts_iff (g : GroupId) : h.counts g ↔ 0 < h.votesIn g univ := by
  rw [← weightIn_eq_votesIn, counts, decide_eq_true_eq]
  simp only [mem_univ, decide_true]

theorem carries_iff (acks : List ServerId) (g : GroupId) :
    h.carries acks g ↔ h.votesIn g univ < 2 * h.votesIn g acks.toFinset := by
  rw [← weightIn_eq_votesIn, ← weightIn_eq_votesIn, carries, decide_eq_true_eq]
  simp only [mem_univ, decide_true, List.mem_toFinset]

/-! ### Sets of groups -/

/-- Groups that are counted along the table of totals are a set of groups, if all of them weigh
anything. -/
theorem countP_keys_eq_card {p : GroupId → Bool} {q : GroupId → Prop} [DecidablePred q]
    (hp : ∀ g, p g → h.counts g) (hpq : ∀ g, p g ↔ q g) :
    h.groupWeights.keys.countP p = #{g | q g} := by
  have hset : (h.groupWeights.keys.filter p).toFinset = ({g | q g} : Finset GroupId) := by
    ext g
    simp only [List.mem_toFinset, List.mem_filter, mem_filter, mem_univ, true_and, ← hpq]
    exact ⟨And.right, fun hg => ⟨h.mem_keys_groupWeights (hp g hg), hg⟩⟩
  rw [← hset, List.toFinset_card_of_nodup (h.groupWeights.nodup_keys.filter _),
    List.countP_eq_length_filter]

/-! ### Quorums -/

/-- **Quorums, exactly**: `acks` are a quorum if and only if the groups of which they weigh more than
half are more than half of the groups that weigh anything. -/
theorem containsQuorum_iff_card (acks : List ServerId) :
    h.containsQuorum acks ↔ #{g | 0 < h.votesIn g univ} <
      2 * #{g | h.votesIn g univ < 2 * h.votesIn g acks.toFinset} := by
  rw [containsQuorum_iff, h.countP_keys_eq_card (fun _ hg => hg) h.counts_iff,
    h.countP_keys_eq_card (fun _ => h.counts_of_carries) (h.carries_iff acks)]

end Ensemble.Hierarchy
