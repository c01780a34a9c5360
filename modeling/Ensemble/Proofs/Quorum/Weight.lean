import Ensemble.Proofs.Table
import Ensemble.Quorum.Hierarchy
import Mathlib.Algebra.BigOperators.Group.List.Basic
import Mathlib.Tactic.Linarith

/-!
# Weighing voters

What a part of a list weighs (`weigh`), without a bound, and the two pigeonhole arguments on it: two
parts that weigh more together than what holds them both share an entry that weighs something
(`exists_mem_of_weigh_lt`), and so do two counted parts (`exists_mem_of_countP_lt`).

The weights of a hierarchy are 64-bit words, added up with a check when it is made and with
saturation when a quorum is asked for. Neither ever shows: `Hierarchy.toNat_getD_groupWeight?` and
`Hierarchy.toNat_getD_ackedWeights` give both as exact sums. A quorum is asked for along the
acknowledgements, which are then put in order of groups; `Hierarchy.containsQuorum_iff` gives the
answer along the groups, with strict inequalities for the two truncating halvings.
-/

namespace Ensemble

/-! ## Parts of a list -/

section Weigh

variable {α : Type} {w : α → Nat} {p q r : α → Bool} {l : List α}

/-- What the entries that satisfy `p` weigh together. -/
def weigh (w : α → Nat) (p : α → Bool) (l : List α) : Nat := ((l.filter p).map w).sum

@[simp] theorem weigh_nil : weigh w p [] = 0 := rfl

theorem weigh_cons (a : α) (l : List α) :
    weigh w p (a :: l) = (if p a then w a else 0) + weigh w p l := by
  unfold weigh
  by_cases h : p a
  · rw [List.filter_cons_of_pos h, if_pos h, List.map_cons, List.sum_cons]
  · rw [List.filter_cons_of_neg h, if_neg h, Nat.zero_add]

theorem countP_eq_weigh (l : List α) : l.countP p = weigh (fun _ => 1) p l := by
  simp [weigh, List.countP_eq_length_filter]

/-- What weighs nothing may be left out of the comparison of two parts. -/
theorem weigh_le_weigh (h : ∀ a ∈ l, 0 < w a → p a → q a) : weigh w p l ≤ weigh w q l := by
  induction l with
  | nil => simp
  | cons a l ih =>
    have ih := ih fun b hb => h b (List.mem_cons_of_mem _ hb)
    have ha : (if p a then w a else 0) ≤ if q a then w a else 0 := by
      rcases Nat.eq_zero_or_pos (w a) with hzero | hpos
      · simp [hzero]
      · by_cases hp : p a
        · rw [if_pos hp, if_pos (h a List.mem_cons_self hpos hp)]
        · rw [if_neg hp]; omega
    rw [weigh_cons, weigh_cons]
    omega

/-- **Pigeonhole by weight**: two parts of a part that weigh more together than it share an entry
that weighs something. -/
theorem exists_mem_of_weigh_lt (hp : ∀ a ∈ l, p a → r a) (hq : ∀ a ∈ l, q a → r a)
    (h : weigh w r l < weigh w p l + weigh w q l) : ∃ a ∈ l, p a ∧ q a ∧ 0 < w a := by
  induction l with
  | nil => simp at h
  | cons a l ih =>
    have hpa := hp a List.mem_cons_self
    have hqa := hq a List.mem_cons_self
    by_cases hboth : p a ∧ q a ∧ 0 < w a
    · exact ⟨a, List.mem_cons_self, hboth⟩
    · have hle : (if p a then w a else 0) + (if q a then w a else 0) ≤ if r a then w a else 0 := by
        by_cases h1 : p a
        · by_cases h2 : q a
          · have : w a = 0 := by
              by_contra h0
              exact hboth ⟨h1, h2, by omega⟩
            simp [this]
          · simp [h1, h2, hpa h1]
        · by_cases h2 : q a
          · simp [h1, h2, hqa h2]
          · simp [h1, h2]
      rw [weigh_cons, weigh_cons, weigh_cons] at h
      obtain ⟨b, hb, hpqw⟩ := ih (fun b hb => hp b (List.mem_cons_of_mem _ hb))
        (fun b hb => hq b (List.mem_cons_of_mem _ hb)) (by omega)
      exact ⟨b, List.mem_cons_of_mem _ hb, hpqw⟩

/-- **Pigeonhole by number.** -/
theorem exists_mem_of_countP_lt (hp : ∀ a ∈ l, p a → r a) (hq : ∀ a ∈ l, q a → r a)
    (h : l.countP r < l.countP p + l.countP q) : ∃ a ∈ l, p a ∧ q a := by
  simp only [countP_eq_weigh] at h
  obtain ⟨a, ha, hpa, hqa, -⟩ := exists_mem_of_weigh_lt hp hq h
  exact ⟨a, ha, hpa, hqa⟩

/-- Of two lists without repetition as many entries are counted if the same ones are. -/
theorem countP_eq_of_nodup {l' : List α} (hl : l.Nodup) (hl' : l'.Nodup)
    (h : ∀ a, a ∈ l ∧ p a ↔ a ∈ l' ∧ q a) : l.countP p = l'.countP q := by
  rw [List.countP_eq_length_filter, List.countP_eq_length_filter]
  refine ((List.perm_ext_iff_of_nodup (hl.filter p) (hl'.filter q)).mpr fun a => ?_).length_eq
  rw [List.mem_filter, List.mem_filter]
  exact h a

end Weigh

/-! ## Halving -/

/-- A word is larger than half of another, rounded down, exactly if it is larger than half. -/
theorem half_lt_iff (a b : UInt64) : a / 2 < b ↔ a.toNat < 2 * b.toNat := by
  rw [UInt64.lt_iff_toNat_lt, UInt64.toNat_div]
  change a.toNat / 2 < b.toNat ↔ _
  omega

namespace Hierarchy

/-! ## Sums of shares -/

/-- What the voters of group `g` that satisfy `p` weigh together. -/
def weightIn (shares : List (ServerId × Share)) (g : GroupId) (p : ServerId → Bool) : Nat :=
  weigh (fun e => e.2.weight.toNat) (fun e => e.2.group = g ∧ p e.1) shares

theorem weightIn_cons_true (e : ServerId × Share) (shares : List (ServerId × Share)) (g : GroupId) :
    weightIn (e :: shares) g (fun _ => true) =
      (if e.2.group = g then e.2.weight.toNat else 0) + weightIn shares g fun _ => true := by
  simp [weightIn, weigh_cons]

theorem weightIn_le_weightIn {l : List (ServerId × Share)} {p q : ServerId → Bool}
    (h : ∀ e ∈ l, 0 < e.2.weight → p e.1 → q e.1) (g : GroupId) :
    weightIn l g p ≤ weightIn l g q := by
  refine weigh_le_weigh fun e he hpos hp => ?_
  simp only [decide_eq_true_eq] at hp ⊢
  exact ⟨hp.1, h e he (UInt64.lt_iff_toNat_lt.mpr hpos) hp.2⟩

/-- What a step of adding up does to the total of every group. -/
theorem addShare_eq_ok {totals totals' : Table GroupId Weight} {id : ServerId} {s : Share}
    (h : addShare totals id s = .ok totals') (g : GroupId) :
    (totals'.get? g).isSome = ((totals.get? g).isSome || decide (s.group = g)) ∧
      ((totals'.get? g).getD 0).toNat =
        ((totals.get? g).getD 0).toNat + if s.group = g then s.weight.toNat else 0 := by
  simp only [addShare] at h
  split at h
  · rename_i hlt
    obtain rfl := Except.ok.inj h
    rw [Table.get?_insert]
    by_cases hg : s.group = g
    · subst hg
      rw [if_pos rfl, if_pos rfl]
      refine ⟨by simp, ?_⟩
      rw [Option.getD_some, UInt64.toNat_add, Nat.mod_eq_of_lt hlt]
    · simp [hg]
  · cases h

/-- The totals of groups, as sums: adding up from `totals` on. -/
theorem toNat_getD_foldlM_addShare {shares : List (ServerId × Share)} :
    ∀ {totals totals' : Table GroupId Weight},
      shares.foldlM (fun t e => addShare t e.1 e.2) totals = .ok totals' → ∀ g,
      (totals'.get? g).isSome = ((totals.get? g).isSome || shares.any (·.2.group = g)) ∧
        ((totals'.get? g).getD 0).toNat =
          ((totals.get? g).getD 0).toNat + weightIn shares g fun _ => true := by
  induction shares with
  | nil =>
    intro totals totals' h g
    obtain rfl := Except.ok.inj h
    simp [weightIn]
  | cons e shares ih =>
    intro totals totals' h g
    rw [List.foldlM_cons] at h
    cases hstep : addShare totals e.1 e.2 with
    | error err => rw [hstep] at h; cases h
    | ok next =>
      rw [hstep] at h
      obtain ⟨hsome, hsum⟩ := ih h g
      obtain ⟨hsome', hsum'⟩ := addShare_eq_ok hstep g
      refine ⟨by rw [hsome, hsome', List.any_cons, Bool.or_assoc], ?_⟩
      rw [hsum, hsum', weightIn_cons_true, Nat.add_assoc]

theorem exists_addShare {totals : Table GroupId Weight} {id : ServerId} {s : Share}
    (h : ((totals.get? s.group).getD 0).toNat + s.weight.toNat < UInt64.size) :
    ∃ totals', addShare totals id s = .ok totals' := by
  rw [addShare, if_pos h]
  exact ⟨_, rfl⟩

/-- Shares can be added up from `totals` on exactly if the total of every group fits a word. -/
theorem exists_foldlM_addShare_iff {shares : List (ServerId × Share)}
    {totals : Table GroupId Weight} :
    (∃ totals', shares.foldlM (fun t e => addShare t e.1 e.2) totals = .ok totals') ↔
      ∀ g, ((totals.get? g).getD 0).toNat + weightIn shares g (fun _ => true) < UInt64.size := by
  constructor
  · rintro ⟨totals', h⟩ g
    rw [← (toNat_getD_foldlM_addShare h g).2]
    exact UInt64.toNat_lt_size _
  · intro h
    induction shares generalizing totals with
    | nil => exact ⟨totals, rfl⟩
    | cons e shares ih =>
      have hfits : ((totals.get? e.2.group).getD 0).toNat + e.2.weight.toNat < UInt64.size := by
        have hg := h e.2.group
        rw [weightIn_cons_true, if_pos rfl] at hg
        omega
      obtain ⟨next, hnext⟩ := @exists_addShare totals e.1 e.2 hfits
      rw [List.foldlM_cons, hnext]
      refine ih fun g => ?_
      rw [(addShare_eq_ok hnext g).2, Nat.add_assoc, ← weightIn_cons_true]
      exact h g

variable (h : Hierarchy)

/-- **Group totals are exact**; a group without members has none. -/
theorem toNat_getD_groupWeight? (g : GroupId) :
    ((h.groupWeight? g).getD 0).toNat = weightIn h.shares.toList g fun _ => true := by
  have := (toNat_getD_foldlM_addShare h.groupTotals_shares g).2
  simpa [groupWeight?] using this

theorem isSome_groupWeight? (g : GroupId) :
    (h.groupWeight? g).isSome = h.shares.toList.any (·.2.group = g) := by
  have := (toNat_getD_foldlM_addShare h.groupTotals_shares g).1
  simpa [groupWeight?] using this

theorem weightIn_lt (g : GroupId) (p : ServerId → Bool) :
    weightIn h.shares.toList g p < UInt64.size :=
  calc weightIn h.shares.toList g p ≤ weightIn h.shares.toList g fun _ => true :=
        weightIn_le_weightIn (fun _ _ _ _ => rfl) g
    _ < UInt64.size := by rw [← toNat_getD_groupWeight?]; exact UInt64.toNat_lt_size _

theorem toNat_addSaturating (a b : Weight) :
    (addSaturating a b).toNat = min (a.toNat + b.toNat) (UInt64.size - 1) := by
  unfold addSaturating
  rw [UInt64.toNat_ofNat_of_lt']
  have : 0 < UInt64.size := by decide
  omega

/-! ### Acknowledgements -/

/-- The shares of some ids, of those that have one. -/
def sharesAmong (ids : List ServerId) : List (ServerId × Share) :=
  ids.filterMap fun id => (h.shares.get? id).map (id, ·)

theorem mem_sharesAmong_iff {ids : List ServerId} {e : ServerId × Share} :
    e ∈ h.sharesAmong ids ↔ e ∈ h.shares.toList ∧ e.1 ∈ ids := by
  simp only [sharesAmong, List.mem_filterMap, Option.map_eq_some_iff, Table.get?_eq_some_iff]
  constructor
  · rintro ⟨id, hid, s, hs, rfl⟩
    exact ⟨hs, hid⟩
  · rintro ⟨he, hid⟩
    exact ⟨e.1, hid, e.2, he, rfl⟩

/-- Along ids that are listed once, every share of theirs is met once. -/
theorem perm_sharesAmong {ids : List ServerId} (hids : ids.Nodup) :
    (h.sharesAmong ids).Perm (h.shares.toList.filter fun e => e.1 ∈ ids) := by
  have hnodup : (h.sharesAmong ids).Nodup := by
    refine hids.filterMap fun id id' e he he' => ?_
    obtain ⟨s, -, rfl⟩ := Option.map_eq_some_iff.mp he
    obtain ⟨s', -, heq⟩ := Option.map_eq_some_iff.mp he'
    exact (congrArg Prod.fst heq).symm
  refine (List.perm_ext_iff_of_nodup hnodup (h.shares.nodup_toList.filter _)).mpr fun e => ?_
  rw [mem_sharesAmong_iff, List.mem_filter, decide_eq_true_eq]

theorem weightIn_sharesAmong {ids : List ServerId} (hids : ids.Nodup) (g : GroupId) :
    weightIn (h.sharesAmong ids) g (fun _ => true) = weightIn h.shares.toList g (· ∈ ids) := by
  have hperm := ((h.perm_sharesAmong hids).filter fun e => e.2.group = g ∧ true).map
    fun e => e.2.weight.toNat
  rw [weightIn, weigh, hperm.sum_eq, List.filter_filter]
  simp [weightIn, weigh, Bool.decide_and]

/-- Ids without a share are skipped. -/
theorem ackedWeights_eq (ids : List ServerId) :
    h.ackedWeights ids = (h.sharesAmong ids).foldl (fun acked e => addAcked acked e.2) .empty := by
  rw [ackedWeights, sharesAmong, List.foldl_filterMap]
  refine congrArg (fun f => List.foldl f _ ids) (funext₂ fun acked id => ?_)
  cases h.shares.get? id <;> rfl

variable {h} in
/-- A share is added in full to what is acknowledged of its group, if the sum fits a word. -/
theorem toNat_getD_addAcked {acked : Table GroupId Weight} {s : Share}
    (hfits : ((acked.get? s.group).getD 0).toNat + s.weight.toNat < UInt64.size) (g : GroupId) :
    (((addAcked acked s).get? g).getD 0).toNat =
      ((acked.get? g).getD 0).toNat + if s.group = g then s.weight.toNat else 0 := by
  rw [addAcked, Table.get?_insert]
  by_cases hg : s.group = g
  · subst hg
    rw [if_pos rfl, if_pos rfl, Option.getD_some, toNat_addSaturating]
    omega
  · rw [if_neg hg, if_neg hg, Nat.add_zero]

variable {h} in
/-- Adding up with saturation from `acked` on is exact as long as the sums fit a word. -/
theorem toNat_getD_foldl_addAcked {shares : List (ServerId × Share)} :
    ∀ {acked : Table GroupId Weight},
      (∀ g, ((acked.get? g).getD 0).toNat + weightIn shares g (fun _ => true) < UInt64.size) → ∀ g,
      (((shares.foldl (fun acked e => addAcked acked e.2) acked).get? g).getD 0).toNat =
        ((acked.get? g).getD 0).toNat + weightIn shares g fun _ => true := by
  induction shares with
  | nil => intro acked _ g; simp [weightIn]
  | cons e shares ih =>
    intro acked hfits g
    simp only [weightIn_cons_true] at hfits ⊢
    have hstep := @toNat_getD_addAcked acked e.2 (by
      have hgroup := hfits e.2.group
      rw [if_pos rfl] at hgroup
      omega)
    rw [List.foldl_cons, ih fun g => ?_, hstep, Nat.add_assoc]
    rw [hstep, Nat.add_assoc]
    exact hfits g

/-- **Acknowledged weights are exact.** -/
theorem toNat_getD_ackedWeights (acks : List ServerId) (g : GroupId) :
    (((h.ackedWeights (Table.distinct acks)).get? g).getD 0).toNat =
      weightIn h.shares.toList g (· ∈ acks) := by
  have hamong : ∀ g, weightIn (h.sharesAmong (Table.distinct acks)) g (fun _ => true) =
      weightIn h.shares.toList g (· ∈ acks) := by
    intro g
    rw [h.weightIn_sharesAmong (Table.nodup_distinct acks)]
    simp only [Table.mem_distinct_iff]
  rw [ackedWeights_eq, toNat_getD_foldl_addAcked, hamong]
  · exact Nat.zero_add _
  · intro g
    rw [hamong]
    exact Nat.lt_of_le_of_lt (Nat.zero_add _).le (h.weightIn_lt g _)

/-! ## Quorums -/

/-- Whether `acks` carry a group: they have more than half of its weight. -/
def carries (acks : List ServerId) (g : GroupId) : Bool :=
  weightIn h.shares.toList g (fun _ => true) < 2 * weightIn h.shares.toList g (· ∈ acks)

/-- Whether a group weighs anything. -/
def counts (g : GroupId) : Bool := 0 < weightIn h.shares.toList g fun _ => true

theorem counts_of_carries {acks : List ServerId} {g : GroupId} (hc : h.carries acks g) :
    h.counts g := by
  have hle : weightIn h.shares.toList g (· ∈ acks) ≤ weightIn h.shares.toList g fun _ => true :=
    weightIn_le_weightIn (fun _ _ _ _ => rfl) g
  simp only [carries, counts, decide_eq_true_eq] at hc ⊢
  omega

theorem toNat_of_mem_groupWeights {e : GroupId × Weight} (he : e ∈ h.groupWeights.toList) :
    e.2.toNat = weightIn h.shares.toList e.1 fun _ => true := by
  have hget : h.groupWeight? e.1 = some e.2 := Table.get?_eq_some_iff.mpr he
  rw [← toNat_getD_groupWeight?, hget, Option.getD_some]

/-- A group of which anything is listed is in the table. -/
theorem mem_keys_of_pos {t : Table GroupId Weight} {g : GroupId}
    (hpos : 0 < ((t.get? g).getD 0).toNat) : g ∈ t.keys := by
  rw [Table.mem_keys_iff]
  cases hget : t.get? g with
  | none =>
    rw [hget] at hpos
    cases hpos
  | some w => exact ⟨w, rfl⟩

/-- A group that weighs anything has a total. -/
theorem mem_keys_groupWeights {g : GroupId} (hg : h.counts g) : g ∈ h.groupWeights.keys := by
  refine mem_keys_of_pos ?_
  have hpos := of_decide_eq_true hg
  rwa [← toNat_getD_groupWeight?] at hpos

theorem numGroups_eq_countP : h.numGroups = h.groupWeights.keys.countP h.counts := by
  rw [h.numGroups_eq, Table.values, Table.keys, List.countP_map, List.countP_map]
  refine List.countP_congr fun e he => ?_
  have := h.toNat_of_mem_groupWeights he
  simp only [Function.comp_apply, decide_eq_true_eq, counts, UInt64.lt_iff_toNat_lt, ← this]
  exact Iff.rfl

/-- The groups that are found to be carried are those of which `acks` have more than half. -/
theorem countP_carried_eq (acks : List ServerId) :
    ((h.ackedWeights (Table.distinct acks)).toList.countP fun e =>
      (h.groupWeights.get? e.1).getD 0 / 2 < e.2) = h.groupWeights.keys.countP (h.carries acks) := by
  have hkeys : ((h.ackedWeights (Table.distinct acks)).toList.countP fun e =>
      (h.groupWeights.get? e.1).getD 0 / 2 < e.2) =
        (h.ackedWeights (Table.distinct acks)).keys.countP (h.carries acks) := by
    rw [Table.keys, List.countP_map]
    refine List.countP_congr fun e he => ?_
    have hacked := h.toNat_getD_ackedWeights acks e.1
    rw [Table.get?_eq_some_iff.mpr he, Option.getD_some] at hacked
    have htotal := h.toNat_getD_groupWeight? e.1
    rw [groupWeight?] at htotal
    simp only [Function.comp_apply, decide_eq_true_eq, carries, half_lt_iff, hacked, htotal]
  rw [hkeys]
  refine countP_eq_of_nodup (Table.nodup_keys _) (Table.nodup_keys _) fun g =>
    and_congr_left fun hg => ?_
  refine iff_of_true (mem_keys_of_pos ?_) (h.mem_keys_groupWeights (h.counts_of_carries hg))
  rw [toNat_getD_ackedWeights]
  have := of_decide_eq_true hg
  omega

/-- Without acknowledgements the loop would come to the same. -/
theorem containsQuorum_eq (acks : List ServerId) : h.containsQuorum acks =
    decide (h.numGroups / 2 < (h.ackedWeights (Table.distinct acks)).toList.countP fun e =>
      (h.groupWeights.get? e.1).getD 0 / 2 < e.2) := by
  cases acks with
  | nil => exact (decide_eq_false (Nat.not_lt_zero _)).symm
  | cons id acks => rfl

/-- **A quorum** carries more than half of the groups that weigh anything. -/
theorem containsQuorum_iff (acks : List ServerId) :
    h.containsQuorum acks ↔
      h.groupWeights.keys.countP h.counts < 2 * h.groupWeights.keys.countP (h.carries acks) := by
  rw [containsQuorum_eq, countP_carried_eq, numGroups_eq_countP, decide_eq_true_eq]
  omega

end Hierarchy

end Ensemble
