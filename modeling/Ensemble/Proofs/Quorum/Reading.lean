import Ensemble.Proofs.Quorum.Entries

/-!
# The entries of a membership read back

The entries of a canonical text give the membership that they state exactly if the text of each
server gives that server (`Verifier.ofProperties_properties_iff`): ids, groups, weights and the
version always read back.
-/

namespace Ensemble

open Text

/-- A list that has the elements of an image is an image of a list with those elements. -/
theorem exists_map_ok_of_perm {ε α : Type} {l : List (Except ε α)} {xs : List α}
    (h : l.Perm (xs.map .ok)) : ∃ ys : List α, l = ys.map .ok ∧ ys.Perm xs := by
  have hok : ∀ r ∈ l, ∃ a, r = .ok a := by
    intro r hr
    obtain ⟨a, -, rfl⟩ := List.mem_map.mp (h.mem_iff.mp hr)
    exact ⟨a, rfl⟩
  have hself : (l.filterMap Except.toOption).map .ok = l := by
    clear h
    induction l with
    | nil => rfl
    | cons r l ih =>
      obtain ⟨a, rfl⟩ := hok r (by simp)
      have ih := ih fun r hr => hok r (by simp [hr])
      simpa [Except.toOption] using ih
  have hxs : (xs.map (Except.ok : α → Except ε α)).filterMap Except.toOption = xs := by
    rw [List.filterMap_map]
    exact List.filterMap_some
  exact ⟨_, hself.symm, hxs ▸ h.filterMap Except.toOption⟩

/-! ### Single entries -/

theorem readId_decimal (key : String) (id : UInt64) :
    Members.readId key (decimal id.toNat) = .ok id := by
  have htrim : trim (decimal id.toNat).toList = (decimal id.toNat).toList :=
    trim_eq_self (Endpoint.isTrimmed_decimal _)
  rw [Members.readId, htrim, String.ofList_toList, uint64?_decimal]
  rfl

theorem Server.ofText_trim_eq_ok_iff {id : ServerId} {text : String} {s : Server} :
    Server.ofText id (String.ofList (trim text.toList)) = .ok s ↔ Server.ofText id text = .ok s := by
  rw [Server.ofText_eq_ok_iff, Server.ofText_eq_ok_iff, String.toList_ofList, trim_trim]

namespace Verifier

theorem readServer?_key (id : ServerId) (value : String) :
    readServer? (Server.key id) value = some (Server.ofText id value) := by
  rw [readServer?, Server.key, MembershipKey.suffix?_append, Option.map_some, readId_decimal]
  exact congrArg some (pure_bind id fun i => Server.ofText i value)

theorem readServer?_of_head? {key value : String} (h : key.toList.head? ≠ some 's') :
    readServer? key value = none := by
  rw [readServer?, @MembershipKey.suffix?_of_head? _ _ 's' (by decide) h]
  rfl

end Verifier

namespace Hierarchy

/-- The group that an entry states. `none` for an entry of another kind. -/
def readGroup? (key value : String) :
    Option (Except ConfigError (GroupId × List ServerId)) :=
  (MembershipKey.suffix? MembershipKey.group key).map fun suffix => do
    return (← Members.readId key suffix, ← readGroup key value)

/-- The weight that an entry states. `none` for an entry of another kind. -/
def readWeight? (key value : String) : Option (Except ConfigError (ServerId × Weight)) :=
  (MembershipKey.suffix? MembershipKey.weight key).map fun suffix => do
    return (← Members.readId key suffix, ← readWeight key value)

theorem readGroup?_of_head? {key value : String} (h : key.toList.head? ≠ some 'g') :
    readGroup? key value = none := by
  rw [readGroup?, @MembershipKey.suffix?_of_head? _ _ 'g' (by decide) h]
  rfl

theorem readWeight?_of_head? {key value : String} (h : key.toList.head? ≠ some 'w') :
    readWeight? key value = none := by
  rw [readWeight?, @MembershipKey.suffix?_of_head? _ _ 'w' (by decide) h]
  rfl

theorem readWeight_decimal (key : String) (w : Weight) :
    readWeight key (decimal w.toNat) = .ok w := by
  have htrim : trim (decimal w.toNat).toList = (decimal w.toNat).toList :=
    trim_eq_self (Endpoint.isTrimmed_decimal _)
  rw [readWeight, htrim, String.ofList_toList, uint64?_decimal]
  rfl

theorem mapM_readId (key : String) (ids : List ServerId) :
    (ids.map fun id => (decimal id.toNat).toList).mapM
      (fun part => Members.readId key (String.ofList part)) = .ok ids := by
  induction ids with
  | nil => rfl
  | cons id ids ih =>
    rw [List.map_cons, List.mapM_cons, String.ofList_toList, readId_decimal, ih]
    rfl

theorem readGroup_intercalate (key : String) {ids : List ServerId} (hne : ids ≠ []) :
    readGroup key (String.ofList (trim
      ([':'].intercalate (ids.map fun id => (decimal id.toNat).toList)))) = .ok ids := by
  have hdigits : ∀ p ∈ ids.map fun id => (decimal id.toNat).toList, ∃ n, p = (decimal n).toList := by
    intro p hp
    obtain ⟨id, -, rfl⟩ := List.mem_map.mp hp
    exact ⟨_, rfl⟩
  have htrim : trim ([':'].intercalate (ids.map fun id => (decimal id.toNat).toList)) =
      [':'].intercalate (ids.map fun id => (decimal id.toNat).toList) := by
    refine trim_eq_self (Server.isTrimmed_intercalate fun p hp => ?_)
    obtain ⟨n, rfl⟩ := hdigits p hp
    exact Endpoint.isTrimmed_decimal n
  have hfields : fields ':' ([':'].intercalate (ids.map fun id => (decimal id.toNat).toList)) =
      ids.map fun id => (decimal id.toNat).toList := by
    refine fields_intercalate (by simpa using hne) fun p hp hc => ?_
    obtain ⟨n, rfl⟩ := hdigits p hp
    exact absurd (isAlphanum_of_mem_decimal hc) (by decide)
  have htrims : (ids.map fun id => (decimal id.toNat).toList).map trim =
      ids.map fun id => (decimal id.toNat).toList := by
    rw [List.map_map]
    exact List.map_congr_left fun id _ => trim_eq_self (Endpoint.isTrimmed_decimal _)
  have hfilter : (ids.map fun id => (decimal id.toNat).toList).filter (· ≠ []) =
      ids.map fun id => (decimal id.toNat).toList := by
    refine List.filter_eq_self.mpr fun p hp => ?_
    obtain ⟨id, -, rfl⟩ := List.mem_map.mp hp
    simp [decimal, Nat.toDigits_ne_nil]
  rw [readGroup, htrim, String.toList_ofList, hfields, htrims, hfilter, mapM_readId]

theorem readGroup?_key (g : GroupId) {ids : List ServerId} (hne : ids ≠ []) :
    readGroup? (groupKey g) (String.ofList (trim (groupEntry (g, ids)).2)) =
      some (.ok (g, ids)) := by
  rw [readGroup?, groupKey, MembershipKey.suffix?_append, Option.map_some, readId_decimal,
    groupEntry, readGroup_intercalate _ hne]
  rfl

theorem readWeight?_key (e : ServerId × Weight) :
    readWeight? (weightKey e.1) (String.ofList (trim (weightEntry e).2)) = some (.ok e) := by
  have htrim : trim (decimal e.2.toNat).toList = (decimal e.2.toNat).toList :=
    trim_eq_self (Endpoint.isTrimmed_decimal _)
  rw [readWeight?, weightKey, MembershipKey.suffix?_append, Option.map_some, readId_decimal,
    weightEntry, htrim, String.ofList_toList, readWeight_decimal]
  rfl

/-! ### Groups and weights together -/

/-- What an entry adds to the groups and the weights. -/
def readStep (read : Table GroupId (List ServerId) × Table ServerId Weight)
    (entry : String × String) :
    Except ConfigError (Table GroupId (List ServerId) × Table ServerId Weight) :=
  match MembershipKey.suffix? MembershipKey.group entry.1 with
  | some suffix => do
    let g ← Members.readId entry.1 suffix
    return (read.1.insert g (← readGroup entry.1 entry.2), read.2)
  | none => match MembershipKey.suffix? MembershipKey.weight entry.1 with
    | some suffix => do
      let id ← Members.readId entry.1 suffix
      return (read.1, read.2.insert id (← readWeight entry.1 entry.2))
    | none => pure read

theorem readGroups_eq_foldlM (props : Properties) :
    readGroups props = props.toList.foldlM readStep (.empty, .empty) := rfl

section Step

variable {read : Table GroupId (List ServerId) × Table ServerId Weight} {e : String × String}

theorem readStep_of_group {g : GroupId × List ServerId}
    (h : readGroup? e.1 e.2 = some (.ok g)) :
    readStep read e = .ok (read.1.insert g.1 g.2, read.2) := by
  obtain ⟨suffix, hsuffix, h⟩ := Option.map_eq_some_iff.mp h
  obtain ⟨id, hid, h⟩ := Except.bind_eq_ok_iff.mp h
  obtain ⟨ids, hids, h⟩ := Except.bind_eq_ok_iff.mp h
  obtain rfl := Except.ok.inj h
  simp only [readStep, hsuffix, hid, hids]
  rfl

theorem readStep_of_weight {w : ServerId × Weight} (hg : readGroup? e.1 e.2 = none)
    (h : readWeight? e.1 e.2 = some (.ok w)) :
    readStep read e = .ok (read.1, read.2.insert w.1 w.2) := by
  have hnone := Option.map_eq_none_iff.mp hg
  obtain ⟨suffix, hsuffix, h⟩ := Option.map_eq_some_iff.mp h
  obtain ⟨id, hid, h⟩ := Except.bind_eq_ok_iff.mp h
  obtain ⟨n, hn, h⟩ := Except.bind_eq_ok_iff.mp h
  obtain rfl := Except.ok.inj h
  simp only [readStep, hnone, hsuffix, hid, hn]
  rfl

theorem readStep_of_none (hg : readGroup? e.1 e.2 = none)
    (hw : readWeight? e.1 e.2 = none) : readStep read e = .ok read := by
  simp only [readStep, Option.map_eq_none_iff.mp hg, Option.map_eq_none_iff.mp hw]
  rfl

theorem readWeight?_of_group {r : Except ConfigError (GroupId × List ServerId)}
    (h : readGroup? e.1 e.2 = some r) : readWeight? e.1 e.2 = none := by
  apply readWeight?_of_head?
  intro hw
  rw [readGroup?_of_head? (by rw [hw]; decide)] at h
  cases h

end Step

theorem foldlM_readStep {es : List (String × String)} {gs : List (GroupId × List ServerId)}
    {ws : List (ServerId × Weight)}
    (hgs : es.filterMap (fun e => readGroup? e.1 e.2) = gs.map .ok)
    (hws : es.filterMap (fun e => readWeight? e.1 e.2) = ws.map .ok)
    (read : Table GroupId (List ServerId) × Table ServerId Weight) :
    es.foldlM readStep read = .ok (gs.foldl (fun t e => t.insert e.1 e.2) read.1,
      ws.foldl (fun t e => t.insert e.1 e.2) read.2) := by
  induction es generalizing gs ws read with
  | nil =>
    obtain rfl := List.map_eq_nil_iff.mp hgs.symm
    obtain rfl := List.map_eq_nil_iff.mp hws.symm
    rfl
  | cons e es ih =>
    rw [List.foldlM_cons]
    rw [List.filterMap_cons] at hgs hws
    cases hg : readGroup? e.1 e.2 with
    | some r =>
      simp only [hg] at hgs
      simp only [readWeight?_of_group hg] at hws
      obtain ⟨g, gs, rfl, rfl, hrest⟩ := List.map_eq_cons_iff.mp hgs.symm
      rw [readStep_of_group hg]
      exact ih hrest.symm hws _
    | none =>
      simp only [hg] at hgs
      cases hw : readWeight? e.1 e.2 with
      | some r =>
        simp only [hw] at hws
        obtain ⟨w, ws, rfl, rfl, hrest⟩ := List.map_eq_cons_iff.mp hws.symm
        rw [readStep_of_weight hg hw]
        exact ih hgs hrest.symm _
      | none =>
        simp only [hw] at hws
        rw [readStep_of_none hg hw]
        exact ih hgs hws _

/-- Entries that state the groups and the weights of tables, in any order, give these tables. -/
theorem readGroups_eq_ok {props : Properties} {groups : Table GroupId (List ServerId)}
    {weights : Table ServerId Weight}
    (hgs : (props.toList.filterMap fun e => readGroup? e.1 e.2).Perm (groups.toList.map .ok))
    (hws : (props.toList.filterMap fun e => readWeight? e.1 e.2).Perm
      (weights.toList.map .ok)) : readGroups props = .ok (groups, weights) := by
  obtain ⟨gs, hgs, hgroups⟩ := exists_map_ok_of_perm hgs
  obtain ⟨ws, hws, hweights⟩ := exists_map_ok_of_perm hws
  rw [readGroups_eq_foldlM, foldlM_readStep hgs hws]
  exact congrArg Except.ok (Prod.ext (Table.ofList_eq_of_perm hgroups)
    (Table.ofList_eq_of_perm hweights))

end Hierarchy

/-! ### The entries of a verifier -/

theorem Strategy.detect_eq_hierarchical_iff {props : Properties} :
    detect props = .hierarchical ↔ ∃ key ∈ props.keys,
      MembershipKey.startsWith MembershipKey.group key ∨
        MembershipKey.startsWith MembershipKey.weight key := by
  simp only [← Bool.or_eq_true, ← List.any_eq_true, detect]
  split <;> simp_all

namespace Verifier

variable (v : Verifier)

theorem filterMap_eq_nil_of_head? {β : Type} (f : String → String → Option β) (c : Char)
    (hf : ∀ key value, key.toList.head? ≠ some c → f key value = none)
    {es : List (List Char × List Char)} (h : ∀ e ∈ es, e.1.head? ≠ some c) :
    es.filterMap (fun e => f (readPair e).1 (readPair e).2) = [] := by
  rw [List.filterMap_eq_nil_iff]
  intro e he
  exact hf _ _ (by simpa [readPair] using h e he)

theorem perm_filterMap_properties {β : Type} (f : String → String → Option β) :
    (v.properties.toList.filterMap fun e => f e.1 e.2).Perm
      (v.entries.filterMap fun e => f (readPair e).1 (readPair e).2) := by
  have h := v.perm_toList_properties.filterMap fun e => f e.1 e.2
  rw [List.filterMap_map] at h
  exact h

theorem readPair_entry (s : Server) :
    readPair s.entry = (Server.key s.id, String.ofList (trim s.text.toList)) := by
  simp [readPair, Server.entry]

theorem perm_declared_properties : (Members.declared v.properties).Perm
    (v.members.table.values.map fun s =>
      Server.ofText s.id (String.ofList (trim s.text.toList))) := by
  refine (v.perm_filterMap_properties readServer?).trans (List.Perm.of_eq ?_)
  have hrest : (v.groupEntries ++ (v.weightEntries ++ [v.version.entry])).filterMap
      (fun e => readServer? (readPair e).1 (readPair e).2) = [] := by
    refine filterMap_eq_nil_of_head? readServer? 's' (fun _ _ => readServer?_of_head?) fun e he => ?_
    rcases v.head?_of_mem_groups_weights_version he with h | h | h <;> rw [h] <;> decide
  rw [entries, List.filterMap_append, hrest, List.append_nil, serverEntries, List.filterMap_map]
  rw [← List.filterMap_eq_map]
  refine List.filterMap_congr fun s _ => ?_
  rw [Function.comp_apply, readPair_entry]
  exact readServer?_key _ _

/-- The members are read back exactly if each server is read back from its text. -/
theorem membersOfProperties_properties_iff :
    Members.ofProperties v.properties = .ok v.members ↔
      ∀ s ∈ v.members.table.values, Server.ofText s.id s.text = .ok s := by
  have hperm := v.perm_declared_properties
  rw [Members.ofProperties_eq_ok_iff]
  constructor
  · rintro ⟨servers, hdeclared, hservers⟩ s hs
    have hmem : Server.ofText s.id (String.ofList (trim s.text.toList)) ∈
        Members.declared v.properties := hperm.mem_iff.mpr (List.mem_map_of_mem hs)
    rw [hdeclared] at hmem
    obtain ⟨s', hs', hread⟩ := List.mem_map.mp hmem
    have hok := Server.ofText_trim_eq_ok_iff.mp hread.symm
    have hid : s'.id = s.id := (Server.ofText_eq_ok_iff.mp hok).1
    have hget := Members.mem_values_iff.mp (hservers.mem_iff.mpr hs')
    rw [hid, Members.mem_values_iff.mp hs] at hget
    rw [hok, Option.some.inj hget]
  · intro hread
    have hmap : (v.members.table.values.map fun s =>
        Server.ofText s.id (String.ofList (trim s.text.toList))) = v.members.table.values.map .ok :=
      List.map_congr_left fun s hs => Server.ofText_trim_eq_ok_iff.mpr (hread s hs)
    rw [hmap] at hperm
    obtain ⟨servers, hdeclared, hservers⟩ := exists_map_ok_of_perm hperm
    exact ⟨servers, hdeclared, hservers.symm⟩

theorem versionOfProperties_properties :
    Version.ofProperties v.properties = .ok v.version := by
  have hmem : readPair v.version.entry ∈ v.properties.toList := by
    refine v.perm_toList_properties.mem_iff.mpr (List.mem_map_of_mem ?_)
    simp [entries]
  have hget : v.properties.get? MembershipKey.version = some (hex v.version.toNat) := by
    rw [Table.get?_eq_some_iff]
    simpa [readPair, Version.entry, trim_hex] using hmem
  rw [Version.ofProperties, hget]
  simp only [trim_hex, String.ofList_toList, hex64?_hex]
  rfl

theorem mem_keys_properties {key : String} (h : key ∈ v.properties.keys) :
    ∃ e ∈ v.entries, key = String.ofList e.1 := by
  obtain ⟨p, hp, rfl⟩ := List.mem_map.mp h
  obtain ⟨e, he, rfl⟩ := List.mem_map.mp (v.perm_toList_properties.mem_iff.mp hp)
  exact ⟨e, he, rfl⟩

theorem not_startsWith_of_head? {stem key : String} {c : Char} (hs : stem.toList.head? = some c)
    (hc : c ≠ 's' ∧ c ≠ 'v') (h : key.toList.head? = some 's' ∨ key.toList.head? = some 'v') :
    ¬ MembershipKey.startsWith stem key := by
  rw [MembershipKey.startsWith_of_head? hs (by rcases h with h | h <;> simp [h, hc, eq_comm])]
  exact Bool.false_ne_true

/-- No entry of a majority states a group or a weight. -/
theorem detect_majority (m : Majority) :
    Strategy.detect (Verifier.majority m).properties = .majority := by
  have hnone : Strategy.detect (Verifier.majority m).properties ≠ .hierarchical := by
    rw [Ne, Strategy.detect_eq_hierarchical_iff]
    rintro ⟨key, hkey, hstem⟩
    obtain ⟨e, he, rfl⟩ := mem_keys_properties _ hkey
    have hhead : (String.ofList e.1).toList.head? = some 's' ∨
        (String.ofList e.1).toList.head? = some 'v' := by
      rw [String.toList_ofList]
      rcases List.mem_append.mp he with he | he
      · exact Or.inl ((isBlock_serverEntries _).head?_of_mem he)
      · exact Or.inr (head?_version _ e he)
    rcases hstem with hstem | hstem
    · exact not_startsWith_of_head? (c := 'g') (by decide) (by decide) hhead hstem
    · exact not_startsWith_of_head? (c := 'w') (by decide) (by decide) hhead hstem
  cases h : Strategy.detect (Verifier.majority m).properties with
  | majority => rfl
  | hierarchical => exact absurd h hnone

/-- Somebody votes in a hierarchy, and an entry states what the vote weighs. -/
theorem detect_hierarchical (h : Hierarchy) :
    Strategy.detect (Verifier.hierarchical h).properties = .hierarchical := by
  obtain ⟨w, hw⟩ : ∃ w, w ∈ h.weights.toList := by
    apply List.exists_mem_of_ne_nil
    intro hnil
    have hkeys : h.members.voting.keys = [] := by
      rw [← Members.voterIds, ← h.keys_shares, Table.keys, List.map_eq_nil_iff]
      exact List.map_eq_nil_iff.mp hnil
    exact Members.voterIds_ne_nil_iff.mpr h.voting_ne_empty hkeys
  have hmem : readPair (Hierarchy.weightEntry w) ∈ (Verifier.hierarchical h).properties.toList := by
    refine (perm_toList_properties _).mem_iff.mpr (List.mem_map_of_mem ?_)
    simp only [entries, weightEntries, List.mem_append]
    exact Or.inr (Or.inr (Or.inl (List.mem_map_of_mem hw)))
  have hkey : Hierarchy.weightKey w.1 ∈ (Verifier.hierarchical h).properties.keys := by
    simpa [readPair, Hierarchy.weightEntry] using Table.mem_keys_of_mem hmem
  exact Strategy.detect_eq_hierarchical_iff.mpr
    ⟨_, hkey, Or.inr (MembershipKey.startsWith_append _ _)⟩

theorem detect_properties : Strategy.detect v.properties = v.strategy := by
  cases v with
  | majority m => exact detect_majority m
  | hierarchical h => exact detect_hierarchical h

theorem readGroups_properties (h : Hierarchy) :
    Hierarchy.readGroups (Verifier.hierarchical h).properties = .ok (h.groups, h.weights) := by
  apply Hierarchy.readGroups_eq_ok
  · refine (perm_filterMap_properties _ Hierarchy.readGroup?).trans (List.Perm.of_eq ?_)
    have hother := @filterMap_eq_nil_of_head? _ Hierarchy.readGroup? 'g'
      fun _ _ => Hierarchy.readGroup?_of_head?
    have hservers := hother fun e he => by
      rw [(isBlock_serverEntries (.hierarchical h)).head?_of_mem he]
      decide
    have hrest := hother fun e he => by
      rcases head?_of_mem_weights_version (.hierarchical h) he with hc | hc <;> rw [hc] <;> decide
    rw [entries, List.filterMap_append, List.filterMap_append, hservers, hrest, List.nil_append,
      List.append_nil, groupEntries, List.filterMap_map, ← List.filterMap_eq_map]
    refine List.filterMap_congr fun g hg => ?_
    have hne : g.2 ≠ [] := (Hierarchy.mem_groups_iff.mp hg).1
    simp only [Function.comp_apply, readPair, Hierarchy.groupEntry, String.ofList_toList]
    exact Hierarchy.readGroup?_key g.1 hne
  · refine (perm_filterMap_properties _ Hierarchy.readWeight?).trans (List.Perm.of_eq ?_)
    have hother := @filterMap_eq_nil_of_head? _ Hierarchy.readWeight? 'w'
      fun _ _ => Hierarchy.readWeight?_of_head?
    have hservers := hother fun e he => by
      rw [(isBlock_serverEntries (.hierarchical h)).head?_of_mem he]
      decide
    have hgroups := hother fun e he => by
      rw [(isBlock_groupEntries (.hierarchical h)).head?_of_mem he]
      decide
    have hversion := hother fun e he => by
      rw [head?_version (.hierarchical h) e he]
      decide
    rw [entries, List.filterMap_append, List.filterMap_append, List.filterMap_append, hservers,
      hgroups, hversion, List.nil_append, List.nil_append, List.append_nil, weightEntries,
      List.filterMap_map, ← List.filterMap_eq_map]
    refine List.filterMap_congr fun w _ => ?_
    simp only [Function.comp_apply, readPair, Hierarchy.weightEntry, String.ofList_toList]
    exact Hierarchy.readWeight?_key w

variable {v}

/-- The members of a verifier that is read are those of the entries. -/
theorem membersOfProperties_of_ofProperties {props : Properties} (h : ofProperties props = .ok v) :
    Members.ofProperties props = .ok v.members := by
  unfold ofProperties at h
  split at h
  · obtain ⟨m, hm, rfl⟩ := Except.map_eq_ok_iff.mp h
    obtain ⟨members, hmembers, hm⟩ := Except.bind_eq_ok_iff.mp hm
    obtain ⟨version, -, hm⟩ := Except.bind_eq_ok_iff.mp hm
    cases hm
    exact hmembers
  · obtain ⟨h', hh, rfl⟩ := Except.map_eq_ok_iff.mp h
    obtain ⟨members, hmembers, hh⟩ := Except.bind_eq_ok_iff.mp hh
    obtain ⟨groups, -, hh⟩ := Except.bind_eq_ok_iff.mp hh
    obtain ⟨version, -, hmake⟩ := Except.bind_eq_ok_iff.mp hh
    obtain ⟨rfl, -⟩ := Hierarchy.make_eq_ok_iff.mp hmake
    exact hmembers

variable (v)

/-- **The entries of a canonical text** give the membership back exactly if the text of each server
gives that server. -/
theorem ofProperties_properties_iff :
    ofProperties v.properties = .ok v ↔
      ∀ s ∈ v.members.table.values, Server.ofText s.id s.text = .ok s := by
  rw [← membersOfProperties_properties_iff]
  refine ⟨membersOfProperties_of_ofProperties, fun hmembers => ?_⟩
  rw [ofProperties, detect_properties]
  have hversion := v.versionOfProperties_properties
  cases v with
  | majority m =>
    refine Except.map_eq_ok_iff.mpr ⟨m, ?_, rfl⟩
    rw [Majority.ofProperties, hmembers, hversion]
    exact congrArg Except.ok m.ofMembers_members
  | hierarchical h =>
    refine Except.map_eq_ok_iff.mpr ⟨h, ?_, rfl⟩
    rw [Hierarchy.ofProperties, hmembers, readGroups_properties, hversion]
    exact h.make_groups

end Verifier

end Ensemble
