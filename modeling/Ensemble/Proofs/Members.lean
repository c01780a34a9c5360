import Ensemble.Proofs.Except
import Ensemble.Proofs.Server
import Ensemble.Proofs.Table
import Ensemble.Quorum.Verifier

/-!
# Members by their servers

Servers make up members exactly if no two have the same id (`Members.exists_ofServers_iff`), and then
in any order (`Members.ofServers_eq_ok_iff`). Otherwise they are refused for the first id that has
occurred already (`Members.ofServers_eq_error_iff`). The members of properties are the servers that their
entries declare (`Members.ofProperties_eq_ok_iff`).
-/

namespace Ensemble

namespace Members

theorem eq_of_table {a b : Members} (h : a.table = b.table) : a = b := by
  cases a; cases b; cases h; rfl

/-- The entries of a table of members are its servers under their ids. -/
theorem toList_table (m : Members) : m.table.toList = m.table.values.map fun s => (s.id, s) := by
  unfold Table.values
  rw [List.map_map]
  refine ((List.map_congr_left fun e he => ?_).trans (List.map_id _)).symm
  simp [← m.keyed e he]

theorem map_snd_keyed (servers : List Server) :
    (servers.map fun s => (s.id, s)).map Prod.snd = servers := by
  simp [Function.comp_def]

theorem keys_table (m : Members) : m.table.keys = m.table.values.map Server.id := by
  rw [Table.keys, toList_table, List.map_map]
  rfl

theorem mem_values_iff {m : Members} {s : Server} :
    s ∈ m.table.values ↔ m.table.get? s.id = some s := by
  rw [Table.get?_eq_some_iff, toList_table]
  simp

/-! ### Servers -/

theorem add_eq_ok_iff {m m' : Members} {s : Server} :
    m.add s = .ok m' ↔ m'.table.toList.Perm ((s.id, s) :: m.table.toList) := by
  rw [Table.perm_cons_iff, add]
  by_cases h : s.id ∈ m.table.keys
  · rw [if_pos (Table.contains_iff.mpr h)]
    constructor
    · intro hm
      cases hm
    · rintro ⟨hs, -⟩
      exact absurd h hs
  · rw [if_neg fun hc => h (Table.contains_iff.mp hc)]
    constructor
    · intro hm
      cases hm
      exact ⟨h, rfl⟩
    · rintro ⟨-, ht⟩
      exact congrArg Except.ok (eq_of_table ht.symm)

theorem exists_perm_of_append {m : Members} {es es' : List (ServerId × Server)}
    (h : m.table.toList.Perm (es ++ es')) : ∃ m' : Members, m'.table.toList.Perm es' := by
  obtain ⟨t, ht⟩ := Table.exists_perm_of_append h
  refine ⟨⟨t, fun e he => ?_⟩, ht⟩
  exact m.keyed e (h.mem_iff.mpr (List.mem_append_right _ (ht.mem_iff.mp he)))

theorem foldlM_add_eq_ok_iff {servers : List Server} {m m' : Members} :
    servers.foldlM add m = .ok m' ↔
      m'.table.toList.Perm (servers.map (fun s => (s.id, s)) ++ m.table.toList) := by
  have hfold : servers.foldlM add m = .ok m' ↔ (∀ s ∈ servers, True) ∧
      m'.table.toList.Perm (servers.flatMap (fun s => [(s.id, s)]) ++ m.table.toList) :=
    List.foldlM_eq_ok_iff_perm (fun _ _ h => eq_of_table (Table.eq_of_perm h))
      (fun _ _ _ => exists_perm_of_append) (fun _ _ _ => by simpa using add_eq_ok_iff)
  rw [hfold, ← List.map_eq_flatMap]
  simp

/-- **Servers make up members** exactly if the members can be listed as those servers. -/
theorem ofServers_eq_ok_iff {servers : List Server} {m : Members} :
    ofServers servers = .ok m ↔ m.table.values.Perm servers := by
  rw [ofServers, foldlM_add_eq_ok_iff]
  simp only [empty, Table.empty, List.append_nil]
  constructor
  · intro h
    exact (h.map Prod.snd).trans (.of_eq (map_snd_keyed servers))
  · intro h
    rw [toList_table]
    exact h.map _

theorem exists_ofServers_iff {servers : List Server} :
    (∃ m, ofServers servers = .ok m) ↔ (servers.map Server.id).Nodup := by
  simp only [ofServers_eq_ok_iff]
  constructor
  · rintro ⟨m, hperm⟩
    have hnodup := m.table.nodup_keys
    rw [keys_table] at hnodup
    exact (hperm.map Server.id).nodup_iff.mp hnodup
  · intro hnodup
    have hkeys : ((servers.map fun s => (s.id, s)).map (·.1)).Nodup := by
      rwa [List.map_map]
    have hperm := Table.perm_toList_ofList hkeys
    have hkeyed : ∀ e ∈ (Table.ofList (servers.map fun s => (s.id, s))).toList, e.1 = e.2.id := by
      intro e he
      obtain ⟨s, -, rfl⟩ := List.mem_map.mp (hperm.mem_iff.mp he)
      rfl
    exact ⟨⟨_, hkeyed⟩, (hperm.map Prod.snd).trans (.of_eq (map_snd_keyed servers))⟩

/-! ### Repeated ids -/

/-- The first id in a list that has occurred already. -/
def IsFirstRepeat (id : ServerId) (ids : List ServerId) : Prop :=
  ∃ before after, ids = before ++ id :: after ∧ before.Nodup ∧ id ∈ before

theorem add_eq_error_iff {m : Members} {s : Server} {e : ConfigError} :
    m.add s = .error e ↔ s.id ∈ m.table.keys ∧ e = .duplicateServer s.id := by
  rw [add]
  by_cases h : s.id ∈ m.table.keys
  · rw [if_pos (Table.contains_iff.mpr h)]
    constructor
    · intro hadd
      cases hadd
      exact ⟨h, rfl⟩
    · rintro ⟨-, rfl⟩
      rfl
  · rw [if_neg fun hc => h (Table.contains_iff.mp hc)]
    constructor
    · intro hadd
      cases hadd
    · rintro ⟨hs, -⟩
      exact absurd hs h

theorem perm_keys_of_ofServers {servers : List Server} {m : Members}
    (h : ofServers servers = .ok m) : m.table.keys.Perm (servers.map Server.id) := by
  rw [keys_table]
  exact (ofServers_eq_ok_iff.mp h).map Server.id

/-- **Servers are refused** for the first id that has occurred already. -/
theorem ofServers_eq_error_iff {servers : List Server} {e : ConfigError} :
    ofServers servers = .error e ↔
      ∃ id, IsFirstRepeat id (servers.map Server.id) ∧ e = .duplicateServer id := by
  rw [ofServers, List.foldlM_eq_error_iff]
  constructor
  · rintro ⟨before, s, after, m, rfl, hbefore, hadd⟩
    obtain ⟨hs, rfl⟩ := add_eq_error_iff.mp hadd
    have hnodup : (before.map Server.id).Nodup := exists_ofServers_iff.mp ⟨m, hbefore⟩
    have hmem : s.id ∈ before.map Server.id := (perm_keys_of_ofServers hbefore).mem_iff.mp hs
    exact ⟨s.id, ⟨_, after.map Server.id, List.map_append, hnodup, hmem⟩, rfl⟩
  · rintro ⟨id, ⟨ids, rest, hids, hnodup, hmem⟩, rfl⟩
    obtain ⟨before, servers', rfl, rfl, hrest⟩ := List.map_eq_append_iff.mp hids
    obtain ⟨s, after, rfl, rfl, -⟩ := List.map_eq_cons_iff.mp hrest
    obtain ⟨m, hbefore⟩ := exists_ofServers_iff.mpr hnodup
    have hs : s.id ∈ m.table.keys := (perm_keys_of_ofServers hbefore).mem_iff.mpr hmem
    exact ⟨before, s, after, m, rfl, hbefore, add_eq_error_iff.mpr ⟨hs, rfl⟩⟩

/-- The id 1 comes again before 3 does. -/
example : ofServers [⟨3, none, none, .observer⟩, ⟨1, none, none, .participant⟩,
    ⟨1, none, none, .observer⟩, ⟨3, none, none, .observer⟩] = .error (.duplicateServer 1) := by
  rfl

/-! ### Voters -/

/-- The ids of the servers that vote. -/
def votersOf (servers : List Server) : List ServerId :=
  (servers.filter Server.isParticipant).map Server.id

theorem voterIds_eq (m : Members) : m.voterIds = votersOf m.table.values := by
  have hvoting : m.voting.toList =
      (m.table.values.filter Server.isParticipant).map fun s => (s.id, s) := by
    change m.table.toList.filter (fun e => e.2.isParticipant) = _
    rw [toList_table, List.filter_map]
    rfl
  rw [voterIds, Table.keys, hvoting, List.map_map]
  rfl

theorem voterIds_ne_nil_iff {m : Members} : m.voterIds ≠ [] ↔ m.voting.isEmpty = false := by
  rw [voterIds, Table.keys, ne_eq, List.map_eq_nil_iff, Table.isEmpty, List.isEmpty_eq_false_iff]

theorem perm_voterIds {servers : List Server} {m : Members} (h : ofServers servers = .ok m) :
    m.voterIds.Perm (votersOf servers) := by
  rw [voterIds_eq]
  exact ((ofServers_eq_ok_iff.mp h).filter _).map _

/-! ### Entries -/

/-- The servers that the entries of properties declare, in key order, or why one of them declares
none. -/
def declared (props : Properties) : List (Except ConfigError Server) :=
  props.toList.filterMap fun e => Verifier.readServer? e.1 e.2

theorem ofProperties_eq_foldlM (props : Properties) :
    ofProperties props = (declared props).foldlM (fun m r => do m.add (← r)) empty := by
  unfold ofProperties declared
  rw [List.foldlM_filterMap]
  congr 1
  funext m e
  unfold Verifier.readServer?
  cases MembershipKey.suffix? MembershipKey.server e.1 with
  | none => rfl
  | some suffix => simp

theorem foldlM_declared_eq_ok_iff {rs : List (Except ConfigError Server)} {m m' : Members} :
    rs.foldlM (fun m r => do m.add (← r)) m = .ok m' ↔
      ∃ servers : List Server, rs = servers.map .ok ∧ servers.foldlM add m = .ok m' := by
  induction rs generalizing m with
  | nil => simp
  | cons r rs ih =>
    rw [List.foldlM_cons, Except.bind_eq_ok_iff]
    constructor
    · rintro ⟨m₁, hr, hrest⟩
      obtain ⟨s, rfl, hadd⟩ := Except.bind_eq_ok_iff.mp hr
      obtain ⟨servers, rfl, hservers⟩ := ih.mp hrest
      refine ⟨s :: servers, rfl, ?_⟩
      rw [List.foldlM_cons, hadd]
      exact hservers
    · rintro ⟨servers, hrs, hservers⟩
      cases servers with
      | nil => cases hrs
      | cons s servers =>
        obtain ⟨rfl, rfl⟩ := List.cons.inj hrs
        rw [List.foldlM_cons, Except.bind_eq_ok_iff] at hservers
        obtain ⟨m₁, hadd, hrest⟩ := hservers
        exact ⟨m₁, hadd, ih.mpr ⟨servers, rfl, hrest⟩⟩

/-- **The members of properties** are the servers that the entries declare, each of which has to be
readable. -/
theorem ofProperties_eq_ok_iff {props : Properties} {m : Members} :
    ofProperties props = .ok m ↔
      ∃ servers : List Server, declared props = servers.map .ok ∧ m.table.values.Perm servers := by
  rw [ofProperties_eq_foldlM, foldlM_declared_eq_ok_iff]
  exact exists_congr fun servers => and_congr_right fun _ => ofServers_eq_ok_iff

end Members

end Ensemble
