import Ensemble.Proofs.Members

/-!
# Members by their roles

Everyone votes or observes, and nobody does both (`Rolls.IsSplit`). Members are one table, off which
voters and observers are read. It comes to the same to keep three tables (`Rolls`) and to enter each
server into that of everyone and into that of its role: one entry keeps the three in step with the
members (`Rolls.add_rolls`), so a loop ends in the rolls of the members or is refused as they are
(`Rolls.ofServers_eq`, `Rolls.ofProperties_eq`).

Main statement: `Verifier.isSplit_and_ofServers_iff`.
-/

namespace Ensemble

theorem Server.isParticipant_iff {s : Server} : s.isParticipant ↔ s.role = .participant := by
  unfold isParticipant
  cases s.role <;> simp [Role.isVoting]

/-- Everyone, those who vote and those who observe, by id. -/
structure Rolls where
  all : Table ServerId Server
  voting : Table ServerId Server
  observing : Table ServerId Server

/-- Everyone, and the parts of them that vote and that observe. -/
def Members.rolls (m : Members) : Rolls := ⟨m.table, m.voting, m.observing⟩

def Verifier.rolls (v : Verifier) : Rolls := ⟨v.members.table, v.voting, v.observing⟩

namespace Rolls

/-! ### Entering servers -/

def empty : Rolls := ⟨.empty, .empty, .empty⟩

/-- Enters a server with an id of its own. -/
def add (r : Rolls) (s : Server) : Except ConfigError Rolls :=
  if r.all.contains s.id then throw (.duplicateServer s.id)
  else if s.isParticipant then
    pure ⟨r.all.insert s.id s, r.voting.insert s.id s, r.observing⟩
  else pure ⟨r.all.insert s.id s, r.voting, r.observing.insert s.id s⟩

def ofServers (servers : List Server) : Except ConfigError Rolls := servers.foldlM add empty

/-- Enters the servers that the entries of properties declare, in key order. -/
def ofProperties (props : Properties) : Except ConfigError Rolls :=
  (Members.declared props).foldlM (fun r s => do r.add (← s)) empty

theorem rolls_empty : Members.empty.rolls = empty := rfl

theorem rolls_insert {m m' : Members} {s : Server} (hs : s.id ∉ m.table.keys)
    (hm' : m'.table = m.table.insert s.id s) : m'.rolls = if s.isParticipant then
      ⟨m.table.insert s.id s, m.voting.insert s.id s, m.observing⟩
    else ⟨m.table.insert s.id s, m.voting, m.observing.insert s.id s⟩ := by
  rw [Members.rolls, Members.voting, Members.observing, hm', Table.filter_insert hs,
    Table.filter_insert hs]
  cases s.isParticipant <;> rfl

/-- An entry keeps the rolls in step with the members. -/
theorem add_rolls (m : Members) (s : Server) : m.rolls.add s = (m.add s).map Members.rolls := by
  unfold add Members.add
  have hall : m.rolls.all = m.table := rfl
  rw [hall]
  by_cases h : m.table.contains s.id
  · rw [if_pos h, if_pos h]
    rfl
  · have hs : s.id ∉ m.table.keys := fun hmem => h (Table.contains_iff.mpr hmem)
    rw [if_neg h, if_neg h]
    refine Eq.trans ?_ (congrArg Except.ok (rolls_insert hs rfl).symm)
    cases s.isParticipant <;> rfl

theorem ofServers_eq (servers : List Server) :
    ofServers servers = (Members.ofServers servers).map Members.rolls := by
  rw [ofServers, Members.ofServers, ← rolls_empty]
  exact List.foldlM_eq_map add_rolls

theorem ofProperties_eq (props : Properties) :
    ofProperties props = (Members.ofProperties props).map Members.rolls := by
  rw [ofProperties, Members.ofProperties_eq_foldlM, ← rolls_empty]
  refine List.foldlM_eq_map fun m r => ?_
  cases r with
  | error e => rfl
  | ok s => exact add_rolls m s

/-! ### Splits -/

/-- Everyone stands under their own id, and either votes or observes, by their role. -/
structure IsSplit (r : Rolls) : Prop where
  keyed : ∀ e ∈ r.all.toList, e.1 = e.2.id
  /-- Nobody is left out, added or changed. -/
  perm : (r.voting.toList ++ r.observing.toList).Perm r.all.toList
  disjoint : r.voting.keys.Disjoint r.observing.keys
  mem_voting_iff : ∀ e ∈ r.all.toList, e.1 ∈ r.voting.keys ↔ e.2.role = .participant

theorem perm_rolls (m : Members) :
    (m.voting.toList ++ m.observing.toList).Perm m.table.toList :=
  List.filter_append_perm _ _

theorem isSplit_rolls (m : Members) : m.rolls.IsSplit where
  keyed := m.keyed
  perm := perm_rolls m
  disjoint := by
    have hnodup := ((perm_rolls m).map Prod.fst).nodup_iff.mpr m.table.nodup_keys
    rw [List.map_append] at hnodup
    exact List.disjoint_of_nodup_append hnodup
  mem_voting_iff e he := by
    have hget : m.table.get? e.1 = some e.2 := Table.get?_eq_some_iff.mpr he
    simp [Members.rolls, Members.voting, Table.mem_keys_iff, Table.get?_filter_eq_some_iff, hget,
      Server.isParticipant_iff]

end Rolls

/-! ### Majorities of servers -/

namespace Majority

variable {servers : List Server} {version : Version}

theorem ofServers_eq_map : ofServers servers version =
    (Members.ofServers servers).map fun members => ofMembers members version := by
  unfold ofServers
  cases Members.ofServers servers <;> rfl

theorem ofServers_eq_ok_iff {m : Majority} : ofServers servers version = .ok m ↔
    m.members.table.values.Perm servers ∧ m.version = version := by
  rw [ofServers_eq_map, Except.map_eq_ok_iff, ← Members.ofServers_eq_ok_iff]
  constructor
  · rintro ⟨members, hmembers, rfl⟩
    exact ⟨hmembers, rfl⟩
  · rintro ⟨hmembers, rfl⟩
    exact ⟨m.members, hmembers, m.ofMembers_members⟩

theorem exists_ofServers_iff :
    (∃ m, ofServers servers version = .ok m) ↔ (servers.map Server.id).Nodup := by
  rw [← Members.exists_ofServers_iff, ofServers_eq_map]
  simp [Except.map_eq_ok_iff]

theorem ofServers_eq_error_iff {e : ConfigError} : ofServers servers version = .error e ↔
    ∃ id, Members.IsFirstRepeat id (servers.map Server.id) ∧ e = .duplicateServer id := by
  rw [← Members.ofServers_eq_error_iff, ofServers_eq_map]
  cases Members.ofServers servers <;> simp [Except.map]

end Majority

/-! ### Main result -/

/-- **Members are split by their roles**, as they are if servers are entered into three tables in
turn. Servers make up a majority exactly if no id occurs twice, the same one in any order, and are
refused for the first id that has occurred already. -/
theorem Verifier.isSplit_and_ofServers_iff :
    (∀ v : Verifier, v.rolls.IsSplit) ∧
      (∀ servers, Rolls.ofServers servers = (Members.ofServers servers).map Members.rolls) ∧
      (∀ props, Rolls.ofProperties props = (Members.ofProperties props).map Members.rolls) ∧
      ∀ (servers : List Server) (version : Version),
        ((∃ m, Majority.ofServers servers version = .ok m) ↔ (servers.map Server.id).Nodup) ∧
          (∀ m, Majority.ofServers servers version = .ok m ↔
            m.members.table.values.Perm servers ∧ m.version = version) ∧
          ∀ e, Majority.ofServers servers version = .error e ↔
            ∃ id, Members.IsFirstRepeat id (servers.map Server.id) ∧ e = .duplicateServer id := by
  refine ⟨fun v => ?_, Rolls.ofServers_eq, Rolls.ofProperties_eq, fun servers version => ?_⟩
  · exact Rolls.isSplit_rolls v.members
  · exact ⟨Majority.exists_ofServers_iff, fun _ => Majority.ofServers_eq_ok_iff,
      fun _ => Majority.ofServers_eq_error_iff⟩

end Ensemble
