import Ensemble.Proofs.Quorum.Making
import Ensemble.Proofs.Quorum.Reading

/-!
# What becomes of the entries of a membership

Ids are numbers and keys are texts, so keys that differ can name one id: `group.1`, `group.01` and
`group.+1` all name group 1. A server that is declared twice is refused under whatever keys
(`Members.add`). A group or a weight that is stated twice is not refused: of its entries the one with
the last key is in force (`Hierarchy.groupOf?_or_later`, `Hierarchy.weight?_or_later`) and the others
are lost.

Main statement: `Hierarchy.keeps_of_ofProperties`. A hierarchy that is made of properties keeps the
servers that they declare. It keeps the weights exactly if no two entries state different weights for
one id, and the groups exactly if no two entries list different ids for one group.
-/

namespace Ensemble

/-! ### Tables of what is read -/

/-- In a table of what is read of a list, what is read of an item stands under its key, unless
something else is read under that key further on. -/
theorem Table.get?_ofList_or_later {κ α ι : Type} [Ord κ] [Std.TransOrd κ] [Std.LawfulEqOrd κ]
    [DecidableEq κ] {read : ι → Option (κ × α)} {later : ι → ι → Prop} {es : List ι}
    (hsorted : es.Pairwise later) {e : ι} (he : e ∈ es) {k : κ} {v : α}
    (hread : read e = some (k, v)) :
    (ofList (es.filterMap read)).get? k = some v ∨
      ∃ e' ∈ es, ∃ v', later e e' ∧ read e' = some (k, v') ∧ v' ≠ v ∧
        (ofList (es.filterMap read)).get? k = some v' := by
  -- What is put into a table last is what it holds, so the induction takes the last item off.
  induction es using List.reverseRecOn with
  | nil => cases he
  | append_singleton es d ih =>
    obtain ⟨hes, -, hlater⟩ := List.pairwise_append.mp hsorted
    rw [List.filterMap_append]
    have hfront (hmem : e ∈ es) :
        (ofList (es.filterMap read)).get? k = some v ∨
          ∃ e' ∈ es ++ [d], ∃ v', later e e' ∧ read e' = some (k, v') ∧ v' ≠ v ∧
            (ofList (es.filterMap read)).get? k = some v' := by
      obtain hget | ⟨e', he', hrest⟩ := ih hes hmem
      · exact .inl hget
      · exact .inr ⟨e', List.mem_append_left _ he', hrest⟩
    cases hd : read d with
    | none =>
      have hmem : e ∈ es := by
        rcases List.mem_append.mp he with hmem | hmem
        · exact hmem
        · rw [List.mem_singleton.mp hmem, hd] at hread
          cases hread
      simpa [hd] using hfront hmem
    | some p =>
      have htable : ofList (es.filterMap read ++ [d].filterMap read) =
          (ofList (es.filterMap read)).insert p.1 p.2 := by
        rw [← ofList_concat, List.filterMap_cons_some hd]
        rfl
      simp only [htable, get?_insert]
      rcases List.mem_append.mp he with hmem | hmem
      · by_cases hk : p.1 = k
        · by_cases hv : p.2 = v
          · exact .inl (by rw [if_pos hk, hv])
          · refine .inr ⟨d, by simp, p.2, hlater e hmem d (by simp), ?_, hv, if_pos hk⟩
            rw [hd, ← hk]
        · simpa only [if_neg hk] using hfront hmem
      · obtain rfl := List.mem_singleton.mp hmem
        obtain rfl := Option.some.inj (hd.symm.trans hread)
        exact .inl (if_pos rfl)

theorem filterMap_eq_map_ok {ε α ι : Type} {read : ι → Option (Except ε α)} {es : List ι}
    (h : ∀ e ∈ es, ∀ r, read e = some r → ∃ a, r = .ok a) :
    es.filterMap read = (es.filterMap fun e => (read e).bind Except.toOption).map .ok := by
  rw [List.map_filterMap]
  refine List.filterMap_congr fun e he => ?_
  cases hr : read e with
  | none => rfl
  | some r =>
    obtain ⟨a, rfl⟩ := h e he r hr
    rfl

theorem MembershipKey.startsWith_iff {stem key : String} :
    startsWith stem key ↔ ∃ suffix, suffix? stem key = some suffix := by
  unfold startsWith suffix?
  split <;> simp [*]

/-! ### Entries -/

namespace Hierarchy

/-- The entry declares a server under an id. -/
def DeclaresServer (e : String × String) (id : ServerId) (s : Server) : Prop :=
  ∃ suffix, MembershipKey.suffix? MembershipKey.server e.1 = some suffix ∧
    Members.readId e.1 suffix = .ok id ∧ Server.ofText id e.2 = .ok s

/-- The entry states the weight of a server. -/
def StatesWeight (e : String × String) (id : ServerId) (w : Weight) : Prop :=
  ∃ suffix, MembershipKey.suffix? MembershipKey.weight e.1 = some suffix ∧
    Members.readId e.1 suffix = .ok id ∧ readWeight e.1 e.2 = .ok w

/-- The entry lists the ids of a group. -/
def ListsGroup (e : String × String) (g : GroupId) (ids : List ServerId) : Prop :=
  ∃ suffix, MembershipKey.suffix? MembershipKey.group e.1 = some suffix ∧
    Members.readId e.1 suffix = .ok g ∧ readGroup e.1 e.2 = .ok ids

section Entry

variable {e : String × String} {id : UInt64}

theorem declaresServer_iff {s : Server} : DeclaresServer e id s ↔
    Verifier.readServer? e.1 e.2 = some (.ok s) ∧ s.id = id := by
  rw [Verifier.readServer?, Option.map_eq_some_iff]
  constructor
  · rintro ⟨suffix, hsuffix, hid, hs⟩
    exact ⟨⟨suffix, hsuffix, Except.bind_eq_ok_iff.mpr ⟨id, hid, hs⟩⟩,
      (Server.ofText_eq_ok_iff.mp hs).1⟩
  · rintro ⟨⟨suffix, hsuffix, hread⟩, rfl⟩
    obtain ⟨id, hid, hs⟩ := Except.bind_eq_ok_iff.mp hread
    obtain rfl := (Server.ofText_eq_ok_iff.mp hs).1
    exact ⟨suffix, hsuffix, hid, hs⟩

theorem statesWeight_iff {w : Weight} :
    StatesWeight e id w ↔ readWeight? e.1 e.2 = some (.ok (id, w)) := by
  rw [readWeight?, Option.map_eq_some_iff]
  refine exists_congr fun suffix => and_congr_right fun _ => ?_
  simp only [Except.bind_eq_ok_iff, pure, Except.pure, Except.ok.injEq, Prod.mk.injEq]
  constructor
  · rintro ⟨hid, hw⟩
    exact ⟨id, hid, w, hw, rfl, rfl⟩
  · rintro ⟨_, hid, _, hw, rfl, rfl⟩
    exact ⟨hid, hw⟩

theorem listsGroup_iff {ids : List ServerId} :
    ListsGroup e id ids ↔ readGroup? e.1 e.2 = some (.ok (id, ids)) := by
  rw [readGroup?, Option.map_eq_some_iff]
  refine exists_congr fun suffix => and_congr_right fun _ => ?_
  simp only [Except.bind_eq_ok_iff, pure, Except.pure, Except.ok.injEq, Prod.mk.injEq]
  constructor
  · rintro ⟨hid, hids⟩
    exact ⟨id, hid, ids, hids, rfl, rfl⟩
  · rintro ⟨_, hid, _, hids, rfl, rfl⟩
    exact ⟨hid, hids⟩

theorem StatesWeight.unique {w w' : Weight} {id' : ServerId} (hw : StatesWeight e id w)
    (hw' : StatesWeight e id' w') : id = id' ∧ w = w' := by
  rw [statesWeight_iff] at hw hw'
  simpa using hw.symm.trans hw'

theorem ListsGroup.unique {ids ids' : List ServerId} {id' : GroupId} (hg : ListsGroup e id ids)
    (hg' : ListsGroup e id' ids') : id = id' ∧ ids = ids' := by
  rw [listsGroup_iff] at hg hg'
  simpa using hg.symm.trans hg'

theorem startsWith_of_statesWeight {w : Weight} (hw : StatesWeight e id w) :
    MembershipKey.startsWith MembershipKey.weight e.1 := by
  obtain ⟨suffix, hsuffix, -⟩ := hw
  exact MembershipKey.startsWith_iff.mpr ⟨suffix, hsuffix⟩

theorem startsWith_of_listsGroup {ids : List ServerId} (hg : ListsGroup e id ids) :
    MembershipKey.startsWith MembershipKey.group e.1 := by
  obtain ⟨suffix, hsuffix, -⟩ := hg
  exact MembershipKey.startsWith_iff.mpr ⟨suffix, hsuffix⟩

end Entry

/-! ### Reading groups and weights -/

/-- The group that an entry lists, if it can be read. -/
def listedGroup? (e : String × String) : Option (GroupId × List ServerId) :=
  (readGroup? e.1 e.2).bind Except.toOption

/-- The weight that an entry states, if it can be read. -/
def statedWeight? (e : String × String) : Option (ServerId × Weight) :=
  (readWeight? e.1 e.2).bind Except.toOption

theorem bind_toOption_eq_some_iff {ε α : Type} {r : Option (Except ε α)} {a : α} :
    r.bind Except.toOption = some a ↔ r = some (.ok a) := by
  rcases r with _ | _ | _ <;> simp [Except.toOption]

theorem listedGroup?_eq_some_iff {e : String × String} {g : GroupId} {ids : List ServerId} :
    listedGroup? e = some (g, ids) ↔ ListsGroup e g ids :=
  bind_toOption_eq_some_iff.trans listsGroup_iff.symm

theorem statedWeight?_eq_some_iff {e : String × String} {id : ServerId} {w : Weight} :
    statedWeight? e = some (id, w) ↔ StatesWeight e id w :=
  bind_toOption_eq_some_iff.trans statesWeight_iff.symm

section Step

variable {read read' : Table GroupId (List ServerId) × Table ServerId Weight}
  {e : String × String} {es : List (String × String)}

theorem exists_group_of_readStep (h : readStep read e = .ok read')
    {r : Except ConfigError (GroupId × List ServerId)} (hr : readGroup? e.1 e.2 = some r) :
    ∃ g, r = .ok g := by
  obtain ⟨suffix, hsuffix, rfl⟩ := Option.map_eq_some_iff.mp hr
  simp only [readStep, hsuffix] at h
  obtain ⟨g, hg, h⟩ := Except.bind_eq_ok_iff.mp h
  obtain ⟨ids, hids, -⟩ := Except.bind_eq_ok_iff.mp h
  exact ⟨(g, ids), by rw [hg, hids]; rfl⟩

theorem exists_weight_of_readStep (h : readStep read e = .ok read')
    {r : Except ConfigError (ServerId × Weight)} (hr : readWeight? e.1 e.2 = some r) :
    ∃ w, r = .ok w := by
  have hgroup : MembershipKey.suffix? MembershipKey.group e.1 = none := by
    cases hg : readGroup? e.1 e.2 with
    | none => exact Option.map_eq_none_iff.mp hg
    | some _ =>
      rw [readWeight?_of_group hg] at hr
      cases hr
  obtain ⟨suffix, hsuffix, rfl⟩ := Option.map_eq_some_iff.mp hr
  simp only [readStep, hgroup, hsuffix] at h
  obtain ⟨id, hid, h⟩ := Except.bind_eq_ok_iff.mp h
  obtain ⟨w, hw, -⟩ := Except.bind_eq_ok_iff.mp h
  exact ⟨(id, w), by rw [hid, hw]; rfl⟩

/-- Where groups and weights are read, every entry that states one is readable. -/
theorem exists_of_foldlM_readStep (h : es.foldlM readStep read = .ok read') : ∀ e ∈ es,
    (∀ r, readGroup? e.1 e.2 = some r → ∃ g, r = .ok g) ∧
      ∀ r, readWeight? e.1 e.2 = some r → ∃ w, r = .ok w := by
  induction es generalizing read with
  | nil => simp
  | cons d es ih =>
    rw [List.foldlM_cons] at h
    obtain ⟨next, hd, hrest⟩ := Except.bind_eq_ok_iff.mp h
    intro e he
    rcases List.mem_cons.mp he with rfl | he
    · exact ⟨fun _ => exists_group_of_readStep hd, fun _ => exists_weight_of_readStep hd⟩
    · exact ih hrest e he

end Step

/-- What the groups and the weights are that are read of properties. -/
theorem readGroups_eq_ok_iff {props : Properties} {groups : Table GroupId (List ServerId)}
    {weights : Table ServerId Weight} : readGroups props = .ok (groups, weights) ↔
      (∀ e ∈ props.toList, (∀ r, readGroup? e.1 e.2 = some r → ∃ g, r = .ok g) ∧
        ∀ r, readWeight? e.1 e.2 = some r → ∃ w, r = .ok w) ∧
      groups = .ofList (props.toList.filterMap listedGroup?) ∧
      weights = .ofList (props.toList.filterMap statedWeight?) := by
  have hread (hall : ∀ e ∈ props.toList, (∀ r, readGroup? e.1 e.2 = some r → ∃ g, r = .ok g) ∧
      ∀ r, readWeight? e.1 e.2 = some r → ∃ w, r = .ok w) : readGroups props =
        .ok (.ofList (props.toList.filterMap listedGroup?), .ofList (props.toList.filterMap statedWeight?)) :=
    foldlM_readStep (filterMap_eq_map_ok fun e he => (hall e he).1)
      (filterMap_eq_map_ok fun e he => (hall e he).2) (.empty, .empty)
  constructor
  · intro h
    have hall := exists_of_foldlM_readStep (readGroups_eq_foldlM props ▸ h)
    obtain ⟨rfl, rfl⟩ := Prod.mk.inj (Except.ok.inj (h.symm.trans (hread hall)))
    exact ⟨hall, rfl, rfl⟩
  · rintro ⟨hall, rfl, rfl⟩
    exact hread hall

/-! ### Groups and weights in force -/

section Make

variable {members : Members} {groups : Table GroupId (List ServerId)}
  {weights : Table ServerId Weight} {version : Version} {h : Hierarchy}

/-- A group in force holds the ids that it is made of. -/
theorem groupOf?_of_get? (hmake : make members groups weights version = .ok h) {g : GroupId}
    {ids : List ServerId} (hg : groups.get? g = some ids) (id : ServerId) :
    h.groupOf? id = some g ↔ id ∈ ids := by
  rw [groupOf?_of_make hmake, hg]
  simp

/-- A weight that is given is in force. -/
theorem weight?_of_get? (hmake : make members groups weights version = .ok h) {id : ServerId}
    {w : Weight} (hw : weights.get? id = some w) : h.weight? id = some w := by
  have hvoter := (isGrouping_of_make hmake).weights_subset (Table.mem_keys_iff.mpr ⟨w, hw⟩)
  obtain ⟨rfl, -⟩ := make_eq_ok_iff.mp hmake
  rw [weight?_of_make hmake, if_pos hvoter, weightOf, hw, Option.getD_some]

end Make

/-! ### Entries in force -/

section Keeps

variable {props : Properties} {h : Hierarchy}

theorem exists_of_ofProperties (hok : ofProperties props = .ok h) :
    Members.ofProperties props = .ok h.members ∧ ∃ groups weights,
      readGroups props = .ok (groups, weights) ∧
        make h.members groups weights h.version = .ok h := by
  obtain ⟨members, hmembers, hok⟩ := Except.bind_eq_ok_iff.mp hok
  obtain ⟨⟨groups, weights⟩, hread, hok⟩ := Except.bind_eq_ok_iff.mp hok
  obtain ⟨version, -, hmake⟩ := Except.bind_eq_ok_iff.mp hok
  obtain ⟨rfl, rfl, -⟩ := make_eq_ok_iff.mp hmake
  exact ⟨hmembers, groups, weights, hread, hmake⟩

/-- **The last weight counts**: a weight is in force as an entry states it, unless an entry with a
later key states another one. -/
theorem weight?_or_later (hok : ofProperties props = .ok h) {e : String × String}
    (he : e ∈ props.toList) {id : ServerId} {w : Weight} (hw : StatesWeight e id w) :
    h.weight? id = some w ∨ ∃ e' ∈ props.toList, ∃ w', compare e.1 e'.1 = .lt ∧
      StatesWeight e' id w' ∧ w' ≠ w ∧ h.weight? id = some w' := by
  obtain ⟨-, groups, weights, hread, hmake⟩ := exists_of_ofProperties hok
  obtain ⟨-, -, rfl⟩ := readGroups_eq_ok_iff.mp hread
  obtain hget | ⟨e', he', w', hlt, hw', hne, hget⟩ :=
    Table.get?_ofList_or_later props.sorted he (statedWeight?_eq_some_iff.mpr hw)
  · exact .inl (weight?_of_get? hmake hget)
  · exact .inr ⟨e', he', w', hlt, statedWeight?_eq_some_iff.mp hw', hne, weight?_of_get? hmake hget⟩

/-- **The last group counts**: a group holds the ids that an entry lists, unless an entry with a later
key lists others. -/
theorem groupOf?_or_later (hok : ofProperties props = .ok h) {e : String × String}
    (he : e ∈ props.toList) {g : GroupId} {ids : List ServerId} (hg : ListsGroup e g ids) :
    (∀ id, h.groupOf? id = some g ↔ id ∈ ids) ∨
      ∃ e' ∈ props.toList, ∃ ids', compare e.1 e'.1 = .lt ∧ ListsGroup e' g ids' ∧ ids' ≠ ids ∧
        ∀ id, h.groupOf? id = some g ↔ id ∈ ids' := by
  obtain ⟨-, groups, weights, hread, hmake⟩ := exists_of_ofProperties hok
  obtain ⟨-, rfl, -⟩ := readGroups_eq_ok_iff.mp hread
  obtain hget | ⟨e', he', ids', hlt, hg', hne, hget⟩ :=
    Table.get?_ofList_or_later props.sorted he (listedGroup?_eq_some_iff.mpr hg)
  · exact .inl (groupOf?_of_get? hmake hget)
  · exact .inr ⟨e', he', ids', hlt, listedGroup?_eq_some_iff.mp hg', hne,
      groupOf?_of_get? hmake hget⟩

variable (h props)

/-- Every server that the properties declare is a member, as it is declared. -/
def KeepsServers : Prop :=
  ∀ e ∈ props.toList, MembershipKey.startsWith MembershipKey.server e.1 →
    ∃ id s, DeclaresServer e id s ∧ h.members.table.get? id = some s

/-- Every weight that the properties state is in force. -/
def KeepsWeights : Prop :=
  ∀ e ∈ props.toList, MembershipKey.startsWith MembershipKey.weight e.1 →
    ∃ id w, StatesWeight e id w ∧ h.weight? id = some w

/-- Every group holds exactly the ids that the properties list for it. -/
def KeepsGroups : Prop :=
  ∀ e ∈ props.toList, MembershipKey.startsWith MembershipKey.group e.1 →
    ∃ g ids, ListsGroup e g ids ∧ ∀ id, h.groupOf? id = some g ↔ id ∈ ids

variable {h props}

theorem keepsServers (hok : ofProperties props = .ok h) : h.KeepsServers props := by
  obtain ⟨servers, hdeclared, hperm⟩ :=
    Members.ofProperties_eq_ok_iff.mp (exists_of_ofProperties hok).1
  intro e he hkey
  obtain ⟨suffix, hsuffix⟩ := MembershipKey.startsWith_iff.mp hkey
  have hmem : (Members.readId e.1 suffix >>= fun id => Server.ofText id e.2) ∈
      Members.declared props :=
    List.mem_filterMap.mpr ⟨e, he, by rw [Verifier.readServer?, hsuffix]; rfl⟩
  rw [hdeclared] at hmem
  obtain ⟨s, hs, hread⟩ := List.mem_map.mp hmem
  obtain ⟨id, hid, htext⟩ := Except.bind_eq_ok_iff.mp hread.symm
  have hsid := (Server.ofText_eq_ok_iff.mp htext).1
  refine ⟨id, s, ⟨suffix, hsuffix, hid, htext⟩, ?_⟩
  rw [← hsid]
  exact Members.mem_values_iff.mp (hperm.mem_iff.mpr hs)

theorem exists_statesWeight (hok : ofProperties props = .ok h) {e : String × String}
    (he : e ∈ props.toList) (hkey : MembershipKey.startsWith MembershipKey.weight e.1) :
    ∃ id w, StatesWeight e id w := by
  obtain ⟨-, groups, weights, hread, -⟩ := exists_of_ofProperties hok
  obtain ⟨suffix, hsuffix⟩ := MembershipKey.startsWith_iff.mp hkey
  have hr : readWeight? e.1 e.2 = some _ := congrArg (Option.map _) hsuffix
  obtain ⟨⟨id, w⟩, hw⟩ := ((readGroups_eq_ok_iff.mp hread).1 e he).2 _ hr
  exact ⟨id, w, statesWeight_iff.mpr (hr.trans (congrArg some hw))⟩

theorem exists_listsGroup (hok : ofProperties props = .ok h) {e : String × String}
    (he : e ∈ props.toList) (hkey : MembershipKey.startsWith MembershipKey.group e.1) :
    ∃ g ids, ListsGroup e g ids := by
  obtain ⟨-, groups, weights, hread, -⟩ := exists_of_ofProperties hok
  obtain ⟨suffix, hsuffix⟩ := MembershipKey.startsWith_iff.mp hkey
  have hr : readGroup? e.1 e.2 = some _ := congrArg (Option.map _) hsuffix
  obtain ⟨⟨g, ids⟩, hg⟩ := ((readGroups_eq_ok_iff.mp hread).1 e he).1 _ hr
  exact ⟨g, ids, listsGroup_iff.mpr (hr.trans (congrArg some hg))⟩

/-- **What is kept of a membership**: its servers are kept. Its weights are kept exactly if entries
for one id agree, and its groups exactly if entries for one group list the same ids. -/
theorem keeps_of_ofProperties (hok : ofProperties props = .ok h) :
    h.KeepsServers props ∧
      (h.KeepsWeights props ↔ ∀ e ∈ props.toList, ∀ e' ∈ props.toList, ∀ id w w',
        StatesWeight e id w → StatesWeight e' id w' → w = w') ∧
      (h.KeepsGroups props ↔ ∀ e ∈ props.toList, ∀ e' ∈ props.toList, ∀ g ids ids',
        ListsGroup e g ids → ListsGroup e' g ids' → ∀ id, id ∈ ids ↔ id ∈ ids') := by
  refine ⟨keepsServers hok, ⟨fun hkeeps => ?_, fun hagree e he hkey => ?_⟩,
    fun hkeeps => ?_, fun hagree e he hkey => ?_⟩
  · have hforce {e id w} (he : e ∈ props.toList) (hw : StatesWeight e id w) :
        h.weight? id = some w := by
      obtain ⟨id', w', hw', hget⟩ := hkeeps e he (startsWith_of_statesWeight hw)
      obtain ⟨rfl, rfl⟩ := hw'.unique hw
      exact hget
    intro e he e' he' id w w' hw hw'
    exact Option.some.inj ((hforce he hw).symm.trans (hforce he' hw'))
  · obtain ⟨id, w, hw⟩ := exists_statesWeight hok he hkey
    refine ⟨id, w, hw, ?_⟩
    obtain hget | ⟨e', he', w', -, hw', hne, -⟩ := weight?_or_later hok he hw
    · exact hget
    · exact absurd (hagree e' he' e he id w' w hw' hw) hne
  · have hforce {e g ids} (he : e ∈ props.toList) (hg : ListsGroup e g ids) (id : ServerId) :
        h.groupOf? id = some g ↔ id ∈ ids := by
      obtain ⟨g', ids', hg', hget⟩ := hkeeps e he (startsWith_of_listsGroup hg)
      obtain ⟨rfl, rfl⟩ := hg'.unique hg
      exact hget id
    intro e he e' he' g ids ids' hg hg' id
    exact (hforce he hg id).symm.trans (hforce he' hg' id)
  · obtain ⟨g, ids, hg⟩ := exists_listsGroup hok he hkey
    refine ⟨g, ids, hg, ?_⟩
    obtain hget | ⟨e', he', ids', -, hg', -, hget⟩ := groupOf?_or_later hok he hg
    · exact hget
    · intro id
      exact (hget id).trans (hagree e' he' e he g ids' ids hg' hg id)

/-- A membership that states group 1 and the weight of server 1 under two keys each. -/
def twice (ids weight : String) : Properties :=
  .ofList [("server.1", "a:1"), ("server.2", "b:1"), ("group.01", ids), ("group.1", "1:2"),
    ("weight.01", weight), ("weight.1", "7")]

/-- Here the entries agree. -/
theorem keeps_of_ofProperties_twice :
    ∃ h, ofProperties (twice "2:1" "07") = .ok h ∧ h.KeepsServers (twice "2:1" "07") ∧
      h.KeepsWeights (twice "2:1" "07") ∧ h.KeepsGroups (twice "2:1" "07") := by
  have hweights : (twice "2:1" "07").toList.filterMap statedWeight? = [(1, 7), (1, 7)] := by
    decide +kernel
  have hgroups : (twice "2:1" "07").toList.filterMap listedGroup? =
      [(1, [2, 1]), (1, [1, 2])] := by
    decide +kernel
  have hmade : (ofProperties (twice "2:1" "07")).toOption.isSome := by decide +kernel
  cases hok : ofProperties (twice "2:1" "07") with
  | error e =>
    rw [hok] at hmade
    cases hmade
  | ok h =>
    obtain ⟨hservers, hkeepsWeights, hkeepsGroups⟩ := keeps_of_ofProperties hok
    refine ⟨h, rfl, hservers, hkeepsWeights.mpr ?_, hkeepsGroups.mpr ?_⟩
    · have hstated {e id w} (he : e ∈ (twice "2:1" "07").toList) (hw : StatesWeight e id w) :
          w = 7 := by
        have hmem := List.mem_filterMap.mpr ⟨e, he, statedWeight?_eq_some_iff.mpr hw⟩
        rw [hweights] at hmem
        simp at hmem
        exact hmem.2
      intro e he e' he' id w w' hw hw'
      rw [hstated he hw, hstated he' hw']
    · have hlisted {e g ids} (he : e ∈ (twice "2:1" "07").toList) (hg : ListsGroup e g ids)
          (id : ServerId) : id ∈ ids ↔ id = 1 ∨ id = 2 := by
        have hmem := List.mem_filterMap.mpr ⟨e, he, listedGroup?_eq_some_iff.mpr hg⟩
        rw [hgroups] at hmem
        rcases List.mem_pair.mp hmem with h | h <;> obtain ⟨-, rfl⟩ := Prod.mk.inj h
        · simp [or_comm]
        · simp
      intro e he e' he' g ids ids' hg hg' id
      rw [hlisted he hg, hlisted he' hg']

/-- Here they do not, and what the first ones say is lost. -/
theorem not_keeps_twice :
    ∃ h, ofProperties (twice "1" "5") = .ok h ∧ ¬ h.KeepsWeights (twice "1" "5") ∧
      ¬ h.KeepsGroups (twice "1" "5") := by
  have hmade : (ofProperties (twice "1" "5")).toOption.map
      (fun h => (h.weight? 1, h.groupOf? 2)) = some (some 7, some 1) := by decide +kernel
  have hweight : ("weight.01", "5") ∈ (twice "1" "5").toList := by decide +kernel
  have hgroup : ("group.01", "1") ∈ (twice "1" "5").toList := by decide +kernel
  cases hok : ofProperties (twice "1" "5") with
  | error e =>
    rw [hok] at hmade
    cases hmade
  | ok h =>
    rw [hok] at hmade
    obtain ⟨hw, hg⟩ := Prod.mk.inj (Option.some.inj hmade)
    refine ⟨h, rfl, fun hkeeps => ?_, fun hkeeps => ?_⟩
    · obtain ⟨id, w, hstates, hget⟩ := hkeeps _ hweight (by decide)
      have hfive : StatesWeight ("weight.01", "5") 1 5 :=
        statedWeight?_eq_some_iff.mp (by decide +kernel)
      obtain ⟨rfl, rfl⟩ := hstates.unique hfive
      rw [hw] at hget
      exact absurd hget (by decide)
    · obtain ⟨g, ids, hlists, hget⟩ := hkeeps _ hgroup (by decide)
      have hone : ListsGroup ("group.01", "1") 1 [1] :=
        listedGroup?_eq_some_iff.mp (by decide +kernel)
      obtain ⟨rfl, rfl⟩ := hlists.unique hone
      exact absurd ((hget 2).mp hg) (by decide)

end Keeps

end Hierarchy

end Ensemble
