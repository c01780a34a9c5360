import Ensemble.Proofs.Membership.Foreign

/-!
# Memberships in static settings and in dynamic files

A membership that is stated among the static settings and one that stands in a dynamic file come to
the same configuration, or to the same refusal, the place of the dynamic file aside
(`Config.ofProperties_dynamicFile`). The static settings are read alike
(`Settings.ofProperties_relocated`), settling does not look at the dynamic file
(`Config.settle_withDynamicFile`), and a strict reading of the entries of a membership is a lenient
one of them among others (`readMembership_membership`).
-/

namespace Ensemble

open Script Disk

/-! ### Static settings -/

section Static

variable {context base : Context} {configFile : Option Path} {props inline : Properties}
  {value : String}

theorem Settings.ofProperties_relocated (hprops : ∀ key ∈ props.keys, staysInStatic false key)
    (hkept : inline.filter (fun key _ => staysInStatic false key) = props)
    (hdynamic : Setting.dynamicConfigFile.key ∉ inline.keys) :
    (ofProperties context (props.insert Setting.dynamicConfigFile.key value)).outcome =
      (ofProperties context inline).outcome.map (withDynamicFile · (some (.ofText value))) := by
  have hcontains : inline.contains Setting.dynamicConfigFile.key = false := by
    rw [← Bool.not_eq_true, Table.contains_iff]
    exact hdynamic
  have hne : ∀ e ∈ inline.toList, e.1 ≠ Setting.dynamicConfigFile.key := by
    rintro e he hkey
    exact hdynamic (hkey ▸ Table.mem_keys_of_mem he)
  have hstays : ∀ e ∈ props.toList, staysInStatic false e.1 := fun e he =>
    hprops _ (Table.mem_keys_of_mem he)
  have hinline : ofProperties context inline = enterAll { context } false props.toList := by
    rw [← hkept]
    change enterAll { context } (inline.contains _) inline.toList = _
    rw [hcontains]
    exact (enterAll_filter_staysInStatic hne).symm
  rw [hinline]
  exact @enterAll_insertEntry { context } none value false _ _ hstays

theorem Config.ofStatic_relocated (hprops : ∀ key ∈ props.keys, staysInStatic false key)
    (hkept : inline.filter (fun key _ => staysInStatic false key) = props)
    (hdynamic : Setting.dynamicConfigFile.key ∉ inline.keys) :
    (ofStatic base configFile (props.insert Setting.dynamicConfigFile.key value)).outcome =
      (ofStatic base configFile inline).outcome.map (withDynamicFile · (some (.ofText value))) := by
  rw [ofStatic_eq, ofStatic_eq]
  exact Reported.outcome_bind_eq_map (Settings.ofProperties_relocated hprops hkept hdynamic) fun s =>
    ofSettings_withDynamicFile _

end Static

/-! ### Taking up a membership -/

/-- What a strict reading gives is what a lenient one gives of the same membership among other
entries. -/
theorem readMembership_membership {props inline : Properties} {electionAlg : UInt32}
    {warnings : Bool} {context : Context} (h : inline.membership = props) :
    readMembership props electionAlg warnings false context =
      readMembership inline electionAlg warnings true context := by
  have hforeign : foreignKey? props = none := by
    rw [foreignKey?_eq_none_iff, ← h]
    exact fun key hkey => (Properties.mem_keys_membership.mp hkey).2
  have hread : Verifier.ofProperties props = Verifier.ofProperties inline := by
    rw [← h, Verifier.ofProperties_membership]
  unfold readMembership
  rw [hforeign, hread]
  rfl

namespace Config

variable {base : Context} {c : Config} {v : Verifier} {file : Option Path} {props : Properties}
  {lenient : Bool} {d : Disk}

theorem takeDeclaredClient_withDynamicFile (hv : c.membership = some v) :
    (c.withDynamicFile file).takeDeclaredClient =
      c.takeDeclaredClient.map (withDynamicFile · file) := by
  cases hdeclared : c.serverId.bind v.clientOf? with
  | none =>
    have hrelocated := @takeDeclaredClient_of_none (c.withDynamicFile file) v hv hdeclared
    rw [hrelocated, takeDeclaredClient_of_none hv hdeclared]
    rfl
  | some declared =>
    obtain ⟨id, hid, hclient⟩ := Option.bind_eq_some_iff.mp hdeclared
    have hrelocated := @takeDeclaredClient_of_some (c.withDynamicFile file) v id declared hv hid
      hclient
    have hsame : (c.withDynamicFile file).client = c.client := rfl
    rw [hrelocated, takeDeclaredClient_of_some hv hid hclient, hsame]
    cases c.client with
    | none => rfl
    | some configured => cases hagrees : configured.agreesWith declared <;> simp [hagrees] <;> rfl

/-- Settling does not look at the dynamic file. -/
theorem settle_withDynamicFile (hv : c.membership = some v) :
    (settle (c.withDynamicFile file)).outcome =
      (settle c).outcome.map (withDynamicFile · file) := by
  refine Reported.outcome_bind_eq_map (takeDeclaredClient_withDynamicFile hv) fun c => ?_
  have hrole : (c.withDynamicFile file).takeListedRole.outcome =
      c.takeListedRole.outcome.map (withDynamicFile · file) := by
    rw [takeListedRole_outcome, takeListedRole_outcome]
    rfl
  exact Reported.outcome_bind_eq_map hrole fun c => Reported.outcome_bind_eq_map_self fun _ => rfl

theorem value_adopt_withDynamicFile :
    (((c.withDynamicFile file).adopt props lenient).run.run d).value =
      ((c.adopt props lenient).run.run d).value.map (withDynamicFile · file) := by
  rw [value_adopt, value_adopt, Except.map_bind]
  refine congrArg _ (funext fun v => ?_)
  rw [Except.map_bind]
  refine congrArg _ (funext fun id => ?_)
  exact @settle_withDynamicFile { c with membership := some v, serverId := id } v file rfl

/-- A membership in a dynamic file, beside which nothing is proposed. -/
theorem value_adoptFile_of_not_isFile {p : Path} (hpending : c.pending = none)
    (hread : (Properties.ofFile p).run.Leaves d (.ok props) d)
    (hversion : props.contains MembershipKey.version = false)
    (hnext : d.isFile p.nextFile = false) : ((c.adoptFile p).run.run d).value =
      ((c.adopt (withVersionOf p props) false).run.run d).value := by
  have hverify : (PathCheck.strict.verify p).run.Leaves d (.ok p) d := by
    obtain ⟨-, hshort, l, text, hleads, htext, -⟩ := Properties.ofFile_leaves_iff.mp hread
    exact PathCheck.strict_leaves_iff.mpr ⟨isPresent_of_text? hshort hleads htext, rfl, rfl⟩
  have hnone : ∀ c₁ : Config, c₁.pending = none →
      ((readPending p.nextFile >>= fun pending =>
        (pure { c₁ with pending } : Action Config)).run.run d).value = .ok c₁ := by
    intro c₁ h
    rw [Action.value_bind_of_leaves (readPending_of_not_isFile hnext), ← h]
    rfl
  unfold adoptFile
  rw [Action.value_bind_of_leaves hverify, Action.value_bind_of_leaves hread, hversion]
  refine (Action.value_bind (@keepsDisk_adopt (withVersionOf p props) c false) d).trans ?_
  cases hadopt : ((c.adopt (withVersionOf p props) false).run.run d).value with
  | error e => rfl
  | ok c₁ =>
    rw [Except.ok_bind]
    refine hnone c₁ ?_
    obtain ⟨-, v, id, -, -, hsettle⟩ := adopt_leaves_iff.mp (leaves_of_value hadopt)
    obtain ⟨client, role, rfl⟩ := settle_eq_ok hsettle
    exact hpending

/-- Taking up a membership from a dynamic file, and from the entries that it is part of. -/
theorem value_takeUp_withDynamicFile {p : Path} {static inline : Properties}
    (hpending : c.pending = none) (hnone : c.dynamicFile = none)
    (hfile : (c.withDynamicFile (some p)).dynamicFile = some p)
    (hread : (Properties.ofFile p).run.Leaves d (.ok props) d)
    (hversion : props.contains MembershipKey.version = false) (hnext : d.isFile p.nextFile = false)
    (hinline : inline.membership = withVersionOf p props) :
    (((c.withDynamicFile (some p)).takeUp static).run.run d).value =
      ((c.takeUp inline).run.run d).value.map (withDynamicFile · (some p)) := by
  rw [takeUp_of_dynamicFile hfile, takeUp_of_none hnone,
    @value_adoptFile_of_not_isFile (c.withDynamicFile (some p)) _ _ _ hpending hread hversion hnext,
    value_adopt_withDynamicFile, value_adopt, value_adopt, readMembership_membership hinline]

/-! ### A membership among static settings -/

section Among

variable {S M : Properties} {p : Path}

/-- The version that the name of a file states is no foreign entry. -/
theorem not_isForeign_of_mem_withVersionOf
    (hM : ∀ key ∈ M.keys, MembershipKey.declares key = true) :
    ∀ key ∈ (withVersionOf p M).keys, ¬ IsForeign key := by
  intro key hkey hforeign
  have hdeclares : key = MembershipKey.version ∨ key ∈ M.keys := by
    unfold withVersionOf at hkey
    split at hkey
    · exact Table.mem_keys_insert_iff.mp hkey
    · exact Or.inr hkey
  rcases hdeclares with rfl | hkey
  · exact hforeign.2 rfl
  · exact absurd (hM key hkey) (by simp [hforeign.1])

variable (hS : ∀ key ∈ S.keys, staysInStatic false key = true)
  (hM : ∀ key ∈ M.keys, ¬ IsForeign key)
include hS hM

/-- Static settings and a membership that are put together can be told apart again. -/
theorem filter_staysInStatic_ofList_append :
    (Table.ofList (S.toList ++ M.toList)).filter (fun key _ => staysInStatic false key) = S := by
  refine (Table.filter_ofList_append hS fun key hkey => ?_).1
  rw [← Bool.not_eq_true]
  exact fun h => hM key hkey (isForeign_of_staysInStatic h)

theorem membership_ofList_append :
    Properties.membership (Table.ofList (S.toList ++ M.toList)) = M := by
  refine (Table.filter_ofList_append (p := fun key => decide (IsForeign key)) ?_ ?_).2
  · exact fun key hkey => decide_eq_true (isForeign_of_staysInStatic (hS key hkey))
  · exact fun key hkey => decide_eq_false (hM key hkey)

theorem dynamicConfigFile_not_mem_ofList_append :
    Setting.dynamicConfigFile.key ∉ (Table.ofList (S.toList ++ M.toList)).keys := by
  intro hkey
  rw [Table.mem_keys_ofList_iff, List.map_append, List.mem_append] at hkey
  rcases hkey with hkey | hkey
  · exact (staysInStatic_iff.mp (hS _ hkey)).2.2 rfl
  · exact hM _ hkey Setting.dynamicConfigFile.key_not_membership

end Among

/-- Settings that name no dynamic file. -/
theorem dynamicFile_of_ofStatic (h : (ofStatic base none props).outcome = .ok c)
    (hkey : Setting.dynamicConfigFile.key ∉ props.keys) :
    c.configFile = none ∧ c.dynamicFile = none := by
  obtain ⟨s, hs, hfile, hlocated, -⟩ := ofStatic_eq_ok h
  refine ⟨hfile, ?_⟩
  rw [hlocated]
  cases hset : s.dynamicFile with
  | none => rfl
  | some file => exact absurd (Settings.key_mem_of_dynamicFile hs hset) hkey

/-! ### Main result -/

/-- **A membership comes to the same** in a dynamic file as among the static settings, where the
version that the name of the file states is one more entry: to the same refusal, or to configurations
that differ in the place of the dynamic file only. -/
theorem ofProperties_dynamicFile {S M : Properties} {p : String}
    (hS : ∀ key ∈ S.keys, staysInStatic false key = true)
    (hM : ∀ key ∈ M.keys, MembershipKey.declares key = true)
    (hread : ((Properties.ofFile (.ofText p)).run.run d).value = .ok M)
    (hnext : d.isFile (Path.ofText p).nextFile = false) :
    ((ofProperties base (S.insert Setting.dynamicConfigFile.key p)).run.run d).value =
      ((ofProperties base
        (Table.ofList (S.toList ++ (withVersionOf (.ofText p) M).toList))).run.run d).value.map
          (withDynamicFile · (some (.ofText p))) := by
  have hmembership := @not_isForeign_of_mem_withVersionOf M (.ofText p) hM
  have hdynamic := dynamicConfigFile_not_mem_ofList_append hS hmembership
  have hstatic := @ofStatic_relocated base none S _ p hS
    (filter_staysInStatic_ofList_append hS hmembership) hdynamic
  have hversion : M.contains MembershipKey.version = false := by
    rw [← Bool.not_eq_true, Table.contains_iff]
    exact fun hkey => absurd (hM _ hkey) (by decide)
  unfold ofProperties
  rw [value_load, value_load, hstatic]
  cases hinline : (ofStatic base none
    (Table.ofList (S.toList ++ (withVersionOf (.ofText p) M).toList))).outcome with
  | error e => rfl
  | ok c =>
    obtain ⟨hfile, hnone⟩ := dynamicFile_of_ofStatic hinline hdynamic
    have hsome : (c.withDynamicFile (some (.ofText p))).dynamicFile = some (.ofText p) := by
      change some (locateDynamicFile c.configFile (.ofText p)) = some (.ofText p)
      rw [hfile]
      rfl
    exact value_takeUp_withDynamicFile (pending_of_ofStatic hinline) hnone hsome
      (Properties.ofFile_leaves_of_value hread) hversion hnext
      (membership_ofList_append hS hmembership)

/-- A dynamic file, the name of which states a version. -/
def relocatedDisk : Disk where
  nodes := .ofList [(["zoo.cfg.dynamic.b"], .file 0 "server.1=a:3888\n".toUTF8)]
  here := []
  nextId := 1

/-- A membership of one server in version 11, and no setting but the data directory. -/
theorem ofProperties_dynamicFile_versioned :
    ((ofProperties {} (.ofList [("dataDir", "/data"),
        ("dynamicConfigFile", "zoo.cfg.dynamic.b")])).run.run relocatedDisk).value =
      ((ofProperties {} (.ofList [("dataDir", "/data"), ("server.1", "a:3888"),
        ("version", "b")])).run.run relocatedDisk).value.map
          (withDynamicFile · (some (.ofText "zoo.cfg.dynamic.b"))) :=
  @ofProperties_dynamicFile {} relocatedDisk (.ofList [("dataDir", "/data")])
    (.ofList [("server.1", "a:3888")]) "zoo.cfg.dynamic.b" (by decide) (by decide) rfl rfl

end Config

end Ensemble
