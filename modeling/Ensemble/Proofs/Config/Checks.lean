import Ensemble.Config.Loader
import Ensemble.Proofs.Config.Settings

/-!
# What a configuration is checked for

The checks of static settings do not look at the dynamic file (`ofStatic_pointedEntries`), and a
membership is taken up exactly if it fits what is set (`Config.Fits`, `exists_settle_iff`).
-/

namespace Ensemble

open Settings

/-- The client endpoint that a membership declares for a server. -/
def Verifier.clientOf? (v : Verifier) (id : ServerId) : Option Endpoint := do
  (← v.members.table.get? id).client

namespace Config

/-! ### Static settings -/

/-- The configuration of settings that are read, without a membership. -/
def ofSettings (base : Context) (configFile : Option Path) (s : Settings) : Reported Config := do
  s.auth.check
  let s ← s.raiseSnapRetainCount
  let s ← s.placeLog
  let client ← s.client.endpoint? .clientPortAddress .clientPort
  let secureClient ← s.secureClient.endpoint? .secureClientPortAddress .secureClientPort
  if let (some a, some b) := (s.client.explicit?, s.secureClient.explicit?) then checkFamilies a b
  s.checkTimes
  let dynamicFile := s.dynamicFile.map (locateDynamicFile configFile)
  return { base, settings := s, configFile, dynamicFile, client, secureClient }

variable {base : Context} {configFile : Option Path} {props : Properties} {s : Settings}
  {c c' : Config} {v : Verifier}

theorem ofStatic_eq : ofStatic base configFile props =
    Settings.ofProperties base props >>= ofSettings base configFile := rfl

/-- The same configuration with another dynamic file. -/
def withDynamicFile (c : Config) (file : Option Path) : Config :=
  { c with
    settings := c.settings.withDynamicFile file
    dynamicFile := file.map (locateDynamicFile c.configFile) }

theorem raiseSnapRetainCount_withDynamicFile (s : Settings) (file : Option Path) :
    (s.withDynamicFile file).raiseSnapRetainCount.outcome =
      s.raiseSnapRetainCount.outcome.map (Settings.withDynamicFile · file) := by
  unfold raiseSnapRetainCount
  by_cases h : s.snapRetainCount < snapRetainFloor
  · rw [if_pos h, if_pos (by exact h)]
    rfl
  · rw [if_neg h, if_neg (by exact h)]
    rfl

theorem placeLog_withDynamicFile (s : Settings) (file : Option Path) :
    (s.withDynamicFile file).placeLog = s.placeLog.map (Settings.withDynamicFile · file) := by
  unfold placeLog Settings.withDynamicFile
  cases s.dataDir <;> rfl

theorem ofSettings_withDynamicFile (file : Option Path) :
    (ofSettings base configFile (s.withDynamicFile file)).outcome =
      (ofSettings base configFile s).outcome.map (withDynamicFile · file) := by
  refine Reported.outcome_bind_eq_map_self fun _ => ?_
  refine Reported.outcome_bind_eq_map (raiseSnapRetainCount_withDynamicFile s file) fun s => ?_
  refine Reported.outcome_bind_eq_map (placeLog_withDynamicFile s file) fun s => ?_
  refine Reported.outcome_bind_eq_map_self fun client => ?_
  refine Reported.outcome_bind_eq_map_self fun secureClient => ?_
  have hsame : (s.withDynamicFile file).client = s.client ∧
      (s.withDynamicFile file).secureClient = s.secureClient := ⟨rfl, rfl⟩
  rw [hsame.1, hsame.2]
  -- both addresses are compared, if both are there
  cases s.client.explicit? with
  | none => exact Reported.outcome_bind_eq_map_self fun _ => rfl
  | some a =>
    cases s.secureClient.explicit? with
    | none => exact Reported.outcome_bind_eq_map_self fun _ => rfl
    | some b =>
      refine Reported.outcome_bind_eq_map_self fun _ => ?_
      exact Reported.outcome_bind_eq_map_self fun _ => rfl

/-- **The configuration** of a static file once it names a dynamic file. -/
theorem ofStatic_pointedEntries (h : (ofStatic base configFile props).outcome = .ok c)
    (file : Path) : (ofStatic base configFile (pointedEntries props file false)).outcome =
      .ok (c.withDynamicFile (some (.ofText file.display))) := by
  rw [ofStatic_eq, Reported.outcome_bind_eq_ok_iff] at h ⊢
  obtain ⟨s, hs, hc⟩ := h
  refine ⟨_, Settings.ofProperties_pointedEntries hs file, ?_⟩
  rw [ofSettings_withDynamicFile, hc]
  rfl

/-- What a configuration holds before it has a membership, and what it was checked for. -/
theorem exists_of_ofSettings (h : (ofSettings base configFile s).outcome = .ok c) :
    ∃ s₁ s₂ client secureClient, s.auth.check = .ok () ∧
      s.raiseSnapRetainCount.outcome = .ok s₁ ∧ s₁.placeLog = .ok s₂ ∧ s₂.checkTimes = .ok () ∧
      s₂.client.endpoint? .clientPortAddress .clientPort = .ok client ∧ c = {
        base
        settings := s₂
        configFile
        dynamicFile := s₂.dynamicFile.map (locateDynamicFile configFile)
        client
        secureClient } := by
  obtain ⟨u, hauth, h⟩ := Reported.outcome_bind_eq_ok_iff.mp h
  obtain ⟨s₁, hraise, h⟩ := Reported.outcome_bind_eq_ok_iff.mp h
  obtain ⟨s₂, hplace, h⟩ := Reported.outcome_bind_eq_ok_iff.mp h
  obtain ⟨client, hclient, h⟩ := Reported.outcome_bind_eq_ok_iff.mp h
  obtain ⟨secureClient, -, h⟩ := Reported.outcome_bind_eq_ok_iff.mp h
  simp only at h
  split at h
  · obtain ⟨u', -, h⟩ := Reported.outcome_bind_eq_ok_iff.mp h
    obtain ⟨u'', htimes, h⟩ := Reported.outcome_bind_eq_ok_iff.mp h
    exact ⟨s₁, s₂, client, secureClient, hauth, hraise, hplace, htimes, hclient,
      (Except.ok.inj h).symm⟩
  · obtain ⟨u', htimes, h⟩ := Reported.outcome_bind_eq_ok_iff.mp h
    exact ⟨s₁, s₂, client, secureClient, hauth, hraise, hplace, htimes, hclient,
      (Except.ok.inj h).symm⟩

theorem ofSettings_eq_ok (h : (ofSettings base configFile s).outcome = .ok c) :
    c.configFile = configFile ∧
      c.settings.client.endpoint? .clientPortAddress .clientPort = .ok c.client := by
  obtain ⟨s₁, s₂, client, secureClient, -, -, -, -, hclient, rfl⟩ := exists_of_ofSettings h
  exact ⟨rfl, hclient⟩

/-- Static settings propose nothing. -/
theorem pending_of_ofStatic (h : (ofStatic base configFile props).outcome = .ok c) :
    c.pending = none := by
  rw [ofStatic_eq, Reported.outcome_bind_eq_ok_iff] at h
  obtain ⟨s, -, hc⟩ := h
  obtain ⟨s₁, s₂, client, secureClient, -, -, -, -, -, rfl⟩ := exists_of_ofSettings hc
  rfl

/-- What the configuration of a static file takes from its settings. -/
theorem ofStatic_eq_ok (h : (ofStatic base configFile props).outcome = .ok c) :
    ∃ s, (Settings.ofProperties base props).outcome = .ok s ∧ c.configFile = configFile ∧
      c.dynamicFile = s.dynamicFile.map (locateDynamicFile configFile) ∧
      c.settings.client.endpoint? .clientPortAddress .clientPort = .ok c.client := by
  rw [ofStatic_eq, Reported.outcome_bind_eq_ok_iff] at h
  obtain ⟨s, hs, hc⟩ := h
  obtain ⟨hfile, hclient⟩ := ofSettings_eq_ok hc
  refine ⟨s, hs, hfile, ?_, hclient⟩
  have hself := @ofSettings_withDynamicFile base configFile s s.dynamicFile
  have hsame : s.withDynamicFile s.dynamicFile = s := rfl
  rw [hsame, hc] at hself
  have hdynamic : c.dynamicFile = s.dynamicFile.map (locateDynamicFile c.configFile) :=
    congrArg Config.dynamicFile (Except.ok.inj hself)
  rwa [hfile] at hdynamic

/-! ### Taking up a membership -/

/-- A membership fits what is set: a server among others has limits and an id, and the client
endpoint that is set agrees with the one that the membership declares for this server. -/
structure Fits (c : Config) (v : Verifier) : Prop where
  limits : v.isDistributed c.context →
    c.settings.initLimit ≠ 0 ∧ c.settings.syncLimit ≠ 0 ∧ c.serverId.isSome
  client : ∀ id declared configured, c.serverId = some id → v.clientOf? id = some declared →
    c.settings.client.endpoint? .clientPortAddress .clientPort = .ok (some configured) →
    configured.agreesWith declared

theorem takeDeclaredClient_of_none (hv : c.membership = some v)
    (h : c.serverId.bind v.clientOf? = none) : c.takeDeclaredClient = .ok c := by
  have hdeclared : (do
      let id ← c.serverId
      let server ← (← c.membership).members.table.get? id
      return (id, ← server.client) : Option (ServerId × Endpoint)) = none := by
    rw [hv]
    cases hid : c.serverId with
    | none => rfl
    | some id =>
      rw [hid] at h
      simp only [Option.bind_some, Verifier.clientOf?] at h
      simp only [Option.bind_eq_bind, Option.bind_some]
      cases hserver : v.members.table.get? id with
      | none => rfl
      | some server =>
        rw [hserver] at h
        simp only [Option.bind_eq_bind, Option.bind_some] at h
        simp [h]
  unfold takeDeclaredClient
  simp only [hdeclared]
  rfl

theorem takeDeclaredClient_of_some {id : ServerId} {declared : Endpoint} (hv : c.membership = some v)
    (hid : c.serverId = some id) (h : v.clientOf? id = some declared) :
    c.takeDeclaredClient = match c.client with
      | none => .ok { c with client := some declared }
      | some configured =>
        if configured.agreesWith declared then .ok { c with client := some declared }
        else .error (.clientEndpointConflict id configured declared) := by
  have hdeclared : (do
      let id ← c.serverId
      let server ← (← c.membership).members.table.get? id
      return (id, ← server.client) : Option (ServerId × Endpoint)) = some (id, declared) := by
    obtain ⟨server, hserver, hclient⟩ := Option.bind_eq_some_iff.mp h
    simp [hv, hid, hserver, hclient]
  unfold takeDeclaredClient
  simp only [hdeclared]
  cases c.client with
  | none => rfl
  | some configured => cases hagrees : configured.agreesWith declared <;> simp [hagrees] <;> rfl

theorem exists_takeDeclaredClient_iff (hv : c.membership = some v) :
    (∃ c', c.takeDeclaredClient = .ok c') ↔ ∀ id declared configured, c.serverId = some id →
      v.clientOf? id = some declared → c.client = some configured →
      configured.agreesWith declared := by
  cases hdeclared : c.serverId.bind v.clientOf? with
  | none =>
    rw [takeDeclaredClient_of_none hv hdeclared]
    refine iff_of_true ⟨c, rfl⟩ fun id declared configured hid hclient => ?_
    rw [hid, Option.bind_some, hclient] at hdeclared
    cases hdeclared
  | some declared =>
    obtain ⟨id, hid, hclient⟩ := Option.bind_eq_some_iff.mp hdeclared
    rw [takeDeclaredClient_of_some hv hid hclient]
    cases hset : c.client with
    | none => exact iff_of_true ⟨_, rfl⟩ (by simp)
    | some configured =>
      by_cases hagrees : configured.agreesWith declared
      · simp only [hagrees, if_true]
        refine iff_of_true ⟨_, rfl⟩ ?_
        intro id' declared' configured' hid' hclient' hset'
        obtain rfl := Option.some.inj (hid.symm.trans hid')
        obtain rfl := Option.some.inj (hclient.symm.trans hclient')
        obtain rfl := Option.some.inj hset'
        exact hagrees
      · simp only [if_neg hagrees]
        refine iff_of_false ?_ fun h => hagrees (h id declared configured hid hclient rfl)
        rintro ⟨c', ⟨⟩⟩

theorem takeDeclaredClient_eq_ok (h : c.takeDeclaredClient = .ok c') :
    ∃ client, c' = { c with client } := by
  unfold takeDeclaredClient at h
  simp only at h
  split at h
  · exact ⟨c.client, (Except.ok.inj h).symm⟩
  · split at h
    · split at h
      · cases h
      · exact ⟨_, (Except.ok.inj h).symm⟩
    · exact ⟨_, (Except.ok.inj h).symm⟩

theorem takeListedRole_outcome (c : Config) :
    c.takeListedRole.outcome = .ok { c with settings.peerType := c.listedRole } := by
  unfold takeListedRole
  split <;> rfl

theorem checkDistributed_eq_ok_iff : c.checkDistributed = .ok () ↔ (c.isDistributed →
    c.settings.initLimit ≠ 0 ∧ c.settings.syncLimit ≠ 0 ∧ c.serverId.isSome) := by
  unfold checkDistributed
  cases c.isDistributed with
  | false => exact iff_of_true rfl (by simp)
  | true =>
    by_cases hinit : c.settings.initLimit = 0
    · exact iff_of_false (by simp [hinit, bind, Except.bind]) (by simp [hinit])
    · by_cases hsync : c.settings.syncLimit = 0
      · exact iff_of_false (by simp [hinit, hsync, bind, Except.bind]) (by simp [hsync])
      · cases hid : c.serverId with
        | none => exact iff_of_false (by simp [hinit, hsync]) (by simp)
        | some id => exact iff_of_true (by simp [hinit, hsync]; rfl) (by simp [hinit, hsync])

/-- What settling comes to: the client endpoint and the role are taken over, and the check passes. -/
theorem exists_client_of_settle (h : (settle c).outcome = .ok c') :
    ∃ client, c.takeDeclaredClient = .ok { c with client } ∧
      c' = { c with client, settings.peerType := c.listedRole } ∧ c'.checkDistributed = .ok () := by
  obtain ⟨c₁, hclient, h⟩ := Reported.outcome_bind_eq_ok_iff.mp h
  obtain ⟨client, rfl⟩ := takeDeclaredClient_eq_ok hclient
  obtain ⟨c₂, hrole, h⟩ := Reported.outcome_bind_eq_ok_iff.mp h
  rw [takeListedRole_outcome] at hrole
  obtain rfl := Except.ok.inj hrole
  obtain ⟨u, hcheck, h⟩ := Reported.outcome_bind_eq_ok_iff.mp h
  obtain rfl := Except.ok.inj h
  exact ⟨client, hclient, rfl, hcheck⟩

/-- What settling leaves as it is. -/
theorem settle_eq_ok (h : (settle c).outcome = .ok c') :
    ∃ client role, c' = { c with client, settings.peerType := role } := by
  obtain ⟨client, -, hc', -⟩ := exists_client_of_settle h
  exact ⟨client, _, hc'⟩

/-- **A membership is taken up** exactly if it fits what is set. -/
theorem exists_settle_iff (hv : c.membership = some v)
    (hclient : c.settings.client.endpoint? .clientPortAddress .clientPort = .ok c.client) :
    (∃ c', (settle c).outcome = .ok c') ↔ c.Fits v := by
  have hdistributed : ∀ client role, ({ c with client, settings.peerType := role } : Config).isDistributed =
      v.isDistributed c.context := by
    intro client role
    simp only [isDistributed, hv]
    rfl
  constructor
  · rintro ⟨c', h⟩
    obtain ⟨client, hdeclared, rfl, hcheck⟩ := exists_client_of_settle h
    have hagrees := (exists_takeDeclaredClient_iff hv).mp ⟨_, hdeclared⟩
    refine ⟨fun hd => ?_, fun id declared configured hid hdecl hset => ?_⟩
    · refine checkDistributed_eq_ok_iff.mp hcheck ?_
      rwa [hdistributed]
    · refine hagrees id declared configured hid hdecl ?_
      exact Except.ok.inj (hclient.symm.trans hset)
  · intro hfits
    obtain ⟨c₁, hdeclared⟩ := (exists_takeDeclaredClient_iff hv).mpr
      fun id declared configured hid hdecl hset =>
        hfits.client id declared configured hid hdecl (hclient.trans (congrArg _ hset))
    obtain ⟨client, rfl⟩ := takeDeclaredClient_eq_ok hdeclared
    refine ⟨{ c with client, settings.peerType := listedRole { c with client } }, ?_⟩
    refine Reported.outcome_bind_eq_ok_iff.mpr ⟨_, hdeclared, ?_⟩
    refine Reported.outcome_bind_eq_ok_iff.mpr ⟨_, takeListedRole_outcome _, ?_⟩
    refine Reported.outcome_bind_eq_ok_iff.mpr ⟨(), ?_, rfl⟩
    refine checkDistributed_eq_ok_iff.mpr fun hd => hfits.limits ?_
    rwa [hdistributed] at hd

end Config

end Ensemble
