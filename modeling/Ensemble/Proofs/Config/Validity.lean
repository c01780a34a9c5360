import Ensemble.Proofs.Membership.Foreign
import Ensemble.Proofs.Script.Yields

/-!
# Valid configurations

Whatever the files hold and whichever operations fail, a configuration that is loaded is valid
(`Config.IsValid`): its settings passed every check (`Settings.AreChecked`), and what it takes from
its membership and its id is what they say (`Config.IsSettledFor`). So a configuration that is loaded
again and again is valid from the first success on, and a refusal leaves it as it was
(`Config.Reloads.isValid_or_eq`).
-/

namespace Ensemble

open Settings

/-! ### Checked settings -/

/-- Settings that passed the checks of a static file. -/
structure Settings.AreChecked (s : Settings) : Prop where
  dataDir : s.dataDir.isSome
  dataLogDir : s.dataLogDir.isSome
  tickTime : 0 < s.tickTime
  timeouts : s.minTimeout ≤ s.maxTimeout
  snapRetainCount : 3 ≤ s.snapRetainCount
  learnerRequired : s.auth.serverRequired → s.auth.learnerRequired
  enabled : s.auth.learnerRequired → s.auth.enabled
  passthrough : ∀ key ∈ s.passthrough.keys, IsForeign key

theorem Auth.check_eq_ok_iff {a : Auth} : a.check = .ok () ↔
    (a.serverRequired → a.learnerRequired) ∧ (a.learnerRequired → a.enabled) := by
  obtain ⟨enabled, serverRequired, learnerRequired, _, _, _⟩ := a
  cases enabled <;> cases serverRequired <;> cases learnerRequired <;>
    simp [Auth.check, bind, Except.bind, pure, Except.pure]

namespace Settings

variable {s t : Settings} {key value : String} {b : Bool}

/-! #### Entries that pass through -/

/-- A setting lets nothing through. -/
theorem passthrough_of_set {setting : Setting} (h : (s.set setting value).outcome = .ok t) :
    t.passthrough = s.passthrough := by
  cases setting <;> first
    | (obtain rfl := Except.ok.inj h; rfl)
    | (obtain ⟨a, -, hpure⟩ := Reported.outcome_bind_eq_ok_iff.mp h
       obtain rfl := Except.ok.inj hpure
       rfl)

/-- An entry that passes through is foreign to a membership. -/
theorem passthrough_of_enter (h : (s.enter b key value).outcome = .ok t) :
    t.passthrough = s.passthrough ∨
      IsForeign key ∧ t.passthrough = s.passthrough.insert key value := by
  unfold enter at h
  split at h
  · exact Or.inl (passthrough_of_set h)
  · split at h
    · split at h
      · cases h
      · obtain rfl := Except.ok.inj h
        exact Or.inl rfl
    · rename_i hdeclares
      split at h
      · obtain rfl := Except.ok.inj h
        exact Or.inl rfl
      · rename_i hversion
        obtain rfl := Except.ok.inj h
        exact Or.inr ⟨⟨by simpa using hdeclares, hversion⟩, rfl⟩

theorem isForeign_of_enterAll {es : List (String × String)}
    (hs : ∀ key ∈ s.passthrough.keys, IsForeign key) (h : (s.enterAll b es).outcome = .ok t) :
    ∀ key ∈ t.passthrough.keys, IsForeign key := by
  induction es generalizing s with
  | nil => rwa [← Except.ok.inj h]
  | cons e es ih =>
    obtain ⟨s₁, he, hes⟩ := enterAll_cons_eq_ok_iff.mp h
    refine ih (fun key hkey => ?_) hes
    rcases passthrough_of_enter he with hsame | ⟨hforeign, hinsert⟩
    · exact hs key (hsame ▸ hkey)
    · rw [hinsert] at hkey
      rcases Table.mem_keys_insert_iff.mp hkey with rfl | hkey
      · exact hforeign
      · exact hs key hkey

/-! #### Checks -/

theorem raiseSnapRetainCount_eq_ok (h : s.raiseSnapRetainCount.outcome = .ok t) :
    ∃ n, 3 ≤ n ∧ t = { s with snapRetainCount := n } := by
  unfold raiseSnapRetainCount at h
  split at h
  · exact ⟨snapRetainFloor, by decide, (Except.ok.inj h).symm⟩
  · rename_i hfloor
    exact ⟨s.snapRetainCount, UInt32.not_lt.mp hfloor, (Except.ok.inj h).symm⟩

theorem placeLog_eq_ok (h : s.placeLog = .ok t) :
    ∃ dir log, s.dataDir = some dir ∧ t = { s with dataLogDir := some log } := by
  unfold placeLog at h
  split at h
  · rename_i dir hdir
    obtain rfl := Except.ok.inj h
    cases s.dataLogDir with
    | none => exact ⟨dir, dir, hdir, rfl⟩
    | some log => exact ⟨dir, log, hdir, rfl⟩
  · cases h

theorem checkTimes_eq_ok_iff :
    s.checkTimes = .ok () ↔ 0 < s.tickTime ∧ s.minTimeout ≤ s.maxTimeout := by
  unfold checkTimes
  by_cases hzero : s.tickTime = 0
  · exact iff_of_false (by simp [hzero, bind, Except.bind]) (by simp [hzero])
  · have hpos : 0 < s.tickTime := UInt32.pos_iff_ne_zero.mpr hzero
    by_cases hlt : s.maxTimeout < s.minTimeout
    · exact iff_of_false (by simp [hzero, hlt]) fun h => UInt32.not_lt.mpr h.2 hlt
    · exact iff_of_true (by simp [hzero, hlt]; rfl) ⟨hpos, UInt32.not_lt.mp hlt⟩

end Settings

theorem checkPopulation_of_readMembership {props : Properties} {electionAlg : UInt32}
    {warnings lenient : Bool} {context : Context} {v : Verifier}
    (h : (readMembership props electionAlg warnings lenient context).outcome = .ok v) :
    checkPopulation v electionAlg context = .ok () := by
  cases lenient with
  | false => exact (readMembership_strict_iff.mp h).2.2
  | true =>
    obtain ⟨w, -, h⟩ := Reported.outcome_bind_eq_ok_iff.mp h
    obtain ⟨u, hcheck, h⟩ := Reported.outcome_bind_eq_ok_iff.mp h
    obtain rfl := Except.ok.inj h
    exact hcheck

namespace Config

variable {base : Context} {configFile : Option Path} {props : Properties} {source : Source}
  {c c' : Config}

/-- Static settings are checked before a membership is looked for. -/
theorem areChecked_of_ofStatic (h : (ofStatic base configFile props).outcome = .ok c) :
    c.base = base ∧ c.settings.AreChecked := by
  rw [ofStatic_eq, Reported.outcome_bind_eq_ok_iff] at h
  obtain ⟨s, hs, hc⟩ := h
  obtain ⟨s₁, s₂, client, secureClient, hauth, hraise, hplace, htimes, -, rfl⟩ :=
    exists_of_ofSettings hc
  have hforeign : ∀ key ∈ s.passthrough.keys, IsForeign key :=
    isForeign_of_enterAll (fun key hkey => by cases hkey) hs
  obtain ⟨hlearner, henabled⟩ := Auth.check_eq_ok_iff.mp hauth
  obtain ⟨htick, htimeouts⟩ := checkTimes_eq_ok_iff.mp htimes
  obtain ⟨n, hn, rfl⟩ := raiseSnapRetainCount_eq_ok hraise
  obtain ⟨dir, log, hdir, rfl⟩ := placeLog_eq_ok hplace
  exact ⟨rfl, {
    dataDir := Option.isSome_iff_exists.mpr ⟨dir, hdir⟩
    dataLogDir := rfl
    tickTime := htick
    timeouts := htimeouts
    snapRetainCount := hn
    learnerRequired := hlearner
    enabled := henabled
    passthrough := hforeign }⟩

/-! ### Taking up a membership -/

/-- The configuration of a server that takes part in a membership. -/
structure IsSettledFor (c : Config) (v : Verifier) : Prop where
  membership : c.membership = some v
  population : ∀ warnings,
    (reportPopulation v c.settings.electionAlg warnings c.context).outcome = .ok ()
  limits : c.isDistributed →
    0 < c.settings.initLimit ∧ 0 < c.settings.syncLimit ∧ c.serverId.isSome
  client : ∀ id declared, c.serverId = some id → v.clientOf? id = some declared →
    c.client = some declared
  role : c.settings.peerType = .observer ↔ ∃ id, c.serverId = some id ∧ v.observing.contains id

/-- What a declared client endpoint comes to. -/
theorem client_of_takeDeclaredClient {v : Verifier} {id : ServerId} {declared : Endpoint}
    (h : c.takeDeclaredClient = .ok c') (hv : c.membership = some v) (hid : c.serverId = some id)
    (hdeclared : v.clientOf? id = some declared) : c'.client = some declared := by
  rw [takeDeclaredClient_of_some hv hid hdeclared] at h
  split at h
  · exact (Except.ok.inj h) ▸ rfl
  · split at h
    · exact (Except.ok.inj h) ▸ rfl
    · cases h

theorem listedRole_eq_observer_iff {v : Verifier} (hv : c.membership = some v) :
    c.listedRole = .observer ↔ ∃ id, c.serverId = some id ∧ v.observing.contains id := by
  unfold listedRole
  rw [hv]
  cases c.serverId with
  | none => simp
  | some id => by_cases hobserves : v.observing.contains id <;> simp [hobserves]

theorem isSettledFor_of_settle {v : Verifier} (h : (settle c).outcome = .ok c')
    (hv : c.membership = some v)
    (hcheck : checkPopulation v c.settings.electionAlg c.context = .ok ()) : c'.IsSettledFor v := by
  obtain ⟨client, hclient, rfl, hdistributed⟩ := exists_client_of_settle h
  refine ⟨hv, fun warnings => ?_, fun hd => ?_, fun id declared hid hdeclared => ?_, ?_⟩
  · exact Reported.outcome_bind_eq_ok_iff.mpr ⟨(), rfl, hcheck⟩
  · obtain ⟨hinit, hsync, hid⟩ := checkDistributed_eq_ok_iff.mp hdistributed hd
    exact ⟨UInt32.pos_iff_ne_zero.mpr hinit, UInt32.pos_iff_ne_zero.mpr hsync, hid⟩
  · have hset := client_of_takeDeclaredClient hclient hv hid hdeclared
    exact hset
  · exact listedRole_eq_observer_iff hv

/-- What taking up a membership comes to. -/
theorem adopt_yields {lenient : Bool} (h : (c.adopt props lenient).run.Yields (.ok c')) :
    ∃ v id, checkPopulation v c.settings.electionAlg c.context = .ok () ∧
      (settle { c with membership := some v, serverId := id }).outcome = .ok c' := by
  rw [adopt_eq] at h
  obtain ⟨v, hread, h⟩ := Action.yields_ok_bind_iff.mp h
  obtain ⟨id, -, h⟩ := Action.yields_ok_bind_iff.mp h
  exact ⟨v, id, checkPopulation_of_readMembership (Action.yields_ofReported_iff.mp hread).symm,
    (Action.yields_ofReported_iff.mp h).symm⟩

theorem takeUp_yields (h : (c.takeUp props).run.Yields (.ok c')) :
    ∃ v id c₁ pending, checkPopulation v c.settings.electionAlg c.context = .ok () ∧
      (settle { c with membership := some v, serverId := id }).outcome = .ok c₁ ∧
      c' = { c₁ with pending } := by
  unfold takeUp at h
  split at h
  · obtain ⟨q, -, h⟩ := Action.yields_ok_bind_iff.mp h
    obtain ⟨entries, -, h⟩ := Action.yields_ok_bind_iff.mp h
    cases hversion : entries.contains MembershipKey.version with
    | true =>
      rw [hversion] at h
      obtain ⟨u, hthrow, -⟩ := Action.yields_ok_bind_iff.mp h
      cases Script.yields_pure_iff.mp hthrow
    | false =>
      rw [hversion] at h
      obtain ⟨c₁, hadopt, h⟩ := Action.yields_ok_bind_iff.mp h
      obtain ⟨pending, -, h⟩ := Action.yields_ok_bind_iff.mp h
      obtain rfl := Except.ok.inj (Script.yields_pure_iff.mp h)
      obtain ⟨v, id, hcheck, hsettle⟩ := adopt_yields hadopt
      exact ⟨v, id, c₁, pending, hcheck, hsettle, rfl⟩
  · obtain ⟨v, id, hcheck, hsettle⟩ := adopt_yields h
    exact ⟨v, id, c', c'.pending, hcheck, hsettle, rfl⟩

/-- Static settings come first, then the membership. -/
theorem ofSource_yields {source : Source} (h : (ofSource base source).run.Yields (.ok c)) :
    ∃ configFile props c₀, (ofStatic base configFile props).outcome = .ok c₀ ∧
      (c₀.takeUp props).run.Yields (.ok c) := by
  have hload : ∀ {configFile props}, (load base configFile props).run.Yields (.ok c) →
      ∃ c₀, (ofStatic base configFile props).outcome = .ok c₀ ∧
        (c₀.takeUp props).run.Yields (.ok c) := by
    intro configFile props h
    rw [load_eq] at h
    obtain ⟨c₀, hstatic, h⟩ := Action.yields_ok_bind_iff.mp h
    exact ⟨c₀, (Action.yields_ofReported_iff.mp hstatic).symm, h⟩
  cases source with
  | file p =>
    obtain ⟨q, -, h⟩ := Action.yields_ok_bind_iff.mp h
    obtain ⟨entries, -, h⟩ := Action.yields_ok_bind_iff.mp h
    exact ⟨some q, entries, hload h⟩
  | properties props => exact ⟨none, props, hload h⟩

/-! ### Loading -/

/-- What holds of a configuration that was loaded. -/
def IsValid (c : Config) : Prop := c.settings.AreChecked ∧ ∃ v, c.IsSettledFor v

theorem isValid_of_ofSource (h : (ofSource base source).run.Yields (.ok c)) :
    c.base = base ∧ c.IsValid := by
  obtain ⟨configFile, props, c₀, hstatic, htake⟩ := ofSource_yields h
  obtain ⟨hbase, hchecked⟩ := areChecked_of_ofStatic hstatic
  obtain ⟨v, id, c₁, pending, hcheck, hsettle, rfl⟩ := takeUp_yields htake
  have hsettled : c₁.IsSettledFor v := isSettledFor_of_settle hsettle rfl hcheck
  obtain ⟨client, role, rfl⟩ := settle_eq_ok hsettle
  -- neither a role nor a proposal is what the settings were checked for
  exact ⟨hbase, { hchecked with }, v, { hsettled with }⟩

/-- One time that a configuration is loaded. -/
structure Reload where
  before : Config
  source : Source
  answer : Except ConfigError Unit
  after : Config

/-- A configuration that is loaded again and again, on files that may answer anything each time. -/
inductive Reloads (start : Config) : List Reload → Config → Prop
  | nil : Reloads start [] start
  | snoc {ss : List Reload} {s : Reload} (hss : Reloads start ss s.before)
      (hs : (s.before.reload s.source).Yields (s.answer, s.after)) :
      Reloads start (ss ++ [s]) s.after

variable {start : Config} {s : Reload} {ss : List Reload}

/-- Loading again either fails and changes nothing, or leaves what was loaded. -/
theorem reload_yields {answer : Except ConfigError Unit}
    (h : (c.reload source).Yields (answer, c')) :
    (∃ e, answer = .error e) ∧ c' = c ∨
      answer = .ok () ∧ (ofSource c.base source).run.Yields (.ok c') := by
  obtain ⟨r, hr, h⟩ := Script.yields_bind_iff.mp h
  cases r with
  | error e =>
    obtain ⟨rfl, rfl⟩ := Prod.mk.inj (Script.yields_pure_iff.mp h)
    exact Or.inl ⟨⟨e, rfl⟩, rfl⟩
  | ok c₁ =>
    obtain ⟨rfl, rfl⟩ := Prod.mk.inj (Script.yields_pure_iff.mp h)
    exact Or.inr ⟨rfl, hr⟩

theorem Reloads.base_eq (h : Reloads start ss c) : c.base = start.base := by
  induction h with
  | nil => rfl
  | snoc hss hs ih =>
    rcases reload_yields hs with ⟨-, hsame⟩ | ⟨-, hloaded⟩
    · rw [hsame, ih]
    · rw [(isValid_of_ofSource hloaded).1, ih]

/-- **Every configuration that was loaded is valid.** However often a configuration is loaded, from
whatever files: a refusal leaves it as it was, and it is valid from the first success on. -/
theorem Reloads.isValid_or_eq (h : Reloads (unloaded base) ss c) :
    (∀ s ∈ ss, ∀ e, s.answer = .error e → s.after = s.before) ∧
      ((∀ s ∈ ss, s.answer ≠ .ok ()) ∧ c = unloaded base ∨ c.base = base ∧ c.IsValid) := by
  induction h with
  | nil => exact ⟨by simp, Or.inl ⟨by simp, rfl⟩⟩
  | snoc hss hs ih =>
    obtain ⟨hrefused, hbefore⟩ := ih
    simp only [List.forall_mem_append, List.forall_mem_singleton]
    rcases reload_yields hs with ⟨⟨e, he⟩, hsame⟩ | ⟨hok, hloaded⟩
    · refine ⟨⟨hrefused, fun _ _ => hsame⟩, ?_⟩
      rw [hsame]
      exact hbefore.imp_left fun ⟨hnone, hstart⟩ => ⟨⟨hnone, by simp [he]⟩, hstart⟩
    · refine ⟨⟨hrefused, fun e he => ?_⟩, Or.inr ?_⟩
      · rw [hok] at he
        cases he
      · have hvalid := isValid_of_ofSource hloaded
        rwa [hss.base_eq] at hvalid

/-- A voter and an observer; the observer is this server. -/
def observerDisk : Disk where
  nodes := .ofList [
    (["zoo.cfg"], .file 0 ("dataDir=data\ninitLimit=5\nsyncLimit=2\nserver.1=a:3888\n" ++
      "server.2=b:3888:b:2181:observer\n").toUTF8),
    (["data"], .directory),
    (["data", "myid"], .file 1 "2\n".toUTF8)]
  here := []
  nextId := 2

/-- What is loaded from these files. -/
def observerConfig : Config where
  base := { standalone := false }
  settings := {
    context := { standalone := false }
    dataDir := some ⟨"data"⟩
    dataLogDir := some ⟨"data"⟩
    initLimit := 5
    syncLimit := 2
    peerType := .observer }
  configFile := some ⟨"zoo.cfg"⟩
  client := some ⟨"b", 2181⟩
  serverId := some 2
  membership := some (.majority (.ofMembers ⟨.ofList [
    (1, ⟨1, some ⟨"a", 3888⟩, none, .participant⟩),
    (2, ⟨2, some ⟨"b", 3888⟩, some ⟨"b", 2181⟩, .observer⟩)], by decide⟩ 0))

/-- A static file that is missing. -/
def missingFile : Reload where
  before := unloaded observerConfig.base
  source := .file ⟨"none.cfg"⟩
  answer := .error (.missingFile ⟨"none.cfg"⟩)
  after := unloaded observerConfig.base

def loadedObserver : Reload where
  before := unloaded observerConfig.base
  source := .file ⟨"zoo.cfg"⟩
  answer := .ok ()
  after := observerConfig

/-- Entries that set no data directory. -/
def missingSetting : Reload where
  before := observerConfig
  source := .properties .empty
  answer := .error (.missingSetting Setting.dataDir.key)
  after := observerConfig

/-- A success between two refusals. -/
theorem Reloads.isValid_or_eq_observer :
    Reloads (unloaded observerConfig.base) [missingFile, loadedObserver, missingSetting]
      observerConfig ∧ observerConfig.IsValid := by
  have hyields : ∀ s ∈ [missingFile, loadedObserver, missingSetting],
      (s.before.reload s.source).Yields (s.answer, s.after) := by
    simp only [List.forall_mem_cons]
    exact ⟨Script.yields_of_run observerDisk rfl, Script.yields_of_run observerDisk rfl,
      Script.yields_of_run observerDisk rfl, by simp⟩
  have hfirst := @Reloads.snoc _ _ missingFile .nil (hyields _ (by simp))
  have hsecond := @Reloads.snoc _ _ loadedObserver hfirst (hyields _ (by simp))
  have hrun := @Reloads.snoc _ _ missingSetting hsecond (hyields _ (by simp))
  refine ⟨hrun, ?_⟩
  rcases hrun.isValid_or_eq.2 with ⟨hnone, -⟩ | ⟨-, hvalid⟩
  · exact absurd rfl (hnone loadedObserver (by simp))
  · exact hvalid

end Config

end Ensemble
