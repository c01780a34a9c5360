import Ensemble.Proofs.Config.Validity
import Ensemble.Proofs.Membership.Run

/-!
# Memberships that obey the population rules

The membership of a configuration passes the population rules when it is loaded (`Config.IsLoaded`),
and a proposal when it is accepted. A proposal that is found beside the dynamic file passes no such
rule. So all that comes into force in a run obeys the rules exactly if such a proposal does, should it
be the first to be published (`Registry.Run.admits_iff`); and it may not
(`Registry.not_forall_admits`).
-/

namespace Ensemble

/-! ### Loading -/

namespace Config

variable {c : Config}

/-- A configuration that was loaded, on files that may answer anything. -/
inductive IsLoaded : Config → Prop
  | ofFile {base : Context} {p : Path} {c : Config}
      (h : (Config.ofFile base p).run.Yields (.ok c)) : IsLoaded c
  | ofProperties {base : Context} {props : Properties} {c : Config}
      (h : (Config.ofProperties base props).run.Yields (.ok c)) : IsLoaded c

/-- Its membership obeys the population rules. -/
def IsAdmitted (c : Config) : Prop :=
  ∃ v, c.membership = some v ∧ checkPopulation v c.settings.electionAlg c.context = .ok ()

theorem IsLoaded.isAdmitted (h : c.IsLoaded) : c.IsAdmitted := by
  obtain ⟨base, source, h⟩ : ∃ base source, (ofSource base source).run.Yields (.ok c) := by
    cases h with
    | ofFile h => exact ⟨_, .file _, h⟩
    | ofProperties h => exact ⟨_, .properties _, h⟩
  obtain ⟨-, -, v, hv⟩ := isValid_of_ofSource h
  exact ⟨v, hv.membership, hv.population true⟩

end Config

/-! ### Proposals -/

theorem Event.pendingAfter_eq_some {next : Option Verifier} {es : List Event} {v : Verifier}
    (h : pendingAfter next es = some v) : .proposed v ∈ es ∨ es = [] ∧ next = some v := by
  rcases List.eq_nil_or_concat es with rfl | ⟨es, e, rfl⟩
  · exact Or.inr ⟨rfl, h⟩
  · left
    rw [List.concat_eq_append] at h ⊢
    unfold pendingAfter at h
    rw [List.foldl_append] at h
    cases e with
    | proposed w =>
      obtain rfl := Option.some.inj h
      simp
    | published w => cases h
    | abandoned => cases h

namespace Registry

variable {r r' start : Registry} {q : Request} {a : Except ConfigError (Option Verifier)}
  {es : List Event} {ss : List Served} {v : Verifier} {c : Config}

/-- The membership obeys the population rules of the registry. -/
def Admits (r : Registry) (v : Verifier) : Prop :=
  checkPopulation v r.electionAlg r.context = .ok ()

theorem Serves.rules_eq (h : Serves r q a es r') :
    r'.electionAlg = r.electionAlg ∧ r'.context = r.context := by
  have hproposed : ∀ {w : Verifier} {r r' : Registry}, (r.propose w).run.Yields (.ok r') →
      r'.electionAlg = r.electionAlg ∧ r'.context = r.context := by
    intro w r r' h
    obtain ⟨rfl, -⟩ := propose_yields_ok h
    exact ⟨rfl, rfl⟩
  have hcommitted : ∀ {r r' : Registry}, r.commit.run.Yields (.ok r') →
      r'.electionAlg = r.electionAlg ∧ r'.context = r.context := by
    intro r r' h
    obtain ⟨w, store, -, -, rfl⟩ := commit_yields h
    exact ⟨rfl, rfl⟩
  cases h with
  | proposed h => exact hproposed h
  | committed h => exact hcommitted h
  | abandoned h => rw [abandon_yields h]; exact ⟨rfl, rfl⟩
  | reconfigured h h' =>
    obtain ⟨halg, hcontext⟩ := hproposed h
    obtain ⟨halg', hcontext'⟩ := hcommitted h'
    exact ⟨halg'.trans halg, hcontext'.trans hcontext⟩
  | reconfigureNotCommitted h h' => exact hproposed h
  | notProposed | notCommitted | reconfigureNotProposed => exact ⟨rfl, rfl⟩

/-- What is accepted as a proposal obeys the rules. -/
theorem Serves.admits_of_proposed (h : Serves r q a es r') (hv : .proposed v ∈ es) :
    r.Admits v := by
  have hchecked : ∀ {w r'}, (r.propose w).run.Yields (.ok r') → r.Admits w := fun h =>
    (checkProposal_eq_ok_iff.mp (propose_yields_ok h).2).2.2
  cases h with
  | proposed h | reconfigured h _ | reconfigureNotCommitted h _ =>
    obtain rfl : v = _ := by simpa using hv
    exact hchecked h
  | committed | abandoned => simp at hv
  | notProposed | notCommitted | reconfigureNotProposed => cases hv

/-- What is published was accepted by the same request, or proposed before. -/
theorem Serves.origin_of_published (h : Serves r q a es r') (hv : .published v ∈ es) :
    .proposed v ∈ es ∨ es.head? = some (.published v) ∧ r.next = some v := by
  cases h with
  | committed h =>
    obtain rfl : v = r'.active := by simpa using hv
    exact Or.inr ⟨rfl, (commit_yields_ok h).1⟩
  | reconfigured h h' =>
    obtain rfl : v = r'.active := by simpa using hv
    obtain ⟨rfl, -⟩ := propose_yields_ok h
    rw [Option.some.inj (commit_yields_ok h').1]
    exact Or.inl (by simp)
  | proposed | abandoned | reconfigureNotCommitted => simp at hv
  | notProposed | notCommitted | reconfigureNotProposed => cases hv

/-! ### Runs -/

theorem allEvents_snoc (ss : List Served) (s : Served) :
    Served.allEvents (ss ++ [s]) = Served.allEvents ss ++ s.events := by
  simp [Served.allEvents]

theorem Run.rules_eq (h : Run start ss r) :
    r.electionAlg = start.electionAlg ∧ r.context = start.context := by
  induction h with
  | nil => exact ⟨rfl, rfl⟩
  | snoc _ hs ih =>
    obtain ⟨halg, hcontext⟩ := hs.rules_eq
    exact ⟨halg.trans ih.1, hcontext.trans ih.2⟩

theorem Run.admits_of_proposed (h : Run start ss r) (hv : .proposed v ∈ Served.allEvents ss) :
    start.Admits v := by
  induction h with
  | nil => cases hv
  | snoc hss hs ih =>
    rw [allEvents_snoc] at hv
    rcases List.mem_append.mp hv with hv | hv
    · exact ih hv
    · obtain ⟨halg, hcontext⟩ := hss.rules_eq
      have hadmits := hs.admits_of_proposed hv
      unfold Admits at hadmits ⊢
      rwa [← halg, ← hcontext]

/-- What is published was accepted in the run, or it was proposed before and is published first. -/
theorem Run.origin_of_published (h : Run start ss r) (hv : .published v ∈ Served.allEvents ss) :
    .proposed v ∈ Served.allEvents ss ∨
      (Served.allEvents ss).head? = some (.published v) ∧ start.next = some v := by
  induction h with
  | nil => cases hv
  | snoc hss hs ih =>
    rw [allEvents_snoc] at hv ⊢
    rw [List.mem_append]
    rcases List.mem_append.mp hv with hv | hv
    · rcases ih hv with hproposed | ⟨hhead, hnext⟩
      · exact Or.inl (Or.inl hproposed)
      · refine Or.inr ⟨?_, hnext⟩
        rw [List.head?_append, hhead]
        rfl
    · rcases hs.origin_of_published hv with hproposed | ⟨hhead, hnext⟩
      · exact Or.inl (Or.inr hproposed)
      · rw [hss.next_eq] at hnext
        rcases Event.pendingAfter_eq_some hnext with hproposed | ⟨hnil, hstart⟩
        · exact Or.inl (Or.inl hproposed)
        · rw [hnil]
          exact Or.inr ⟨hhead, hstart⟩

/-! ### Main results -/

/-- **All that comes into force obeys the population rules**, in a run that starts from a loaded
configuration, exactly if the proposal that was found beside the dynamic file does, should it be
published before anything else happens. -/
theorem Run.admits_iff (hc : c.IsLoaded) (hstart : (ofConfig c).outcome = .ok start)
    (h : Run start ss r) :
    (∀ v ∈ publishedIn start ss, checkPopulation v c.settings.electionAlg r.context = .ok ()) ↔
      ∀ v, c.pending = some v → (Served.allEvents ss).head? = some (.published v) →
        checkPopulation v c.settings.electionAlg c.context = .ok () := by
  obtain ⟨active, hactive, hregistry⟩ := ofConfig_eq_ok_iff.mp hstart
  obtain ⟨v₀, hv₀, hcheck⟩ := hc.isAdmitted
  obtain rfl := Option.some.inj (hactive.symm.trans hv₀)
  have hcontext : r.context = c.context := by
    rw [h.rules_eq.2, hregistry]
  rw [hcontext]
  constructor
  · intro hall v _ hhead
    have hpublished := List.mem_of_mem_head? hhead
    exact hall v (List.mem_cons_of_mem _ (List.mem_filterMap.mpr ⟨.published v, hpublished, rfl⟩))
  · intro hpending v hv
    rcases List.mem_cons.mp hv with rfl | hv
    · rwa [hregistry]
    · obtain ⟨e, he, hpublished⟩ := List.mem_filterMap.mp hv
      obtain rfl : e = .published v := by
        cases e <;> simp_all [Event.published?]
      rcases h.origin_of_published he with hproposed | ⟨hhead, hnext⟩
      · have hadmits := h.admits_of_proposed hproposed
        rwa [hregistry] at hadmits
      · refine hpending v ?_ hhead
        rw [hregistry] at hnext
        exact (Option.filter_eq_some_iff.mp hnext).1

/-- A server on its own, and in the proposal beside the dynamic file it has a role. -/
def foundDisk (role : Role) : Disk where
  nodes := .ofList [
    (["zoo.cfg"], .file 0 "dataDir=data\ndynamicConfigFile=zoo.cfg.dynamic.1\n".toUTF8),
    (["zoo.cfg.dynamic.1"], .file 1 "server.1=a:3888\n".toUTF8),
    (["zoo.cfg.dynamic.next"],
      .file 2 ("server.1=a:3888:" ++ role.text ++ "\nversion=2\n").toUTF8)]
  here := []
  nextId := 3

/-- A membership of one server. -/
def alone (role : Role) (version : Version) : Verifier :=
  .majority (.ofMembers ⟨.ofList [(1, ⟨1, some ⟨"a", 3888⟩, none, role⟩)], fun e he => by
    obtain rfl := List.mem_singleton.mp he
    rfl⟩ version)

/-- What is loaded from these files. -/
def foundConfig (role : Role) : Config where
  base := {}
  settings := {
    context := {}
    dataDir := some ⟨"data"⟩
    dataLogDir := some ⟨"data"⟩
    dynamicFile := some ⟨"zoo.cfg.dynamic.1"⟩ }
  configFile := some ⟨"zoo.cfg"⟩
  dynamicFile := some ⟨"./zoo.cfg.dynamic.1"⟩
  membership := some (alone .participant 1)
  pending := some (alone role 2)

theorem foundConfig_isLoaded (role : Role) : (foundConfig role).IsLoaded := by
  have hload : ((Config.ofFile {} ⟨"zoo.cfg"⟩).run.run (foundDisk role)).value =
      .ok (foundConfig role) := by
    cases role <;> rfl
  exact .ofFile (Script.yields_of_run _ hload)

/-- The commit of the proposal that was found. -/
def foundCommit (role : Role) : Served where
  before := {
    context := {}
    active := alone .participant 1
    next := some (alone role 2)
    store := some { layout := ⟨⟨"zoo.cfg"⟩⟩, activeFile := some ⟨"./zoo.cfg.dynamic.1"⟩ } }
  request := .commit
  answer := .ok (alone role 2)
  events := [.published (alone role 2)]
  after := {
    context := {}
    active := alone role 2
    store := some { layout := ⟨⟨"zoo.cfg"⟩⟩, activeFile := some ⟨"zoo.cfg.dynamic.2"⟩ } }

theorem run_foundCommit (role : Role) :
    Run (foundCommit role).before [foundCommit role] (foundCommit role).after := by
  have hcommit : (foundCommit role).before.commit.run.Yields (.ok (foundCommit role).after) := by
    refine Script.yields_of_run (foundDisk role) ?_
    cases role <;> rfl
  exact @Run.snoc _ [] (foundCommit role) .nil (.committed hcommit)

/-- A participant that is found as a proposal, and put in force. -/
theorem Run.admits_iff_found : Run (foundCommit .participant).before [foundCommit .participant]
      (foundCommit .participant).after ∧
    ∀ v ∈ publishedIn (foundCommit .participant).before [foundCommit .participant],
      checkPopulation v 3 {} = .ok () := by
  have hrun := run_foundCommit .participant
  refine ⟨hrun, (hrun.admits_iff (foundConfig_isLoaded .participant) rfl).mpr ?_⟩
  rintro v ⟨⟩ -
  rfl

/-- An observer on its own may be found as a proposal, and put in force, against the rules. -/
theorem not_forall_admits : ¬ ∀ (c : Config) (start r : Registry) (ss : List Served),
    c.IsLoaded → (ofConfig c).outcome = .ok start → Run start ss r →
      checkPopulation r.active c.settings.electionAlg r.context = .ok () := by
  intro h
  have hcheck := h _ _ _ _ (foundConfig_isLoaded .observer) rfl (run_foundCommit .observer)
  cases hcheck

end Registry

end Ensemble
