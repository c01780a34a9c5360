import Ensemble.Proofs.Membership.Admission

/-!
# Runs without reconfiguration

Where reconfiguration is switched off, nothing is accepted as a proposal (`Registry.Run.not_proposed`).
A commit does not ask for the switch, though, and a registry of a configuration starts with the
proposal that was found beside the dynamic file. So in a run with the switch off what is in force
stays exactly if such a proposal is not published before anything else happens
(`Registry.Run.active_eq_iff`); and it may be (`Registry.not_forall_active_eq`). No more than that one
proposal ever comes into force (`Registry.Run.publishedIn_cases`).
-/

namespace Ensemble.Registry

variable {r r' start : Registry} {q : Request} {a : Except ConfigError (Option Verifier)}
  {es : List Event} {ss : List Served} {v : Verifier}

/-! ### Proposals -/

/-- With the switch off nothing is accepted as a proposal. -/
theorem Serves.not_proposed (hoff : r.context.reconfig = false) (h : Serves r q a es r') :
    .proposed v ∉ es := by
  have hrefused {w : Verifier} {r' : Registry} : ¬ (r.propose w).run.Yields (.ok r') := by
    intro h
    have hon := (checkProposal_eq_ok_iff.mp (propose_yields_ok h).2).1
    rw [hoff] at hon
    cases hon
  cases h with
  | proposed h | reconfigured h _ | reconfigureNotCommitted h _ => exact absurd h hrefused
  | committed | abandoned => simp
  | notProposed | notCommitted | reconfigureNotProposed => exact List.not_mem_nil

theorem Run.not_proposed (hoff : start.context.reconfig = false) (h : Run start ss r) :
    .proposed v ∉ Served.allEvents ss := by
  induction h with
  | nil => exact List.not_mem_nil
  | snoc hss hs ih =>
    rw [allEvents_snoc, List.mem_append, not_or]
    have hoff' := congrArg Context.reconfig hss.rules_eq.2
    exact ⟨ih, hs.not_proposed (hoff'.trans hoff)⟩

/-! ### What comes into force -/

/-- What is published was proposed before the run, and is published first. -/
theorem Run.head?_of_published (hoff : start.context.reconfig = false) (h : Run start ss r)
    (hv : .published v ∈ Served.allEvents ss) :
    (Served.allEvents ss).head? = some (.published v) ∧ start.next = some v := by
  rcases h.origin_of_published hv with hproposed | hfirst
  · exact absurd hproposed (h.not_proposed hoff)
  · exact hfirst

theorem mem_published_iff : v ∈ es.filterMap Event.published? ↔ .published v ∈ es := by
  rw [List.mem_filterMap]
  refine ⟨?_, fun hv => ⟨_, hv, rfl⟩⟩
  rintro ⟨e, he, hpublished⟩
  cases e with
  | published w =>
    obtain rfl := Option.some.inj hpublished
    exact he
  | proposed | abandoned => cases hpublished

/-- What comes into force with the switch off: nothing, or the proposal from before the run. -/
theorem Run.publishedIn_cases (hoff : start.context.reconfig = false) (h : Run start ss r) :
    publishedIn start ss = [start.active] ∨
      ∃ v, start.next = some v ∧ publishedIn start ss = [start.active, v] := by
  have hnext : ∀ v ∈ (Served.allEvents ss).filterMap Event.published?, start.next = some v :=
    fun v hv => (h.head?_of_published hoff (mem_published_iff.mp hv)).2
  have hrising := (List.pairwise_cons.mp h.publishedIn_rising.1).2
  unfold publishedIn
  -- The versions rise, so one membership does not come into force twice.
  match hvs : (Served.allEvents ss).filterMap Event.published? with
  | [] => exact .inl rfl
  | [v] => exact .inr ⟨v, hnext v (by simp [hvs]), rfl⟩
  | v :: w :: rest =>
    rw [hvs] at hnext hrising
    have hlt : v.version < w.version := (List.pairwise_cons.mp hrising).1 w (by simp)
    have heq := (hnext v (by simp)).symm.trans (hnext w (by simp))
    rw [Option.some.inj heq] at hlt
    exact absurd hlt (UInt64.lt_irrefl _)

/-! ### Main results -/

/-- **With the switch off what is in force stays** exactly if the proposal from before the run, should
there be one, is not published before anything else happens. -/
theorem Run.active_eq_iff (hoff : start.context.reconfig = false) (h : Run start ss r) :
    r.active = start.active ↔
      ∀ v, start.next = some v → (Served.allEvents ss).head? ≠ some (.published v) := by
  obtain ⟨hrising, hlast, hle⟩ := h.publishedIn_rising
  constructor
  · intro heq v _ hhead
    have hmem := mem_published_iff.mpr (List.mem_of_mem_head? hhead)
    have hlt : start.active.version < v.version := (List.pairwise_cons.mp hrising).1 v hmem
    have hv := hle v (List.mem_cons_of_mem _ hmem)
    rw [heq] at hv
    exact absurd (UInt64.lt_of_lt_of_le hlt hv) (UInt64.lt_irrefl _)
  · intro hfirst
    rcases List.mem_cons.mp (List.mem_of_getLast? hlast) with heq | hpublished
    · exact heq
    · obtain ⟨hhead, hnext⟩ := h.head?_of_published hoff (mem_published_iff.mp hpublished)
      exact absurd hhead (hfirst _ hnext)

/-- The server on its own that finds a proposal: it refuses another one, abandons the one that it
found, and has nothing to commit. -/
theorem Run.active_eq_iff_abandoned :
    ∃ ss : List Served, ss.map Served.request =
        [.propose (alone .participant 3), .abandon, .commit] ∧
      ∃ r : Registry, Run (foundCommit .participant).before ss r ∧
        r.active = (foundCommit .participant).before.active := by
  let found := (foundCommit .participant).before
  let rid : Registry := { found with next := none }
  have hrefused : (found.propose (alone .participant 3)).run.Yields (.error .reconfigDisabled) :=
    Script.yields_of_run (foundDisk .participant) (by rfl)
  have habandoned : found.abandon.Yields rid := Script.yields_of_run (foundDisk .participant) (by rfl)
  have hnothing : rid.commit.run.Yields (.error .noPendingProposal) :=
    Script.yields_of_run (foundDisk .participant) (by rfl)
  let s1 : Served := ⟨found, .propose (alone .participant 3), .error .reconfigDisabled, [], found⟩
  let s2 : Served := ⟨found, .abandon, .ok found.next, [.abandoned], rid⟩
  let s3 : Served := ⟨rid, .commit, .error .noPendingProposal, [], rid⟩
  have hrun1 : Run found [s1] found := @Run.snoc _ [] s1 .nil (.notProposed hrefused)
  have hrun2 : Run found [s1, s2] rid := @Run.snoc _ [s1] s2 hrun1 (.abandoned habandoned)
  have hrun : Run found [s1, s2, s3] rid := @Run.snoc _ [s1, s2] s3 hrun2 (.notCommitted hnothing)
  refine ⟨_, rfl, rid, hrun, (hrun.active_eq_iff rfl).mpr ?_⟩
  rintro v - ⟨⟩

/-- A participant that is found as a proposal comes into force, though reconfiguration is switched
off. -/
theorem not_forall_active_eq : ¬ ∀ (c : Config) (start r : Registry) (ss : List Served),
    c.IsLoaded → (ofConfig c).outcome = .ok start → start.context.reconfig = false →
      Run start ss r → r.active = start.active := by
  intro h
  have heq := h _ _ _ _ (foundConfig_isLoaded .participant) rfl rfl (run_foundCommit .participant)
  exact absurd (congrArg Verifier.version heq) (by decide)

end Ensemble.Registry
