import Ensemble.Proofs.Membership.Refusals

/-!
# Serving a request

A registry starts around a membership or from a configuration (`Registry.Starts`) and then serves
requests, on files that may answer anything. `Registry.Serves` lists what serving one may come to,
together with what happens to the proposal on the way (`Event`); `Registry.serve_yields_iff` says
that the list is complete. What each operation does to a registry: `Registry.propose_yields_ok`,
`Registry.commit_yields_ok`, `Registry.commit_yields_error`, `Registry.abandon_yields`.
-/

namespace Ensemble

/-- What happens to the proposal of a registry. -/
inductive Event
  /-- It is accepted, in place of an earlier one. -/
  | proposed (v : Verifier)
  /-- It comes into force. -/
  | published (v : Verifier)
  | abandoned

namespace Event

/-- What is proposed after an event. -/
def pending : Event → Option Verifier
  | proposed v => some v
  | published _ => none
  | abandoned => none

/-- What is proposed after events: the latest that was accepted, or what was proposed before them
all, unless it was published or abandoned since. -/
def pendingAfter (start : Option Verifier) (es : List Event) : Option Verifier :=
  es.foldl (fun _ => pending) start

def published? : Event → Option Verifier
  | published v => some v
  | _ => none

end Event

/-- Whether a request is to put something in force. -/
def Request.commits : Request → Bool
  | .commit => true
  | .reconfigure _ => true
  | _ => false

namespace Registry

/-- How a registry comes about, with any store or none. -/
inductive Starts : Registry → Prop
  /-- Around a membership, with nothing proposed. -/
  | fresh (context : Context) (electionAlg : UInt32) (active : Verifier) (store : Option Store) :
      Starts { context, electionAlg, active, store }
  | loaded {c : Config} {r : Registry} (h : (ofConfig c).outcome = .ok r) (electionAlg : UInt32)
      (store : Option Store) : Starts { r with electionAlg, store }

/-- What serving a request may come to, with the events on the way. To reconfigure is to propose and
to commit. -/
inductive Serves (r : Registry) :
    Request → Except ConfigError (Option Verifier) → List Event → Registry → Prop
  | proposed {v : Verifier} {r' : Registry} (h : (r.propose v).run.Yields (.ok r')) :
      Serves r (.propose v) (.ok r'.next) [.proposed v] r'
  | notProposed {v : Verifier} {e : ConfigError} (h : (r.propose v).run.Yields (.error e)) :
      Serves r (.propose v) (.error e) [] r
  | committed {r' : Registry} (h : r.commit.run.Yields (.ok r')) :
      Serves r .commit (.ok (some r'.active)) [.published r'.active] r'
  | notCommitted {e : ConfigError} (h : r.commit.run.Yields (.error e)) :
      Serves r .commit (.error e) [] r
  | abandoned {r' : Registry} (h : r.abandon.Yields r') :
      Serves r .abandon (.ok r.next) [.abandoned] r'
  | reconfigured {v : Verifier} {r' r'' : Registry} (h : (r.propose v).run.Yields (.ok r'))
      (h' : r'.commit.run.Yields (.ok r'')) :
      Serves r (.reconfigure v) (.ok (some r''.active)) [.proposed v, .published r''.active] r''
  | reconfigureNotProposed {v : Verifier} {e : ConfigError}
      (h : (r.propose v).run.Yields (.error e)) : Serves r (.reconfigure v) (.error e) [] r
  | reconfigureNotCommitted {v : Verifier} {r' : Registry} {e : ConfigError}
      (h : (r.propose v).run.Yields (.ok r')) (h' : r'.commit.run.Yields (.error e)) :
      Serves r (.reconfigure v) (.error e) [.proposed v] r'

/-- **Serving a request** comes to one of the listed things. -/
theorem serve_yields_iff {r r' : Registry} {q : Request}
    {a : Except ConfigError (Option Verifier)} :
    (r.serve q).Yields (a, r') ↔ ∃ es, Serves r q a es r' := by
  constructor
  · intro h
    cases q with
    | propose v =>
      obtain ⟨x, hx, hr⟩ := Script.yields_bind_iff.mp h
      cases x <;> cases Script.yields_pure_iff.mp hr
      · exact ⟨_, .notProposed hx⟩
      · exact ⟨_, .proposed hx⟩
    | commit =>
      obtain ⟨x, hx, hr⟩ := Script.yields_bind_iff.mp h
      cases x <;> cases Script.yields_pure_iff.mp hr
      · exact ⟨_, .notCommitted hx⟩
      · exact ⟨_, .committed hx⟩
    | abandon =>
      obtain ⟨x, hx, hr⟩ := Script.yields_bind_iff.mp h
      cases Script.yields_pure_iff.mp hr
      exact ⟨_, .abandoned hx⟩
    | reconfigure v =>
      obtain ⟨x, hx, hr⟩ := Script.yields_bind_iff.mp h
      cases x with
      | error e =>
        cases Script.yields_pure_iff.mp hr
        exact ⟨_, .reconfigureNotProposed hx⟩
      | ok s =>
        obtain ⟨y, hy, hr⟩ := Script.yields_bind_iff.mp hr
        cases y <;> cases Script.yields_pure_iff.mp hr
        · exact ⟨_, .reconfigureNotCommitted hx hy⟩
        · exact ⟨_, .reconfigured hx hy⟩
  · rintro ⟨es, h⟩
    cases h with
    | proposed h => exact Script.yields_bind_iff.mpr ⟨_, h, .done _⟩
    | notProposed h => exact Script.yields_bind_iff.mpr ⟨_, h, .done _⟩
    | committed h => exact Script.yields_bind_iff.mpr ⟨_, h, .done _⟩
    | notCommitted h => exact Script.yields_bind_iff.mpr ⟨_, h, .done _⟩
    | abandoned h => exact Script.yields_bind_iff.mpr ⟨_, h, .done _⟩
    | reconfigured h h' =>
      exact Script.yields_bind_iff.mpr ⟨_, h, Script.yields_bind_iff.mpr ⟨_, h', .done _⟩⟩
    | reconfigureNotProposed h => exact Script.yields_bind_iff.mpr ⟨_, h, .done _⟩
    | reconfigureNotCommitted h h' =>
      exact Script.yields_bind_iff.mpr ⟨_, h, Script.yields_bind_iff.mpr ⟨_, h', .done _⟩⟩

/-! ## What the operations do -/

variable {r r' : Registry} {v : Verifier}

/-- Whatever is proposed has a larger version than what is in force. -/
def Advances (r : Registry) : Prop := ∀ v, r.next = some v → r.active.version < v.version

theorem checkVersion_eq_ok_iff : r.checkVersion v = .ok () ↔ r.active.version < v.version := by
  unfold checkVersion
  split
  · rename_i hle
    simp only [throw, throwThe, MonadExceptOf.throw, reduceCtorEq, false_iff]
    exact UInt64.not_lt.mpr hle
  · rename_i hle
    simp only [pure, Except.pure, true_iff]
    exact UInt64.not_le.mp hle

/-- What passes as a proposal. -/
theorem checkProposal_eq_ok_iff : (r.checkProposal v).outcome = .ok () ↔
    r.context.reconfig ∧ r.active.version < v.version ∧
      checkPopulation v r.electionAlg r.context = .ok () := by
  rw [← checkVersion_eq_ok_iff]
  cases hr : r.context.reconfig with
  | false => simp [checkProposal, hr, Reported.refuse, bind]
  | true =>
    cases hv : r.checkVersion v <;>
      simp [checkProposal, hr, hv, reportPopulation, Reported.notify, liftM, monadLift,
        MonadLift.monadLift, bind]

theorem propose_yields_ok (h : (r.propose v).run.Yields (.ok r')) :
    r' = { r with next := some v } ∧ (r.checkProposal v).outcome = .ok () := by
  obtain ⟨u, hcheck, h⟩ := Action.yields_ok_bind_iff.mp h
  refine ⟨?_, (Action.yields_ofReported_iff.mp hcheck).symm⟩
  cases hs : r.store with
  | none =>
    simp only [hs] at h
    exact Except.ok.inj (Script.yields_pure_iff.mp h)
  | some store =>
    simp only [hs] at h
    obtain ⟨-, -, h⟩ := Action.yields_ok_bind_iff.mp h
    exact Except.ok.inj (Script.yields_pure_iff.mp h)

/-- All that a commit changes. -/
theorem commit_yields (h : r.commit.run.Yields (.ok r')) : ∃ v store, r.next = some v ∧
    r.active.version < v.version ∧ r' = { r with active := v, next := none, store } := by
  unfold commit at h
  cases hn : r.next with
  | none => rw [hn] at h; cases Script.yields_pure_iff.mp h
  | some v =>
    simp only [hn] at h
    obtain ⟨u, hcheck, h⟩ := Action.yields_ok_bind_iff.mp h
    have hlt := checkVersion_eq_ok_iff.mp (Action.yields_ofExcept_iff.mp hcheck).symm
    cases hs : r.store with
    | none =>
      simp only [hs] at h
      exact ⟨v, none, rfl, hlt, Except.ok.inj (Script.yields_pure_iff.mp h)⟩
    | some store =>
      simp only [hs] at h
      obtain ⟨store', -, h⟩ := Action.yields_ok_bind_iff.mp h
      exact ⟨v, some store', rfl, hlt, Except.ok.inj (Script.yields_pure_iff.mp h)⟩

theorem commit_yields_ok (h : r.commit.run.Yields (.ok r')) :
    r.next = some r'.active ∧ r.active.version < r'.active.version ∧ r'.next = none := by
  obtain ⟨v, store, hnext, hlt, rfl⟩ := commit_yields h
  exact ⟨hnext, hlt, rfl⟩

/-- What a commit may be refused for, where the proposal advances the version. -/
theorem commit_yields_error (hadv : r.Advances) {e : ConfigError}
    (h : r.commit.run.Yields (.error e)) : e = .noPendingProposal ∨ e.IsOfFile := by
  unfold commit at h
  cases hn : r.next with
  | none => rw [hn] at h; cases Script.yields_pure_iff.mp h; exact Or.inl rfl
  | some v =>
    simp only [hn] at h
    have hok := checkVersion_eq_ok_iff.mpr (hadv v hn)
    rcases Action.yields_error_bind_iff.mp h with ⟨u, -, h⟩ | h
    · cases hs : r.store with
      | none => simp only [hs] at h; cases Script.yields_pure_iff.mp h
      | some store =>
        simp only [hs] at h
        exact Or.inr (Action.refusesOnly_bind (r.refusesOnly_commitStore store v)
          (fun _ => Action.refusesOnly_pure _) e h)
    · rw [hok] at h
      cases Action.yields_ofExcept_iff.mp h

theorem abandon_yields (h : r.abandon.Yields r') : r' = { r with next := none } := by
  unfold abandon at h
  cases hn : r.next <;> cases hs : r.store <;> simp only [hn, hs] at h
  case some.some =>
    obtain ⟨-, -, h⟩ := Script.yields_bind_iff.mp h
    exact Script.yields_pure_iff.mp h
  all_goals exact Script.yields_pure_iff.mp h

/-- **The registry of a configuration** needs a membership, and takes a proposal that advances it. -/
theorem ofConfig_eq_ok_iff {c : Config} : (ofConfig c).outcome = .ok r ↔
    ∃ active, c.membership = some active ∧ r = {
      context := c.context
      electionAlg := c.settings.electionAlg
      active
      next := c.pending.filter fun v => active.version < v.version
      store := c.layout.map fun layout => { layout, activeFile := c.dynamicFile } } := by
  unfold ofConfig
  cases hm : c.membership with
  | none => simp [Reported.refuse]
  | some active =>
    have hok : ∀ r' : Registry, (pure r' : Reported Registry).outcome = .ok r ↔ r = r' :=
      fun r' => ⟨fun h => (Except.ok.inj h).symm, fun h => congrArg Except.ok h.symm⟩
    simp only [Option.some.injEq, exists_eq_left']
    cases hp : c.pending with
    | none => exact hok _
    | some v =>
      by_cases hlt : active.version < v.version
      · simp only [if_pos hlt, Option.filter_some, decide_eq_true hlt, if_true]
        exact hok _
      · simp only [if_neg hlt, Option.filter_some, decide_eq_false hlt, Bool.false_eq_true, if_false]
        exact hok _

theorem advances_of_ofConfig {c : Config} (h : (ofConfig c).outcome = .ok r) : r.Advances := by
  obtain ⟨active, -, rfl⟩ := ofConfig_eq_ok_iff.mp h
  intro v hv
  exact of_decide_eq_true (Option.filter_eq_some_iff.mp hv).2

theorem Starts.advances (h : r.Starts) : r.Advances := by
  cases h with
  | fresh => rintro v ⟨⟩
  | loaded h => exact fun v hv => advances_of_ofConfig h v hv

end Registry

end Ensemble
