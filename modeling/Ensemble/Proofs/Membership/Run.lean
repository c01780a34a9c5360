import Ensemble.Proofs.Membership.Serving

/-!
# Runs of a registry

A run is a chain of served requests, on files that may answer anything each time. What every one of
them preserves is `Registry.Advances`: whatever is proposed has a larger version than what is in
force. Main statement: `Registry.Run.invariant`, on what requests change (`Served.Lawful`), on what is
proposed (`Event.pendingAfter`), and on the memberships that were in force, by rising version.
-/

namespace Ensemble

/-- A request that a registry served, with the registry before and after. -/
structure Served where
  before : Registry
  request : Request
  answer : Except ConfigError (Option Verifier)
  events : List Event
  after : Registry

namespace Served

/-- What a served request changes. -/
structure Lawful (s : Served) : Prop where
  /-- A commit is never refused for its version. -/
  not_stale : s.request = .commit → ∀ a p, s.answer ≠ .error (.staleVersion a p)
  /-- A commit that succeeds puts in force what was proposed: before, or by the request itself. -/
  published : s.request.commits → ∀ a, s.answer = .ok a → a = some s.after.active ∧
    (s.request = .commit ∧ s.before.next = some s.after.active ∨
      s.request = .reconfigure s.after.active) ∧
    s.before.active.version < s.after.active.version ∧ s.after.next = none
  /-- Nothing else changes what is in force. -/
  kept : ¬ (s.request.commits ∧ s.answer.isOk) → s.after.active = s.before.active
  /-- What is refused changes nothing, but what a reconfiguration proposed stays proposed. -/
  refused : ∀ e, s.answer = .error e → s.after = s.before ∨
    ∃ v, s.request = .reconfigure v ∧ (s.before.propose v).run.Yields (.ok s.after) ∧
      s.after.commit.run.Yields (.error e) ∧ s.after = { s.before with next := some v }

/-- The events of requests served in turn. -/
def allEvents (ss : List Served) : List Event := ss.flatMap events

end Served

namespace Registry

/-- The requests that a registry served, one after the other, and the registry in the end. -/
inductive Run (start : Registry) : List Served → Registry → Prop
  | nil : Run start [] start
  | snoc {ss : List Served} {s : Served} (hss : Run start ss s.before)
      (hs : Serves s.before s.request s.answer s.events s.after) :
      Run start (ss ++ [s]) s.after

/-- The memberships that were in force in a run, the latest last. -/
def publishedIn (start : Registry) (ss : List Served) : List Verifier :=
  start.active :: (Served.allEvents ss).filterMap Event.published?

/-! ### One request -/

variable {r r' : Registry} {q : Request} {a : Except ConfigError (Option Verifier)}
  {es : List Event}

theorem Serves.next_eq (h : Serves r q a es r') : r'.next = Event.pendingAfter r.next es := by
  cases h with
  | proposed h => rw [(propose_yields_ok h).1]; rfl
  | committed h => exact (commit_yields_ok h).2.2
  | abandoned h => rw [abandon_yields h]; rfl
  | reconfigured h h' => exact (commit_yields_ok h').2.2
  | reconfigureNotCommitted h h' => rw [(propose_yields_ok h).1]; rfl
  | notProposed | notCommitted | reconfigureNotProposed => rfl

/-- What is in force stays, or one membership is published, with a larger version. -/
theorem Serves.active_cases (h : Serves r q a es r') :
    es.filterMap Event.published? = [] ∧ r'.active = r.active ∨
      es.filterMap Event.published? = [r'.active] ∧ r.active.version < r'.active.version := by
  cases h with
  | proposed h => rw [(propose_yields_ok h).1]; exact Or.inl ⟨rfl, rfl⟩
  | committed h => exact Or.inr ⟨rfl, (commit_yields_ok h).2.1⟩
  | abandoned h => rw [abandon_yields h]; exact Or.inl ⟨rfl, rfl⟩
  | reconfigured h h' =>
    obtain ⟨rfl, -⟩ := propose_yields_ok h
    exact Or.inr ⟨rfl, (commit_yields_ok h').2.1⟩
  | reconfigureNotCommitted h h' => rw [(propose_yields_ok h).1]; exact Or.inl ⟨rfl, rfl⟩
  | notProposed | notCommitted | reconfigureNotProposed => exact Or.inl ⟨rfl, rfl⟩

theorem Serves.advances (h : Serves r q a es r') (hadv : r.Advances) : r'.Advances := by
  have hproposed : ∀ {v r'}, (r.propose v).run.Yields (.ok r') → r'.Advances := by
    intro v r' h
    obtain ⟨rfl, hcheck⟩ := propose_yields_ok h
    rintro w ⟨⟩
    exact (checkProposal_eq_ok_iff.mp hcheck).2.1
  have hcommitted : ∀ {r r' : Registry}, r.commit.run.Yields (.ok r') → r'.Advances := by
    intro r r' h v hv
    rw [(commit_yields_ok h).2.2] at hv
    cases hv
  cases h with
  | proposed h => exact hproposed h
  | committed h => exact hcommitted h
  | abandoned h => rw [abandon_yields h]; rintro v ⟨⟩
  | reconfigured h h' => exact hcommitted h'
  | reconfigureNotCommitted h h' => exact hproposed h
  | notProposed | notCommitted | reconfigureNotProposed => exact hadv

theorem Serves.lawful (h : Serves r q a es r') (hadv : r.Advances) :
    Served.Lawful ⟨r, q, a, es, r'⟩ := by
  cases h with
  | proposed h =>
    obtain ⟨rfl, -⟩ := propose_yields_ok h
    exact ⟨by simp, by simp [Request.commits], fun _ => rfl, by simp⟩
  | notProposed h => exact ⟨by simp, by simp, fun _ => rfl, fun _ _ => Or.inl rfl⟩
  | committed h =>
    obtain ⟨hnext, hlt, hnone⟩ := commit_yields_ok h
    refine ⟨by simp, ?_, by simp [Request.commits, Except.isOk, Except.toBool], by simp⟩
    rintro - _ ⟨⟩
    exact ⟨rfl, Or.inl ⟨rfl, hnext⟩, hlt, hnone⟩
  | notCommitted h =>
    refine ⟨?_, by simp, fun _ => rfl, fun _ _ => Or.inl rfl⟩
    rintro - a p ⟨⟩
    rcases commit_yields_error hadv h with h | h <;> cases h
  | abandoned h =>
    obtain rfl := abandon_yields h
    exact ⟨by simp, by simp [Request.commits], fun _ => rfl, by simp⟩
  | reconfigured h h' =>
    obtain ⟨rfl, -⟩ := propose_yields_ok h
    obtain ⟨hnext, hlt, hnone⟩ := commit_yields_ok h'
    refine ⟨by simp, ?_, by simp [Request.commits, Except.isOk, Except.toBool], by simp⟩
    rintro - _ ⟨⟩
    obtain rfl := Option.some.inj hnext
    exact ⟨rfl, Or.inr rfl, hlt, hnone⟩
  | reconfigureNotProposed h => exact ⟨by simp, by simp, fun _ => rfl, fun _ _ => Or.inl rfl⟩
  | reconfigureNotCommitted h h' =>
    obtain ⟨rfl, -⟩ := propose_yields_ok h
    refine ⟨by simp, by simp, fun _ => rfl, ?_⟩
    rintro e ⟨⟩
    exact Or.inr ⟨_, rfl, h, h', rfl⟩

/-! ### All requests -/

variable {start : Registry} {ss : List Served}

theorem Run.advances (hstart : start.Starts) (h : Run start ss r) : r.Advances := by
  induction h with
  | nil => exact hstart.advances
  | snoc _ hs ih => exact hs.advances ih

theorem Run.next_eq (h : Run start ss r) :
    r.next = Event.pendingAfter start.next (Served.allEvents ss) := by
  induction h with
  | nil => rfl
  | @snoc ss s _ hs ih =>
    rw [hs.next_eq, ih, Event.pendingAfter, Event.pendingAfter, ← List.foldl_append]
    simp [Served.allEvents, Event.pendingAfter]

theorem publishedIn_snoc (start : Registry) (ss : List Served) (s : Served) :
    publishedIn start (ss ++ [s]) =
      publishedIn start ss ++ s.events.filterMap Event.published? := by
  simp [publishedIn, Served.allEvents]

/-- What was in force has rising versions, and the last of it is in force. -/
theorem Run.publishedIn_rising (h : Run start ss r) :
    (publishedIn start ss).Pairwise (fun v w => v.version < w.version) ∧
      (publishedIn start ss).getLast? = some r.active ∧
      ∀ v ∈ publishedIn start ss, v.version ≤ r.active.version := by
  induction h with
  | nil => exact ⟨by simp [publishedIn, Served.allEvents], rfl, by simp [publishedIn, Served.allEvents]⟩
  | @snoc ss s _ hs ih =>
    obtain ⟨hpair, hlast, hle⟩ := ih
    rw [publishedIn_snoc]
    rcases hs.active_cases with ⟨hnone, heq⟩ | ⟨hone, hlt⟩
    · rw [hnone, List.append_nil, heq]
      exact ⟨hpair, hlast, hle⟩
    · have hall : ∀ v ∈ publishedIn start ss, v.version < s.after.active.version :=
        fun v hv => UInt64.lt_of_le_of_lt (hle v hv) hlt
      rw [hone]
      refine ⟨?_, by simp, fun v hv => ?_⟩
      · rw [List.pairwise_append]
        refine ⟨hpair, List.pairwise_singleton _ _, fun v hv w hw => ?_⟩
        obtain rfl := List.mem_singleton.mp hw
        exact hall v hv
      · rcases List.mem_append.mp hv with hv | hv
        · exact UInt64.le_of_lt (hall v hv)
        · obtain rfl := List.mem_singleton.mp hv
          exact UInt64.le_refl _

/-- Every request of a run was served by the registry that the requests before it left. -/
theorem Run.split {pre post : List Served} {s : Served} (h : Run start (pre ++ s :: post) r) :
    Run start pre s.before ∧ Serves s.before s.request s.answer s.events s.after := by
  generalize hall : pre ++ s :: post = ss at h
  induction h generalizing post with
  | nil => simp at hall
  | @snoc ss last hss hs ih =>
    rcases List.eq_nil_or_concat post with rfl | ⟨post, t, rfl⟩
    · obtain ⟨rfl, hlast⟩ := List.append_inj' hall rfl
      obtain rfl := List.singleton_inj.mp hlast
      exact ⟨hss, hs⟩
    · refine @ih post ?_
      rw [List.concat_eq_append, ← List.cons_append, ← List.append_assoc] at hall
      exact (List.append_inj' hall rfl).1

/-- **Runs of a registry**: at every point what is proposed is the latest proposal that was accepted
and neither published nor abandoned since, and advances the version; every request obeys the laws;
and what was in force has rising versions. -/
theorem Run.invariant (hstart : start.Starts) (h : Run start ss r) :
    (∀ pre s post, ss = pre ++ s :: post → s.Lawful ∧ s.before.Advances ∧ s.after.Advances ∧
      s.before.next = Event.pendingAfter start.next (Served.allEvents pre)) ∧
    r.Advances ∧ r.next = Event.pendingAfter start.next (Served.allEvents ss) ∧
    (publishedIn start ss).getLast? = some r.active ∧
    (publishedIn start ss).Pairwise fun v w => v.version < w.version := by
  obtain ⟨hpair, hlast, -⟩ := h.publishedIn_rising
  refine ⟨?_, h.advances hstart, h.next_eq, hlast, hpair⟩
  rintro pre s post rfl
  obtain ⟨hpre, hs⟩ := h.split
  have hadv := hpre.advances hstart
  exact ⟨hs.lawful hadv, hadv, hs.advances hadv, hpre.next_eq⟩

/-- A membership of nobody. -/
def nobody (version : Version) : Verifier := .majority (.ofMembers .empty version)

/-- A registry of nobody, with files around `zoo.cfg`. -/
def ofNobody (active : Version) (next : Option Version) (activeFile : Option Path) : Registry where
  context := { reconfig := true }
  active := nobody active
  next := next.map nobody
  store := some { layout := ⟨⟨"zoo.cfg"⟩⟩, activeFile }

/-- Version 2 is proposed, then version 3 is, the commit of which fails for want of a static file.
Once that is there, version 3 is committed. -/
theorem Run.invariant_retry :
    ∃ ss : List Served, ss.map Served.request =
        [.propose (nobody 2), .reconfigure (nobody 3), .commit] ∧
      ∃ r : Registry, Run (ofNobody 1 none none) ss r ∧ r.Advances ∧
        (publishedIn (ofNobody 1 none none) ss).map Verifier.version = [1, 3] ∧
        ∀ s ∈ ss, s.Lawful := by
  have proposed2 : ((ofNobody 1 none none).propose (nobody 2)).run.Yields
      (.ok (ofNobody 1 (some 2) none)) := Script.yields_of_run ⟨.empty, [], 0⟩ (by rfl)
  have proposed3 : ((ofNobody 1 (some 2) none).propose (nobody 3)).run.Yields
      (.ok (ofNobody 1 (some 3) none)) := Script.yields_of_run ⟨.empty, [], 0⟩ (by rfl)
  have refused3 : (ofNobody 1 (some 3) none).commit.run.Yields
      (.error (.missingFile ⟨"zoo.cfg"⟩)) := Script.yields_of_run ⟨.empty, [], 0⟩ (by rfl)
  have committed3 : (ofNobody 1 (some 3) none).commit.run.Yields
      (.ok (ofNobody 3 none (some ⟨"zoo.cfg.dynamic.3"⟩))) :=
    Script.yields_of_run ⟨.ofList [(["zoo.cfg"], .file 0 "dataDir=/data\n".toUTF8)], [], 1⟩
      (by rfl)
  let s1 : Served := ⟨ofNobody 1 none none, .propose (nobody 2), .ok (nobody 2),
    [.proposed (nobody 2)], ofNobody 1 (some 2) none⟩
  let s2 : Served := ⟨ofNobody 1 (some 2) none, .reconfigure (nobody 3),
    .error (.missingFile ⟨"zoo.cfg"⟩), [.proposed (nobody 3)], ofNobody 1 (some 3) none⟩
  let s3 : Served := ⟨ofNobody 1 (some 3) none, .commit, .ok (nobody 3), [.published (nobody 3)],
    ofNobody 3 none (some ⟨"zoo.cfg.dynamic.3"⟩)⟩
  have hrun1 : Run (ofNobody 1 none none) [s1] s1.after :=
    @Run.snoc _ [] s1 .nil (.proposed proposed2)
  have hrun2 : Run (ofNobody 1 none none) [s1, s2] s2.after :=
    @Run.snoc _ [s1] s2 hrun1 (.reconfigureNotCommitted proposed3 refused3)
  have hrun : Run (ofNobody 1 none none) [s1, s2, s3] s3.after :=
    @Run.snoc _ [s1, s2] s3 hrun2 (.committed committed3)
  obtain ⟨hlaw, hadv, -, -, -⟩ := hrun.invariant (.fresh _ _ _ _)
  refine ⟨_, rfl, _, hrun, hadv, rfl, fun s hs => ?_⟩
  obtain ⟨pre, post, hsplit⟩ := List.append_of_mem hs
  exact (hlaw pre s post hsplit).1

end Registry

end Ensemble
