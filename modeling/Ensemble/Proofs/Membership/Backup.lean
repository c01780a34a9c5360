import Ensemble.Proofs.Membership.Agreement
import Ensemble.Proofs.Membership.Restart
import Ensemble.Proofs.Membership.Sparing

/-!
# The backup of the static file

A commit backs up the static file only where the membership in force is a distributed one, and rewrites
it in any case. So over a run the backup is the static file of when the first distributed membership
was in force (`Registry.RunOn.backup_eq`): the file as it was at the start, if the run starts with such
a membership, and else a file that a commit of the run has written (`Registry.not_forall_backup_eq`).

At the start there is a static file and no backup, and the paths that the store touches do not come to
lead to either (`Store.KeepsApart`). There are no symbolic and no hard links on the disk.
-/

namespace Ensemble

open Script Disk Layout

variable {F : FileOp → Prop} {d d₁ d' : Disk} {directory : Location} {name : String} {l : Layout}
  {s s' : Store} {v : Verifier}

/-! ### Paths of the files -/

/-- Whether the path of a file can be opened does not depend on the disk. -/
theorem Layout.opens_of_read {before : List Char} {k : Kind} {bytes : ByteArray}
    (hends : l.staticFile.EndsInField before name.toList) (h : d.read (l.file k) = .ok bytes) :
    l.Opens name k := by
  obtain ⟨hshort, place, hleads, -⟩ := Disk.read_eq_ok_iff.mp h
  obtain ⟨before', field, directory, hfile, -, -, hsize⟩ := hleads.exists_name
  obtain ⟨rfl, rfl⟩ := hfile.endsInField.unique (file_endsInField hends k)
  rw [String.ofList_toList] at hsize
  exact ⟨hfile.isName, hshort, hleads.hasNul_eq, hsize⟩

/-- The dynamic file of a version, by the path of the static file from the top. -/
theorem Layout.dynamicFile_place (directory : Location) (name : String) (version : Version) :
    (Layout.mk (pathOf (Kind.static.place directory name))).dynamicFile version =
      pathOf (Kind.place directory name (.dynamic version)) := by
  simp only [Kind.place, Kind.suffix, String.append_empty]
  rw [dynamicFile_pathOf, dynamicName, String.append_assoc]

/-! ### What a run keeps -/

/-- The static file after a commit of `v`, from what it holds before: its entries, and the one that
names the dynamic file of `v` by the path `top` of the static file from the top. -/
def Store.repoint? (s : Store) (top : Path) (content : ByteArray) (v : Verifier) :
    Option ByteArray := do
  let text ← String.fromUTF8? content
  let props ← (Properties.ofText text).toOption
  return (staticText props ((Layout.mk top).dynamicFile v.version) s.eraseClientPort).toUTF8

theorem Store.repoint?_eq_some_iff {top : Path} {content copy : ByteArray} :
    s.repoint? top content v = some copy ↔ ∃ text props, content = text.toUTF8 ∧
      Properties.ofText text = .ok props ∧
      copy = (staticText props ((Layout.mk top).dynamicFile v.version) s.eraseClientPort).toUTF8 := by
  unfold repoint?
  constructor
  · intro h
    obtain ⟨text, htext, h⟩ := Option.bind_eq_some_iff.mp h
    cases hprops : Properties.ofText text with
    | error e =>
      rw [hprops] at h
      cases h
    | ok props =>
      rw [hprops] at h
      exact ⟨text, props, (toUTF8_eq_of_fromUTF8? htext).symm, hprops, (Option.some.inj h).symm⟩
  · rintro ⟨text, props, rfl, hprops, rfl⟩
    simp only [fromUTF8?_toUTF8, Option.bind_eq_bind, Option.bind_some, hprops]
    rfl

/-- The static file after commits of some memberships, one after the other. -/
def Store.repointAll? (s : Store) (top : Path) (bytes : ByteArray) (vs : List Verifier) :
    Option ByteArray :=
  vs.foldlM (s.repoint? top) bytes

theorem Store.repointAll?_concat_eq_some_iff {top : Path} {vs : List Verifier}
    {bytes copy : ByteArray} : s.repointAll? top bytes (vs ++ [v]) = some copy ↔
      ∃ content, s.repointAll? top bytes vs = some content ∧
        s.repoint? top content v = some copy := by
  simp only [repointAll?, List.foldlM_append, List.foldlM_cons, List.foldlM_nil, bind_pure,
    Option.bind_eq_bind, Option.bind_eq_some_iff]

namespace Registry

variable {start r r' : Registry} {bytes : ByteArray} {older : List Verifier}

/-- What is known of the static file and of its backup, where the memberships `older` were in force
before the one that is. The static file is as the commits since the beginning left it, and its backup
as those up to the first distributed membership did. And since a distributed membership was replaced,
something is at the place of the backup. -/
structure Trails (start : Registry) (s : Store) (bytes : ByteArray) (older : List Verifier)
    (directory : Location) (name : String) (r : Registry) (d : Disk) : Prop where
  context_eq : r.context = start.context
  head?_eq : (older ++ [r.active]).head? = some start.active
  store : ∃ s', r.store = some s' ∧ s'.layout = s.layout ∧ s'.eraseClientPort = s.eraseClientPort ∧
    s'.Spares d directory name
  isIn : s.layout.IsIn d directory name
  static : ∃ content, d.contents directory name .static = some content ∧
    s.repointAll? (pathOf (Kind.static.place directory name)) bytes (older ++ [r.active]).tail =
      some content
  isSome_node? : ∀ v ∈ older, v.isDistributed start.context →
    (d.node? (Kind.backup.place directory name)).isSome
  backup : ∀ copy, d.contents directory name .backup = some copy → ∃ earlier v,
    earlier ++ [v] <+: older ++ [r.active] ∧
      (∀ w ∈ earlier, w.isDistributed start.context = false) ∧ v.isDistributed start.context ∧
      s.repointAll? (pathOf (Kind.static.place directory name)) bytes (earlier ++ [v]).tail =
        some copy

namespace Trails

theorem of_kept (h : Trails start s bytes older directory name r d)
    (hkept : d.KeepsKinds d' directory name Kind.HoldsSettings) :
    Trails start s bytes older directory name r d' := by
  obtain ⟨s', hstore, hlayout, herase, hspares⟩ := h.store
  refine ⟨h.context_eq, h.head?_eq, ⟨s', hstore, hlayout, herase, hspares.of_grows hkept.grows⟩,
    h.isIn.of_grows hkept.grows, ?_, ?_, ?_⟩
  · rw [hkept.contents_eq _ (.inl rfl)]
    exact h.static
  · exact fun v hv hdist => hkept.isSome_node? (.inr rfl) (h.isSome_node? v hv hdist)
  · rw [hkept.contents_eq _ (.inr rfl)]
    exact h.backup

/-- The proposal does not matter. -/
theorem with_next (h : Trails start s bytes older directory name r d) (next : Option Verifier) :
    Trails start s bytes older directory name { r with next := next } d :=
  ⟨h.context_eq, h.head?_eq, h.store, h.isIn, h.static, h.isSome_node?, h.backup⟩

/-- **A backup** that is made from a distributed membership is made from the first one. -/
theorem backedUp (h : Trails start s bytes older directory name r d)
    (hdist : r.active.isDistributed start.context)
    (hnone : (d.node? (Kind.backup.place directory name)).isSome = false)
    (hbacked : s.layout.BackedUp d d' directory name) :
    Trails start s bytes older directory name r d' := by
  have hsome := hbacked.isSome_node?
  obtain ⟨copied, hcopied, hwrote⟩ := hbacked
  obtain ⟨s', hstore, hlayout, herase, hspares⟩ := h.store
  obtain ⟨content, hcontent, hstatic⟩ := h.static
  obtain rfl := Option.some.inj (hcontent.symm.trans hcopied)
  have hgrows := hwrote.sameTree.grows
  have holder : ∀ w ∈ older, w.isDistributed start.context = false := by
    intro w hw
    rw [← Bool.not_eq_true]
    intro hw'
    cases hnone.symm.trans (h.isSome_node? w hw hw')
  refine ⟨h.context_eq, h.head?_eq, ⟨s', hstore, hlayout, herase, hspares.of_grows hgrows⟩,
    h.isIn.of_grows hgrows, ⟨content, ?_, hstatic⟩, fun _ _ _ => hsome, ?_⟩
  · rw [hwrote.sameKinds.contents_eq _ (by simp), hcontent]
  · intro copy hcopy
    obtain rfl := Option.some.inj (hwrote.contents_self.symm.trans hcopy)
    exact ⟨older, r.active, List.prefix_rfl, holder, hdist, hstatic⟩

/-- **A commit of the store**, once there is something at the place of the backup if what was in force
is distributed. -/
theorem storeCommit_guards (h : Trails start s bytes older directory name r d)
    (hstore : r.store = some s')
    (hsome : r.active.isDistributed start.context →
      (d.node? (Kind.backup.place directory name)).isSome) (v : Verifier) :
    (s'.commit v).run.Guards F d (fun _ => True) fun x d' => match x with
      | .ok s'' => Trails start s bytes (older ++ [r.active]) directory name
          { r with active := v, next := none, store := some s'' } d'
      | .error _ => Trails start s bytes older directory name r d' := by
  obtain ⟨s₁, hstore₁, hlayout, herase, hspares⟩ := h.store
  obtain rfl := Option.some.inj (hstore.symm.trans hstore₁)
  have hin : s'.layout.IsIn d directory name := hlayout ▸ h.isIn
  refine (hspares.commit_guards hin v).mono (fun _ _ => trivial) fun x d' hx => ?_
  cases x with
  | error e => exact h.of_kept hx
  | ok s'' =>
    obtain ⟨rfl, hkept, text, props, htext, hprops, hstatic⟩ := hx
    have hspares' := Store.spares_of_activeFile
      (s := { s' with activeFile := some (s'.layout.dynamicFile v.version) })
      (hin.of_grows hkept.grows) rfl
    refine ⟨h.context_eq, ?_, ⟨_, rfl, hlayout, herase, hspares'⟩, h.isIn.of_grows hkept.grows,
      ⟨_, hstatic, ?_⟩, ?_, ?_⟩
    · rw [List.head?_append, h.head?_eq]
      rfl
    · obtain ⟨content, hcontent, hbefore⟩ := h.static
      obtain rfl := Option.some.inj (hcontent.symm.trans htext)
      rw [List.tail_append_of_ne_nil (by simp), Store.repointAll?_concat_eq_some_iff]
      refine ⟨_, hbefore, Store.repoint?_eq_some_iff.mpr ⟨text, props, rfl, hprops, ?_⟩⟩
      rw [Layout.dynamicFile_place, herase]
    · intro w hw hdist
      refine hkept.isSome_node? rfl ?_
      rcases List.mem_append.mp hw with hw | hw
      · exact h.isSome_node? w hw hdist
      · rw [List.mem_singleton.mp hw] at hdist
        exact hsome hdist
    · intro copy hcopy
      rw [hkept.contents_eq _ rfl] at hcopy
      obtain ⟨earlier, w, hprefix, hfirst⟩ := h.backup copy hcopy
      exact ⟨earlier, w, hprefix.trans (List.prefix_append _ _), hfirst⟩

theorem commitStore_guards (h : Trails start s bytes older directory name r d)
    (hon : start.context.reconfig = true) (hopens : s.layout.Opens name .backup)
    (hpresent : ¬ F (.isPresent s.layout.backupFile)) (hstore : r.store = some s') (v : Verifier) :
    (r.commitStore s' v).run.Guards F d (fun _ => True) fun x d' => match x with
      | .ok s'' => Trails start s bytes (older ++ [r.active]) directory name
          { r with active := v, next := none, store := some s'' } d'
      | .error _ => Trails start s bytes older directory name r d' := by
  unfold commitStore
  have hswitch : (r.context.reconfig && r.active.isDistributed r.context) =
      r.active.isDistributed start.context := by rw [h.context_eq, hon, Bool.true_and]
  split
  case isFalse hnot =>
    rw [hswitch] at hnot
    exact h.storeCommit_guards hstore (fun hdist => absurd hdist hnot) v
  case isTrue hdist =>
    rw [hswitch] at hdist
    obtain ⟨s₁, hstore₁, hlayout, -⟩ := h.store
    obtain rfl := Option.some.inj (hstore.symm.trans hstore₁)
    rw [← hlayout] at hopens hpresent
    have hin : s'.layout.IsIn d directory name := hlayout ▸ h.isIn
    have hthere := hin.isPresent_iff (k := .backup) (by simp)
    refine Action.guards_bind (backupOnce_guards hin) ?_ ?_
    · rintro made d₁ (⟨hbackup, rfl⟩ | ⟨habsent, hbacked⟩)
      · exact h.storeCommit_guards hstore (fun _ => (hthere.mp hbackup).2) v
      · have hnone : (d.node? (Kind.backup.place directory name)).isSome = false := by
          rw [← Bool.not_eq_true]
          intro hsome
          cases (habsent hpresent).symm.trans (hthere.mpr ⟨hopens, hsome⟩)
        rw [hlayout] at hbacked
        exact (h.backedUp hdist hnone hbacked).storeCommit_guards hstore
          (fun _ => hbacked.isSome_node?) v
    · exact fun e d₁ hsame => ⟨trivial, h.of_kept (hsame.mono fun _ _ => trivial).keepsKinds⟩

/-- **A commit** that is refused leaves the static file. -/
theorem commit_guards (h : Trails start s bytes older directory name r d)
    (hon : start.context.reconfig = true) (hopens : s.layout.Opens name .backup)
    (hpresent : ¬ F (.isPresent s.layout.backupFile)) :
    r.commit.run.Guards F d (fun _ => True) fun x d' => match x with
      | .ok r' => Trails start s bytes (older ++ [r.active]) directory name r' d'
      | .error _ => Trails start s bytes older directory name r d' := by
  obtain ⟨s', hstore, -⟩ := id h.store
  unfold commit
  cases hnext : r.next with
  | none => exact guards_pure trivial h
  | some v =>
    refine Action.guards_bind (R := fun _ d' => d' = d) (Action.guards_ofExcept trivial rfl) ?_ ?_
    · rintro u d' rfl
      simp only [hstore]
      exact Action.guards_bind (h.commitStore_guards hon hopens hpresent hstore v)
        (fun _ _ hx => guards_pure trivial hx) fun _ _ hx => ⟨trivial, hx⟩
    · rintro e d' rfl
      exact ⟨trivial, h⟩

theorem propose_guards (h : Trails start s bytes older directory name r d) (v : Verifier) :
    (r.propose v).run.Guards F d (fun _ => True) fun x d' => match x with
      | .ok r' => r'.active = r.active ∧ Trails start s bytes older directory name r' d'
      | .error _ => Trails start s bytes older directory name r d' := by
  obtain ⟨s', hstore, -, -, hspares⟩ := h.store
  unfold propose
  refine Action.guards_bind (R := fun _ d' => d' = d) (Action.guards_ofReported trivial rfl) ?_ ?_
  · rintro u d' rfl
    have hproposed : ∀ {d₁}, d'.KeepsKinds d₁ directory name Kind.HoldsSettings →
        Trails start s bytes older directory name { r with next := some v } d₁ :=
      fun hkept => (h.of_kept hkept).with_next _
    simp only [hstore] at hproposed ⊢
    exact Action.guards_bind (hspares.writeNext_guards v)
      (fun _ _ hkept => guards_pure trivial ⟨rfl, hproposed hkept⟩)
      fun _ _ hkept => ⟨trivial, h.of_kept hkept⟩
  · rintro e d' rfl
    exact ⟨trivial, h⟩

theorem abandon_guards (h : Trails start s bytes older directory name r d) :
    r.abandon.Guards F d (fun _ => True) fun r' d' =>
      r'.active = r.active ∧ Trails start s bytes older directory name r' d' := by
  obtain ⟨s', hstore, -, -, hspares⟩ := h.store
  unfold abandon
  have hdropped : ∀ {d₁}, d.KeepsKinds d₁ directory name Kind.HoldsSettings →
      Trails start s bytes older directory name { r with next := none } d₁ :=
    fun hkept => (h.of_kept hkept).with_next _
  cases r.next with
  | none =>
    simp only [hstore] at hdropped ⊢
    exact guards_pure trivial ⟨rfl, hdropped (.refl d)⟩
  | some v =>
    simp only [hstore] at hdropped ⊢
    exact hspares.clearNext_guards.bind fun _ _ hkept => guards_pure trivial ⟨rfl, hdropped hkept⟩

end Trails

/-! ### Runs -/

/-- The memberships that requests put in force, in order. -/
def putInForce (served : List (Request × Except ConfigError (Option Verifier))) : List Verifier :=
  served.filterMap fun e => if e.1.commits then e.2.toOption.join else none

theorem putInForce_refused (q : Request) (e : ConfigError) : putInForce [(q, .error e)] = [] := by
  cases q <;> rfl

/-- **A request** goes on with the trail: what was in force is older once another is put in force. -/
theorem Trails.serve_guards (h : Trails start s bytes older directory name r d)
    (hon : start.context.reconfig = true) (hopens : s.layout.Opens name .backup)
    (hpresent : ¬ F (.isPresent s.layout.backupFile)) (q : Request) :
    (r.serve q).Guards F d (fun _ => True) fun x d' => ∃ older',
      older' ++ [x.2.active] = older ++ [r.active] ++ putInForce [(q, x.1)] ∧
        Trails start s bytes older' directory name x.2 d' := by
  have hrefused : ∀ {r' : Registry} {e : ConfigError} {d' : Disk}, r'.active = r.active →
      Trails start s bytes older directory name r' d' → ∃ older',
        older' ++ [r'.active] = older ++ [r.active] ++ putInForce [(q, .error e)] ∧
          Trails start s bytes older' directory name r' d' := by
    intro r' e d' hactive h'
    refine ⟨older, ?_, h'⟩
    rw [hactive, putInForce_refused, List.append_nil]
  cases q with
  | propose v =>
    refine (h.propose_guards v).bind fun x d' hx => ?_
    cases x with
    | ok r' =>
      obtain ⟨hactive, hx⟩ := hx
      exact guards_pure trivial ⟨older, by rw [hactive]; exact (List.append_nil _).symm, hx⟩
    | error e => exact guards_pure trivial (hrefused rfl hx)
  | commit =>
    refine (h.commit_guards hon hopens hpresent).bind fun x d' hx => ?_
    cases x with
    | ok r' => exact guards_pure trivial ⟨_, rfl, hx⟩
    | error e => exact guards_pure trivial (hrefused rfl hx)
  | abandon =>
    refine h.abandon_guards.bind fun r' d' hr => ?_
    exact guards_pure trivial ⟨older, by rw [hr.1]; exact (List.append_nil _).symm, hr.2⟩
  | reconfigure v =>
    refine (h.propose_guards v).bind fun x d₁ hx => ?_
    cases x with
    | error e => exact guards_pure trivial (hrefused rfl hx)
    | ok r' =>
      obtain ⟨hactive, hx⟩ := hx
      refine (hx.commit_guards hon hopens hpresent).bind fun y d' hy => ?_
      cases y with
      | ok r'' =>
        rw [hactive] at hy
        exact guards_pure trivial ⟨_, rfl, hy⟩
      | error e => exact guards_pure trivial (hrefused hactive hy)

variable {served : List (Request × Except ConfigError (Option Verifier))} {copy : ByteArray}

theorem RunOn.trails (hon : start.context.reconfig = true) (hopens : s.layout.Opens name .backup)
    (hpresent : ¬ F (.isPresent s.layout.backupFile))
    (hstart : Trails start s bytes [] directory name start d) (h : RunOn F start d served r d') :
    ∃ older, older ++ [r.active] = start.active :: putInForce served ∧
      Trails start s bytes older directory name r d' := by
  induction h with
  | nil => exact ⟨[], rfl, hstart⟩
  | @snoc served q a r r' d₁ d' _ hs ih =>
    obtain ⟨older, holder, h⟩ := ih
    obtain ⟨older', holder', h'⟩ := (h.serve_guards hon hopens hpresent q).atEnd hs
    refine ⟨older', ?_, h'⟩
    rw [holder', holder, putInForce, putInForce, putInForce, List.filterMap_append, List.cons_append]

/-! ### Main results -/

/-- **The backup** is the static file of when the first distributed membership of the run was in force,
whatever fails but the question whether there is a backup: the file as it was at the start, if the run
starts with such a membership, and else the file that the commit of that membership has written, from
the entries that the commits before it left. -/
theorem RunOn.backup_eq (hon : start.context.reconfig = true)
    (hpresent : ¬ F (.isPresent s.layout.backupFile)) (hstore : start.store = some s)
    (hapart : s.KeepsApart d) (hstatic : d.read s.layout.staticFile = .ok bytes)
    (hnone : d.isPresent s.layout.backupFile = false) (h : RunOn F start d served r d')
    (hcopy : d'.read s.layout.backupFile = .ok copy) :
    (start.active.isDistributed start.context = true → copy = bytes) ∧
    (start.active.isDistributed start.context = false → ∃ v top text props,
      (putInForce served).find? (·.isDistributed start.context) = some v ∧
        d.canonical s.layout.staticFile = .ok top ∧
        s.repointAll? top bytes ((putInForce served).takeWhile (!·.isDistributed start.context)) =
          some text.toUTF8 ∧
        Properties.ofText text = .ok props ∧
        copy = (staticText props ((Layout.mk top).dynamicFile v.version) s.eraseClientPort).toUTF8) := by
  obtain ⟨-, place, hleads, -⟩ := Disk.read_eq_ok_iff.mp hstatic
  obtain ⟨before, field, directory, hends, hfollow, -⟩ := hleads.exists_name
  have hin : s.layout.IsIn d directory (String.ofList field) :=
    ⟨before, by rw [String.toList_ofList]; exact hends.endsInField, hfollow⟩
  generalize String.ofList field = name at hin
  obtain ⟨hopened, hcontent⟩ := (hin.read_eq_ok_iff (k := .static)).mp hstatic
  have hopens : s.layout.Opens name .backup := by
    obtain ⟨before', hends', -⟩ := id hin
    exact opens_of_read (k := .backup) hends' hcopy
  have hstart : Trails start s bytes [] directory name start d := by
    refine ⟨rfl, rfl, ⟨s, hstore, rfl, rfl, hapart.spares hin hopened hopens⟩, hin,
      ⟨bytes, hcontent, rfl⟩, fun v hv => absurd hv List.not_mem_nil, ?_⟩
    intro copied hcopied
    have hsome := isSome_node?_of_contents hcopied
    cases hnone.symm.trans ((hin.isPresent_iff (k := .backup) (by simp)).mpr ⟨hopens, hsome⟩)
  obtain ⟨older, holder, htrails⟩ := h.trails hon hopens hpresent hstart
  have hcopied := ((htrails.isIn.read_eq_ok_iff (k := .backup)).mp hcopy).2
  obtain ⟨earlier, v, hprefix, hearlier, hv, hbackup⟩ := htrails.backup copy hcopied
  rw [holder] at hprefix
  cases earlier with
  | nil =>
    obtain rfl : v = start.active := (List.cons_prefix_cons.mp hprefix).1
    refine ⟨fun _ => (Option.some.inj hbackup).symm, fun hdist => ?_⟩
    cases hv.symm.trans hdist
  | cons w earlier =>
    rw [List.cons_append] at hprefix
    obtain ⟨hfirst, rest, hrest⟩ := List.cons_prefix_cons.mp hprefix
    have hw := hearlier w List.mem_cons_self
    rw [hfirst] at hw
    refine ⟨fun hdist => absurd (hw.symm.trans hdist) Bool.false_ne_true, fun _ => ?_⟩
    have hearlier : ∀ w ∈ earlier, w.isDistributed start.context = false :=
      fun w hw => hearlier w (List.mem_cons_of_mem _ hw)
    obtain ⟨content, hcontents, hcopy⟩ := Store.repointAll?_concat_eq_some_iff.mp hbackup
    obtain ⟨text, props, rfl, hprops, rfl⟩ := Store.repoint?_eq_some_iff.mp hcopy
    have htop := hin.canonical_eq (k := .static) hopened (by rw [hcontent]; rfl)
    rw [List.append_assoc, List.singleton_append] at hrest
    refine ⟨v, _, text, props, ?_, htop, ?_, hprops, rfl⟩
    · rw [← hrest, List.find?_eq_some_iff_append]
      exact ⟨hv, earlier, rest, rfl, fun w hw => by rw [hearlier w hw]; rfl⟩
    · rw [← hrest, List.takeWhile_append_of_pos (by simpa using hearlier),
        List.takeWhile_cons_of_neg (by simp [hv]), List.append_nil]
      exact hcontents

/-- A membership of two voters. -/
def pairOf (version : Version) : Verifier :=
  .majority (.ofMembers
    ⟨.ofList [(1, Config.voter 1 "a"), (2, Config.voter 2 "b")], by decide⟩ version)

/-- A store of which only the static file is there. -/
def bareStore : Store where
  layout := ⟨⟨"z"⟩⟩

def bareDisk : Disk := Config.diskOf [(["z"], "a=b\n")] []

/-- A registry that may be reconfigured, before its first commit. -/
def bare (active : Verifier) : Registry where
  context := { reconfig := true }
  active := active
  store := some bareStore

theorem bareStore_keepsApart : bareStore.KeepsApart bareDisk := by
  rintro p (rfl | rfl | ⟨⟨⟩⟩)
  · exact ⟨isApart_of_fileName?_ne (by decide), isApart_of_fileName?_ne (by decide)⟩
  · exact ⟨isApart_of_fileName?_ne (by decide), isApart_of_fileName?_ne (by decide)⟩

/-- From two voters, a proposal is refused and a reconfiguration succeeds. -/
theorem RunOn.backup_eq_pair : ∃ served r d',
    RunOn (· ≠ .isPresent bareStore.layout.backupFile) (bare (pairOf 1)) bareDisk served r d' ∧
      served.map (fun e => (e.1.commits, e.2.isOk)) = [(false, false), (true, true)] ∧
      d'.read bareStore.layout.backupFile = .ok "a=b\n".toUTF8 := by
  have hnil : RunOn (· ≠ .isPresent bareStore.layout.backupFile) (bare (pairOf 1)) bareDisk []
      (bare (pairOf 1)) bareDisk := .nil
  have hrun := (hnil.snoc_run (.propose (pairOf 1))).snoc_run (.reconfigure (pairOf 2))
  refine ⟨_, _, _, hrun, by decide +kernel, ?_⟩
  refine Except.eq_ok_of_isOk (by decide +kernel) fun copy hcopy => ?_
  have hbackup := RunOn.backup_eq rfl (fun h => h rfl) rfl bareStore_keepsApart (by rfl) (by rfl) hrun
    hcopy
  exact hbackup.1 (by rfl)

/-- From a server on its own the first reconfiguration rewrites the static file without a backup, and
the second one backs up what the first one wrote. -/
theorem not_forall_backup_eq : ¬ ∀ (start r : Registry) (s : Store) (d d' : Disk)
    (served : List (Request × Except ConfigError (Option Verifier))) (bytes copy : ByteArray),
    start.context.reconfig = true → start.store = some s → s.KeepsApart d →
    d.read s.layout.staticFile = .ok bytes → d.isPresent s.layout.backupFile = false →
    RunOn (fun _ => False) start d served r d' → d'.read s.layout.backupFile = .ok copy →
    copy = bytes := by
  intro h
  have hnil : RunOn (fun _ => False) (bare Config.lone) bareDisk [] (bare Config.lone) bareDisk := .nil
  have hrun := (hnil.snoc_run (.reconfigure (pairOf 2))).snoc_run (.reconfigure (pairOf 3))
  have heq := h _ _ bareStore _ _ _ "a=b\n".toUTF8
    "a=b\ndynamicConfigFile=/z.dynamic.2\n".toUTF8 rfl rfl bareStore_keepsApart
    (by rfl) (by rfl) hrun (by decide +kernel)
  exact absurd heq (by decide +kernel)

end Registry

end Ensemble
