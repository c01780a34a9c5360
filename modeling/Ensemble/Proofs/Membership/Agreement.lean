import Ensemble.Proofs.Membership.Crashing
import Ensemble.Proofs.Membership.ReadingBack
import Ensemble.Proofs.Membership.Run

/-!
# Disk and memory agree

A registry with a store serves requests on a disk on which everything may fail but the removal of a
file that is there (`Registry.RunOn`). After each of them the file of the proposal is there exactly if
something is proposed, and holds it; and once something was put in force, the dynamic file of the
store holds it, and the last line of the static file names that file (`Registry.RunOn.agrees`).

The disk has neither symbolic nor hard links. At the start nothing may be at the path of the proposal,
and nothing may come to be there when missing directories above it are made (`Disk.IsClearOf`). The
name of the static file has to be a text, and its last line names the dynamic file by what is shown of
the path, which is the path where that is a text. None of the three can be left out
(`Registry.not_agrees`).
-/

namespace Ensemble

open Script Disk Layout

/-- Nothing is at a path, nor comes to be there when missing directories above it are made. -/
def Disk.IsClearOf (d : Disk) (p : Path) : Prop :=
  ∀ d', MakesWay p.above d d' → d'.isPresent p = false

/-! ### Runs on a disk -/

namespace Registry

/-- The requests that a registry served on a disk, one after the other, with the answers, and the
registry and the disk in the end. -/
inductive RunOn (F : FileOp → Prop) (start : Registry) (d : Disk) :
    List (Request × Except ConfigError (Option Verifier)) → Registry → Disk → Prop
  | nil : RunOn F start d [] start d
  | snoc {served : List (Request × Except ConfigError (Option Verifier))} {q : Request}
      {a : Except ConfigError (Option Verifier)} {r r' : Registry} {d₁ d' : Disk}
      (h : RunOn F start d served r d₁) (hs : (r.serve q).Reaches F d₁ (some (a, r')) d') :
      RunOn F start d (served ++ [(q, a)]) r' d'

/-- The file of the proposal is there exactly if something is proposed, and holds it. -/
structure HoldsProposal (r : Registry) (s : Store) (d : Disk) : Prop where
  isPresent_iff : d.isPresent s.nextFile ↔ r.next.isSome
  read_eq : ∀ v, r.next = some v → d.read s.nextFile = .ok (v.fileText true).toUTF8

/-- The dynamic file of the store holds what is in force, and the last line of the static file names
it by what is shown of its path from the top: by the path itself, where that is a text. -/
structure HoldsActive (r : Registry) (s : Store) (d : Disk) : Prop where
  activeFile_eq : s.activeFile = some (s.layout.dynamicFile r.active.version)
  read_eq : d.read (s.layout.dynamicFile r.active.version) = .ok (r.active.fileText false).toUTF8
  static : ∃ (q : Path) (text : String), d.canonical (s.layout.dynamicFile r.active.version) = .ok q ∧
    d.read s.layout.staticFile = .ok text.toUTF8 ∧ (Text.lines text.toList).getLast? =
      some ("dynamicConfigFile=".toList ++ Properties.escape q.display.toList)

end Registry

/-! ### The files of a proposal and of what is in force -/

/-- The proposal is kept beside the static file `name`; where there is none, its path is clear. -/
def Layout.HoldsNext (l : Layout) (name : String) (next : Option Verifier) (d : Disk) : Prop :=
  match next with
  | none => d.IsClearOf (l.file .next)
  | some v => ∃ directory, l.IsIn d directory name ∧ l.Opens name .next ∧
      d.contents directory name .next = some (v.fileText true).toUTF8

/-- A membership is kept beside the static file `name`, which names its dynamic file. -/
structure Store.IsAt (s : Store) (v : Verifier) (name : String) (d : Disk) : Prop where
  activeFile_eq : s.activeFile = some (s.layout.dynamicFile v.version)
  opens_static : s.layout.Opens name .static
  opens_dynamic : s.layout.Opens name (.dynamic v.version)
  contents : ∃ directory props, s.layout.IsIn d directory name ∧
    d.contents directory name (.dynamic v.version) = some (v.fileText false).toUTF8 ∧
    d.contents directory name .static = some (staticText props
      (pathOf (Kind.place directory name (.dynamic v.version))) s.eraseClientPort).toUTF8

variable {F : FileOp → Prop} {d d' : Disk} {directory : Location} {name : String} {s : Store}
  {l : Layout} {v : Verifier} {next : Option Verifier}

/-- Where the directory is there, nothing is left to make above its files. -/
theorem Layout.IsIn.eq_of_makesWay {k : Kind} (hin : l.IsIn d directory name) (hk : k ≠ .static)
    (h : MakesWay (l.file k).above d d') : d' = d := by
  have hname := hin.isName hk
  obtain ⟨before, hends, hfollow⟩ := hin
  exact h.eq_of_follow ((file_endsInField hends k).endsIn hname) hfollow

theorem Layout.IsIn.isPresent_congr {k : Kind} (hin : l.IsIn d directory name) (hk : k ≠ .static)
    (hkept : d.SameKinds d' directory name (· = k)) :
    d'.isPresent (l.file k) ↔ d.isPresent (l.file k) := by
  have hfile : d'.file? (k.place directory name) = d.file? (k.place directory name) :=
    hkept.contents_eq k rfl
  rw [(hin.of_sameTree hkept.sameTree).isPresent_iff hk, hin.isPresent_iff hk, isSome_node?_iff,
    isSome_node?_iff, hkept.sameTree.directory_iff, hfile]

theorem Layout.IsIn.isClearOf {k : Kind} (hin : l.IsIn d directory name) (hk : k ≠ .static)
    (h : d.isPresent (l.file k) = false) : d.IsClearOf (l.file k) := by
  intro d' hway
  rw [hin.eq_of_makesWay hk hway]
  exact h

/-- The path of a file that was removed is clear. -/
theorem Layout.IsIn.isClearOf_of_gone {k : Kind} (hin : l.IsIn d directory name) (hk : k ≠ .static)
    (htree : SameTree d d') (hsome : (d.contents directory name k).isSome)
    (hgone : l.Opens name k → d'.contents directory name k = none) : d'.IsClearOf (l.file k) := by
  have hin' := hin.of_sameTree htree
  refine hin'.isClearOf hk ?_
  rw [← Bool.not_eq_true, hin'.isPresent_iff hk, isSome_node?_iff]
  rintro ⟨hopens, hdirectory | hfile⟩
  · obtain ⟨content, hcontent⟩ := Option.isSome_iff_exists.mp hsome
    obtain ⟨id, hfile⟩ := file?_eq_some_iff.mp hcontent
    rw [htree.directory_iff, hfile] at hdirectory
    cases hdirectory
  · have hnone : d'.file? (k.place directory name) = none := hgone hopens
    rw [hnone] at hfile
    cases hfile

theorem Layout.HoldsNext.of_kept (h : l.HoldsNext name next d) (hin : l.IsIn d directory name)
    (hkept : d.SameKinds d' directory name (· = .next)) : l.HoldsNext name next d' := by
  have hin' := hin.of_sameTree hkept.sameTree
  cases next with
  | none =>
    refine hin'.isClearOf (by simp) ?_
    have hclear := h d (.refl _ d)
    rw [← Bool.not_eq_true] at hclear ⊢
    rwa [hin.isPresent_congr (by simp) hkept]
  | some v =>
    obtain ⟨directory', hin₀, hopens, hnext⟩ := h
    obtain rfl := hin₀.unique hin
    exact ⟨directory', hin', hopens, (hkept.contents_eq _ rfl).trans hnext⟩

theorem Layout.HoldsNext.of_makesWay (h : l.HoldsNext name next d)
    (hway : MakesWay (l.file .next).above d d') : l.HoldsNext name next d' := by
  cases next with
  | none => exact fun d₁ hway₁ => h d₁ (hway.trans hway₁)
  | some v =>
    obtain ⟨directory, hin, -⟩ := id h
    rwa [hin.eq_of_makesWay (by simp) hway]

theorem Store.IsAt.of_kept (h : s.IsAt v name d) (hkept : ∀ directory, s.layout.IsIn d directory name →
    d.SameKinds d' directory name fun k => k = .static ∨ k = .dynamic v.version) :
    s.IsAt v name d' := by
  obtain ⟨directory, props, hin, hdynamic, hstatic⟩ := h.contents
  have hsame := hkept directory hin
  refine ⟨h.activeFile_eq, h.opens_static, h.opens_dynamic, directory, props,
    hin.of_sameTree hsame.sameTree, ?_, ?_⟩
  · rw [hsame.contents_eq _ (Or.inr rfl), hdynamic]
  · rw [hsame.contents_eq _ (Or.inl rfl), hstatic]

/-! ### What requests preserve -/

/-- **A proposal is written**, or the one of before stays; what is in force stays. -/
theorem writeNext_guards {before : List Char} (hends : l.staticFile.EndsInField before name.toList)
    (hnext : l.HoldsNext name next d) (v : Verifier) :
    (writeDynamic (l.file .next) v true).run.Guards F d (fun _ => True) fun r d' =>
      (match r with
        | .ok _ => l.HoldsNext name (some v) d'
        | .error _ => l.HoldsNext name next d') ∧
      ∀ s : Store, s.layout = l → ∀ w, s.IsAt w name d → s.IsAt w name d' := by
  have hname := Kind.isName_append_suffix (k := .next) hends.noSeparator (by simp)
  have hfile := (file_endsInField hends .next).endsIn hname
  have hat : ∀ {d'}, (∀ directory, l.IsIn d directory name → ChangedOn d d' fun k =>
      k = Kind.next.place directory name ∨ IsTemporaryFor k (Kind.next.place directory name)) →
      ∀ s : Store, s.layout = l → ∀ w, s.IsAt w name d → s.IsAt w name d' := by
    rintro d' hchanged s rfl w h
    refine h.of_kept fun directory hin => ⟨(hchanged directory hin).sameTree, fun k hk => ?_⟩
    refine (hchanged directory hin).file?_eq _ ?_
    rintro (hplace | htemporary)
    · rcases hk with rfl | rfl <;> cases Kind.place_inj hplace
    · exact Kind.not_isTemporaryFor htemporary
  refine (Action.guards_onFile (I := fun _ => True) ((replaceFile_guards hfile _).mono
    (fun _ _ => trivial) fun _ _ => id) fun r d' hr => ⟨trivial, ?_⟩)
  cases r with
  | ok u =>
    obtain ⟨d₁, directory, hway, hfollow, hshort, hleads, hrenewed⟩ := hr
    rw [joinChunks_singleton] at hrenewed
    have hin₁ : l.IsIn d₁ directory name := ⟨before, hends, hfollow⟩
    refine ⟨⟨directory, hin₁.of_sameTree hrenewed.sameTree, hin₁.opens_iff.mpr ⟨hshort, hleads⟩, ?_⟩,
      hat fun directory' hin => ?_⟩
    · rw [Layout.IsIn.contents_of_renewed hrenewed, Function.update_self]
    · obtain rfl := hin.eq_of_makesWay (by simp) hway
      obtain rfl := hin.unique hin₁
      exact hrenewed.toChangedOn
  | error e =>
    obtain ⟨d₁, hway, hd'⟩ := hr
    constructor
    · have hnext₁ := hnext.of_makesWay hway
      rcases hd' with rfl | ⟨directory, hfollow, hscratched⟩
      · exact hnext₁
      · exact hnext₁.of_kept ⟨before, hends, hfollow⟩
          (.of_contents_eq hscratched.sameTree (Layout.IsIn.contents_of_scratched hscratched))
    · refine hat fun directory hin => ?_
      obtain rfl := hin.eq_of_makesWay (by simp) hway
      rcases hd' with rfl | ⟨directory', hfollow, hscratched⟩
      · exact .refl _ _
      · obtain rfl := hin.unique ⟨before, hends, hfollow⟩
        exact hscratched.mono fun _ => Or.inr

/-- The static file was copied to its backup. -/
def Layout.BackedUp (l : Layout) (d d' : Disk) (directory : Location) (name : String) : Prop :=
  ∃ bytes, d.contents directory name .static = some bytes ∧
    l.Rewrote .backup bytes d d' directory name

theorem Layout.BackedUp.isSome_node? (h : l.BackedUp d d' directory name) :
    (d'.node? (Kind.backup.place directory name)).isSome := by
  obtain ⟨bytes, -, hwrote⟩ := h
  exact isSome_node?_of_contents hwrote.contents_self

theorem backupStatic_guards (hin : l.IsIn d directory name) :
    (backupStatic l).run.Guards F d (fun _ => True) fun r d' => match r with
      | .ok _ => l.BackedUp d d' directory name
      | .error _ => d.SameKinds d' directory name fun _ => True := by
  refine Action.guards_bind (R := fun r d' => d' = d ∧ ∀ bytes, r = .ok bytes →
    d.contents directory name .static = some bytes) (Action.guards_onFile (P := fun r d' =>
    d' = d ∧ ∀ bytes, r = .ok bytes → d.read l.staticFile = .ok bytes)
    (guards_perform trivial fun _ _ h => ⟨trivial, h.read⟩) ?_) ?_ ?_
  · rintro r d' ⟨rfl, hread⟩
    refine ⟨trivial, rfl, fun bytes hr => ?_⟩
    have hbytes := hread bytes (Except.mapError_eq_ok_iff.mp hr)
    exact ((hin.read_eq_ok_iff (k := .static)).mp hbytes).2
  · rintro bytes d' ⟨rfl, hbytes⟩
    have hname := hin.isName (k := .backup) (by simp)
    refine Action.guards_bind ((onFile_replaceFile_guards hin hname bytes).mono (fun _ _ => trivial)
      fun _ _ => id) ?_ fun _ _ hsame => ⟨trivial, hsame⟩
    exact fun u d₁ hwrote => guards_pure trivial ⟨bytes, hbytes bytes rfl, hwrote⟩
  · rintro e d' ⟨rfl, -⟩
    exact ⟨trivial, .refl _⟩

/-- **A backup** is a copy of the static file, unless there is one already. -/
theorem backupOnce_guards (hin : s.layout.IsIn d directory name) :
    s.backupOnce.run.Guards F d (fun _ => True) fun r d' => match r with
      | .ok _ => (d.isPresent s.layout.backupFile ∧ d' = d) ∨
          (¬ F (.isPresent s.layout.backupFile) → d.isPresent s.layout.backupFile = false) ∧
            s.layout.BackedUp d d' directory name
      | .error _ => d.SameKinds d' directory name fun _ => True := by
  refine Action.guards_lift_bind (P := fun there d' => d' = d ∧
    (there = true → d.isPresent s.layout.backupFile) ∧
    (¬ F (.isPresent s.layout.backupFile) → there = d.isPresent s.layout.backupFile))
    (guards_perform trivial fun there d' h =>
      ⟨trivial, h.isPresent.1, h.isPresent.2, h.eq_isPresent⟩) ?_
  rintro there d' ⟨rfl, htrue, hright⟩
  cases there with
  | true => exact guards_pure trivial (.inl ⟨htrue rfl, rfl⟩)
  | false =>
    exact Action.guards_bind (backupStatic_guards hin)
      (fun _ _ hbacked => guards_pure trivial (.inr ⟨fun hF => (hright hF).symm, hbacked⟩))
      fun _ _ hsame => ⟨trivial, hsame⟩

/-- It changes nothing but the backup file. -/
theorem backupOnce_sameKinds (hin : s.layout.IsIn d directory name) :
    s.backupOnce.run.Guards F d (fun _ => True) fun _ d' =>
      d.SameKinds d' directory name (· ≠ .backup) := by
  refine (backupOnce_guards hin).mono (fun _ => id) fun r d' hr => ?_
  cases r with
  | error e => exact hr.mono fun _ _ => trivial
  | ok made =>
    rcases hr with ⟨-, rfl⟩ | ⟨-, bytes, -, hwrote⟩
    · exact .refl _
    · exact hwrote.sameKinds

namespace Registry

variable {r : Registry} {committed : Prop}

/-- Disk and memory agree, by the files around the static file `name`: on what is proposed, and on what
is in force once something was put in force. -/
structure Agrees (r : Registry) (s : Store) (name : String) (committed : Prop) (d : Disk) : Prop where
  store_eq : r.store = some s
  isNamedByText : s.layout.staticFile.IsNamedByText
  namesActive : s.NamesActive
  holdsNext : s.layout.HoldsNext name r.next d
  isAt : committed → s.IsAt r.active name d

/-- A proposal that is refused or not written changes nothing. -/
theorem propose_guards {before : List Char} (hends : s.layout.staticFile.EndsInField before name.toList)
    (h : r.Agrees s name committed d) (v : Verifier) :
    (r.propose v).run.Guards F d (fun _ => True) fun x d' => match x with
      | .ok r' => r'.Agrees s name committed d'
      | .error _ => r.Agrees s name committed d' := by
  unfold propose
  refine Action.guards_bind (R := fun _ d' => d' = d) (Action.guards_ofReported trivial rfl) ?_ ?_
  · rintro u d' rfl
    simp only [h.store_eq]
    have hwrite : (s.writeNext v).run.Guards F d' (fun _ => True) fun x d₁ =>
        match x with
        | .ok _ => Agrees { r with next := some v, store := some s } s name committed d₁
        | .error _ => r.Agrees s name committed d₁ := by
      unfold Store.writeNext
      rw [Store.nextFile_eq h.namesActive h.isNamedByText]
      refine Action.guards_bind (writeNext_guards hends h.holdsNext v) ?_ ?_
      · rintro u d₁ ⟨hnext, hat⟩
        refine guards_pure trivial ⟨rfl, h.isNamedByText, h.namesActive, hnext, fun hc => ?_⟩
        exact hat s rfl _ (h.isAt hc)
      · rintro e d₁ ⟨hnext, hat⟩
        exact ⟨trivial, h.store_eq, h.isNamedByText, h.namesActive, hnext,
          fun hc => hat s rfl _ (h.isAt hc)⟩
    exact Action.guards_bind hwrite (fun _ _ h₁ => guards_pure trivial h₁) fun _ _ h₁ => ⟨trivial, h₁⟩
  · rintro e d' rfl
    exact ⟨trivial, h⟩

/-- Where a proposal is kept. -/
theorem Agrees.exists_proposal (h : r.Agrees s name committed d) (hnext : r.next = some v) :
    ∃ directory, s.layout.IsIn d directory name ∧ s.layout.Opens name .next ∧
      d.contents directory name .next = some (v.fileText true).toUTF8 := by
  have hholds := h.holdsNext
  rwa [hnext] at hholds

/-- What stays where nothing but the backup and the dynamic file of a later version is changed. -/
theorem Agrees.of_kept {version : Version} (h : r.Agrees s name committed d)
    (hin : s.layout.IsIn d directory name) (hlt : r.active.version < version)
    (hkept : d.SameKinds d' directory name fun k => k ≠ .backup ∧ k ≠ .dynamic version) :
    r.Agrees s name committed d' := by
  refine ⟨h.store_eq, h.isNamedByText, h.namesActive, h.holdsNext.of_kept hin (hkept.mono ?_),
    fun hc => ?_⟩
  · rintro k rfl
    simp
  · refine (h.isAt hc).of_kept fun directory' hin' => ?_
    obtain rfl := hin.unique hin'
    have hne : r.active.version ≠ version := UInt64.ne_of_lt hlt
    refine hkept.mono ?_
    rintro k (rfl | rfl) <;> simp [hne]

/-- A commit of the store, after a backup if one was made, that is refused changes nothing; one that
succeeds leaves no proposal. -/
theorem storeCommit_guards {d₁ : Disk} (hremove : ∀ p, ¬ F (.remove p))
    (h : r.Agrees s name committed d) (hnext : r.next = some v) (hlt : r.active.version < v.version)
    (hin : s.layout.IsIn d directory name)
    (hbackup : d.SameKinds d₁ directory name (· ≠ .backup)) :
    (s.commit v).run.Guards F d₁ (fun _ => True) fun x d' => match x with
      | .ok s' => s'.layout = s.layout ∧
          Agrees { r with active := v, next := none, store := some s' } s' name True d'
      | .error _ => r.Agrees s name committed d' := by
  have hin₁ := hin.of_sameTree hbackup.sameTree
  have hfile := Store.nextFile_eq h.namesActive h.isNamedByText
  refine (Store.commit_guards hin₁ h.namesActive (k := .next) trivial hfile v).mono
    (fun _ _ => trivial) fun x d' hx => ?_
  cases x with
  | error e =>
    exact h.of_kept hin hlt ((hbackup.mono fun _ hk => hk.1).trans (hx.mono fun _ hk => hk.2))
  | ok s' =>
    obtain ⟨rfl, hswitched, hgone⟩ := hx
    obtain ⟨directory', hin', -, hcontent⟩ := h.exists_proposal hnext
    obtain rfl := hin.unique hin'
    obtain ⟨text, props, -, -, hstatic⟩ := hswitched.static
    refine ⟨rfl, rfl, h.isNamedByText, ?_, ?_, fun _ => ⟨rfl, hswitched.opens_static,
      hswitched.opens_dynamic,
      directory, props, hin₁.of_sameTree hswitched.sameTree, hswitched.dynamic, hstatic⟩⟩
    · rintro file ⟨⟩
      exact ⟨_, rfl⟩
    · exact hin.isClearOf_of_gone (k := .next) (by simp) (hbackup.sameTree.trans hswitched.sameTree)
        (by rw [hcontent]; rfl) (hgone (hremove _))

theorem commitStore_guards (hremove : ∀ p, ¬ F (.remove p)) (h : r.Agrees s name committed d)
    (hnext : r.next = some v) (hlt : r.active.version < v.version) :
    (r.commitStore s v).run.Guards F d (fun _ => True) fun x d' => match x with
      | .ok s' => s'.layout = s.layout ∧
          Agrees { r with active := v, next := none, store := some s' } s' name True d'
      | .error _ => r.Agrees s name committed d' := by
  obtain ⟨directory, hin, -⟩ := h.exists_proposal hnext
  unfold commitStore
  split
  · refine Action.guards_bind (backupOnce_sameKinds hin) ?_ ?_
    · exact fun _ _ hkept => storeCommit_guards hremove h hnext hlt hin hkept
    · exact fun _ _ hkept => ⟨trivial, h.of_kept hin hlt (hkept.mono fun _ hk => hk.1)⟩
  · exact storeCommit_guards hremove h hnext hlt hin (.refl d)

/-- **A commit** that is refused changes nothing; one that succeeds leaves no proposal. -/
theorem commit_guards (hremove : ∀ p, ¬ F (.remove p)) (h : r.Agrees s name committed d) :
    r.commit.run.Guards F d (fun _ => True) fun x d' => match x with
      | .ok r' => ∃ s', s'.layout = s.layout ∧ r'.Agrees s' name True d'
      | .error _ => r.Agrees s name committed d' := by
  unfold commit
  cases hnext : r.next with
  | none => exact guards_pure trivial h
  | some v =>
    refine Action.guards_bind (R := fun x d' => d' = d ∧ x = r.checkVersion v)
      (Action.guards_ofExcept trivial ⟨rfl, rfl⟩) ?_ ?_
    · rintro u d' ⟨rfl, hcheck⟩
      have hlt := checkVersion_eq_ok_iff.mp hcheck.symm
      simp only [h.store_eq]
      refine Action.guards_bind (commitStore_guards hremove h hnext hlt) ?_ ?_
      · rintro s' d₁ ⟨hlayout, h₁⟩
        exact guards_pure trivial ⟨s', hlayout, h₁⟩
      · exact fun _ _ h₁ => ⟨trivial, h₁⟩
    · rintro e d' ⟨rfl, -⟩
      exact ⟨trivial, h⟩

/-- **Giving up** a proposal removes its file. -/
theorem abandon_guards (hremove : ∀ p, ¬ F (.remove p)) (h : r.Agrees s name committed d) :
    r.abandon.Guards F d (fun _ => True) fun r' d' => r'.Agrees s name committed d' := by
  unfold abandon
  cases hnext : r.next with
  | none =>
    simp only [h.store_eq]
    refine guards_pure trivial ⟨rfl, h.isNamedByText, h.namesActive, ?_, h.isAt⟩
    have hholds := h.holdsNext
    rwa [hnext] at hholds
  | some v =>
    simp only [h.store_eq]
    obtain ⟨directory, hin, -, hcontent⟩ := h.exists_proposal hnext
    rw [Store.clearNext, Store.nextFile_eq h.namesActive h.isNamedByText]
    refine ((removeFile_guards hin .next).mono (fun _ _ => trivial) fun _ _ => id).bind ?_
    rintro u d' ⟨hkept, hgone⟩
    refine guards_pure trivial ⟨rfl, h.isNamedByText, h.namesActive, ?_, fun hc => ?_⟩
    · exact hin.isClearOf_of_gone (k := .next) (by simp) hkept.sameTree (by rw [hcontent]; rfl)
        (hgone (hremove _))
    · refine (h.isAt hc).of_kept fun directory' hin' => ?_
      obtain rfl := hin.unique hin'
      refine hkept.mono ?_
      rintro k (rfl | rfl) <;> simp

theorem Agrees.mono {committed' : Prop} (h : r.Agrees s name committed d)
    (hc : committed' → committed) : r.Agrees s name committed' d :=
  ⟨h.store_eq, h.isNamedByText, h.namesActive, h.holdsNext, fun h' => h.isAt (hc h')⟩

/-- **A request** leaves disk and memory in agreement, from the first membership that it puts in force
on. -/
theorem serve_guards {before : List Char} (hends : s.layout.staticFile.EndsInField before name.toList)
    (hremove : ∀ p, ¬ F (.remove p)) (h : r.Agrees s name committed d) (q : Request) :
    (r.serve q).Guards F d (fun _ => True) fun x d' => ∃ s', s'.layout = s.layout ∧
      x.2.Agrees s' name (committed ∨ q.commits ∧ x.1.isOk) d' := by
  have hcommitted : ∀ {e : ConfigError} {p : Prop}, committed ∨ p ∧
      (Except.error e : Except ConfigError (Option Verifier)).isOk → committed := by
    rintro e p (hc | ⟨-, hok⟩)
    · exact hc
    · cases hok
  cases q with
  | propose v =>
    refine (propose_guards hends h v).bind fun x d' hx => ?_
    cases x with
    | ok r' => exact guards_pure trivial ⟨s, rfl, hx.mono (by simp [Request.commits])⟩
    | error e => exact guards_pure trivial ⟨s, rfl, hx.mono hcommitted⟩
  | commit =>
    refine (commit_guards hremove h).bind fun x d' hx => ?_
    cases x with
    | ok r' =>
      obtain ⟨s', hlayout, hx⟩ := hx
      exact guards_pure trivial ⟨s', hlayout, hx.mono fun _ => trivial⟩
    | error e => exact guards_pure trivial ⟨s, rfl, hx.mono hcommitted⟩
  | abandon =>
    refine (abandon_guards hremove h).bind fun r' d' hr => ?_
    exact guards_pure trivial ⟨s, rfl, hr.mono (by simp [Request.commits])⟩
  | reconfigure v =>
    refine (propose_guards hends h v).bind fun x d₁ hx => ?_
    cases x with
    | error e => exact guards_pure trivial ⟨s, rfl, hx.mono hcommitted⟩
    | ok r' =>
      refine (commit_guards hremove hx).bind fun y d' hy => ?_
      cases y with
      | ok r'' =>
        obtain ⟨s', hlayout, hy⟩ := hy
        exact guards_pure trivial ⟨s', hlayout, hy.mono fun _ => trivial⟩
      | error e => exact guards_pure trivial ⟨s, rfl, hy.mono hcommitted⟩

/-! ### Main results -/

variable {start : Registry} {served : List (Request × Except ConfigError (Option Verifier))}

theorem RunOn.agrees_files {before : List Char}
    (hends : s.layout.staticFile.EndsInField before name.toList) (hremove : ∀ p, ¬ F (.remove p))
    (hstart : start.Agrees s name False d) (h : RunOn F start d served r d') :
    ∃ s', s'.layout = s.layout ∧ r.Agrees s' name (∃ e ∈ served, e.1.commits ∧ e.2.isOk) d' := by
  induction h with
  | nil => exact ⟨s, rfl, hstart.mono (by simp)⟩
  | @snoc served q a r r' d₁ d' _ hs ih =>
    obtain ⟨s₁, hlayout, h₁⟩ := ih
    rw [← hlayout] at hends
    obtain ⟨s', hlayout', h'⟩ := (serve_guards hends hremove h₁ q).atEnd hs
    refine ⟨s', hlayout'.trans hlayout, h'.mono ?_⟩
    rintro ⟨e, he, hcommits⟩
    rcases List.mem_append.mp he with he | he
    · exact Or.inl ⟨e, he, hcommits⟩
    · rw [List.mem_singleton.mp he] at hcommits
      exact Or.inr hcommits

theorem Agrees.holdsProposal (h : r.Agrees s name committed d) : r.HoldsProposal s d := by
  have hfile := Store.nextFile_eq h.namesActive h.isNamedByText
  cases hnext : r.next with
  | none =>
    have hholds := h.holdsNext
    rw [hnext] at hholds
    have hclear := hholds d (.refl _ d)
    rw [← hfile] at hclear
    exact ⟨by simp [hclear, hnext], by simp [hnext]⟩
  | some v =>
    obtain ⟨directory, hin, hopens, hcontent⟩ := h.exists_proposal hnext
    have hsome := isSome_node?_of_contents hcontent
    have hread := (hin.read_eq_ok_iff (k := .next)).mpr ⟨hopens, hcontent⟩
    have hpresent := (hin.isPresent_iff (k := .next) (by simp)).mpr ⟨hopens, hsome⟩
    rw [← hfile] at hread hpresent
    refine ⟨by simp [hpresent, hnext], ?_⟩
    rintro w hw
    rw [hnext] at hw
    rwa [← Option.some.inj hw]

theorem HoldsActive.of_isAt (h : s.IsAt r.active name d) : r.HoldsActive s d := by
  obtain ⟨directory, props, hin, hdynamic, hstatic⟩ := h.contents
  refine ⟨h.activeFile_eq, ?_, pathOf (Kind.place directory name (.dynamic r.active.version)),
    staticText props (pathOf (Kind.place directory name (.dynamic r.active.version)))
      s.eraseClientPort, ?_, ?_, getLast?_lines_staticText _ _ _⟩
  · exact (hin.read_eq_ok_iff (k := .dynamic _)).mpr ⟨h.opens_dynamic, hdynamic⟩
  · exact hin.canonical_eq (k := .dynamic _) h.opens_dynamic (by rw [hdynamic]; rfl)
  · exact (hin.read_eq_ok_iff (k := .static)).mpr ⟨h.opens_static, hstatic⟩

/-- **Disk and memory agree** after every request of a run that starts with nothing proposed and a
clear path for the proposal, on a disk without links and whatever fails but the removal of files: the
file of the proposal is there exactly if something is proposed, and holds it; and from the first
membership put in force on, the dynamic file of the store holds what is in force, and the static file
names it in its last line. -/
theorem RunOn.agrees (hremove : ∀ p, ¬ F (.remove p)) (hstore : start.store = some s)
    (htext : s.layout.staticFile.IsNamedByText)
    (hactive : ∀ file, s.activeFile = some file → ∃ w, file = s.layout.dynamicFile w)
    (hnext : start.next = none) (hclear : d.IsClearOf s.nextFile) (h : RunOn F start d served r d') :
    ∃ s', r.store = some s' ∧ s'.layout = s.layout ∧ r.HoldsProposal s' d' ∧
      ((∃ e ∈ served, e.1.commits ∧ e.2.isOk) → r.HoldsActive s' d') := by
  obtain ⟨before, field, hends⟩ := s.layout.staticFile.exists_endsInField
  rw [← String.toList_ofList (l := field)] at hends
  rw [Store.nextFile_eq hactive htext] at hclear
  have hstart : start.Agrees s (String.ofList field) False d :=
    ⟨hstore, htext, hactive, by rwa [hnext], False.elim⟩
  obtain ⟨s', hlayout, hagrees⟩ := h.agrees_files hends hremove hstart
  exact ⟨s', hagrees.store_eq, hlayout, hagrees.holdsProposal, fun hc => .of_isAt (hagrees.isAt hc)⟩

/-- One more request, none of the operations of which fails. -/
theorem RunOn.snoc_run (h : RunOn F start d served r d') (q : Request) :
    RunOn F start d (served ++ [(q, ((r.serve q).run d').value.1)]) ((r.serve q).run d').value.2
      ((r.serve q).run d').disk :=
  h.snoc ((r.serve q).reaches_run d')

/-- The files of `Store.zoo`, with a directory where the dynamic file of version 2 would be written. -/
def blockedDisk : Disk := Store.zooDisk.set ["zoo.cfg.dynamic.2.tmp"] .directory

/-- Version 2 is proposed, but cannot be put in force; version 3 can. -/
theorem RunOn.agrees_blocked : ∃ served r d',
    RunOn (fun _ => False) (ofNobody 1 none (some ⟨"zoo.cfg.dynamic.1"⟩)) blockedDisk served r d' ∧
      served.map (fun e => (e.1.commits, e.2.isOk)) = [(false, true), (true, false), (true, true)] ∧
      ∃ s', r.store = some s' ∧ r.HoldsProposal s' d' ∧ r.HoldsActive s' d' := by
  have hnil : RunOn (fun _ => False) (ofNobody 1 none (some ⟨"zoo.cfg.dynamic.1"⟩)) blockedDisk []
      (ofNobody 1 none (some ⟨"zoo.cfg.dynamic.1"⟩)) blockedDisk := .nil
  have hrun := ((hnil.snoc_run (.propose (nobody 2))).snoc_run .commit).snoc_run
    (.reconfigure (nobody 3))
  have hin : Store.zoo.layout.IsIn blockedDisk [] "zoo.cfg" :=
    ⟨[], ⟨by decide, by simp, by decide⟩, by rfl⟩
  have hclear : blockedDisk.IsClearOf Store.zoo.nextFile :=
    hin.isClearOf (k := .next) (by simp) (by rfl)
  have htext : Store.zoo.layout.staticFile.IsNamedByText :=
    ⟨[], "zoo.cfg", by decide, by simp, by decide⟩
  obtain ⟨s', hstore, -, hproposal, hactive⟩ := RunOn.agrees (s := Store.zoo) (fun _ => id) rfl htext
    (fun file hfile => ⟨1, (Option.some.inj hfile).symm.trans (by rfl)⟩) rfl hclear hrun
  refine ⟨_, _, _, hrun, by rfl, s', hstore, hproposal, hactive ?_⟩
  exact ⟨_, List.mem_append_right _ (List.mem_singleton.mpr rfl), rfl, by rfl⟩

/-! ### What has to be asked of the paths -/

/-- A run of a registry with the store `s`, with nothing proposed at the start, and nothing at the path
of a proposal. -/
structure IsRun (F : FileOp → Prop) (start : Registry) (s : Store) (d : Disk)
    (served : List (Request × Except ConfigError (Option Verifier))) (r : Registry) (d' : Disk) :
    Prop where
  not_remove : ∀ p, ¬ F (.remove p)
  store_eq : start.store = some s
  isSome_fileName? : s.layout.staticFile.fileName?.isSome
  activeFile : ∀ file, s.activeFile = some file → ∃ w, file = s.layout.dynamicFile w
  next_eq : start.next = none
  isPresent_eq : d.isPresent s.nextFile = false
  runOn : RunOn F start d served r d'

/-- A registry of nobody, with the store `s`. -/
def keptIn (s : Store) : Registry := { ofNobody 1 none none with store := some s }

/-- A single request to a registry of nobody. -/
theorem isRun_keptIn {s : Store} {d : Disk} (hname : s.layout.staticFile.fileName?.isSome)
    (hactive : s.activeFile = none) (hpresent : d.isPresent s.nextFile = false) (q : Request) :
    IsRun (fun _ => False) (keptIn s) s d [(q, (((keptIn s).serve q).run d).value.1)]
      (((keptIn s).serve q).run d).value.2 (((keptIn s).serve q).run d).disk where
  not_remove _ := id
  store_eq := rfl
  isSome_fileName? := hname
  activeFile file hfile := by
    rw [hactive] at hfile
    cases hfile
  next_eq := rfl
  isPresent_eq := hpresent
  runOn := RunOn.nil.snoc_run q

/-- A store whose static file is reached through a directory. -/
def detour : Store where
  layout := ⟨⟨"a/../zoo.cfg"⟩⟩

/-- A file where `detour` would keep a proposal, but not the directory on the way. -/
def detourDisk : Disk where
  nodes := .ofList [
    (["zoo.cfg.dynamic.next"], .file 0 "stale".toUTF8), (["zoo.cfg.dynamic.next.tmp"], .directory)]
  here := []
  nextId := 1

/-- A store whose static file has a name that is no text. -/
def nameless : Store where
  layout := ⟨⟨"\u00ff.cfg"⟩⟩

/-- A file beside the dynamic file of version 2 of `nameless`. -/
def namelessDisk : Disk where
  nodes := .ofList [
    (["\u00ff.cfg"], .file 0 "".toUTF8), (["\u00ff.cfg.dynamic.2.next"], .file 1 "stale".toUTF8)]
  here := []
  nextId := 2

/-- It is not enough that nothing is at the path of the proposal. A proposal that cannot be written
makes the directories above it, and then a file may be there. A static file whose name is no text keeps
a proposal elsewhere once a membership is in force, and a file may be there. And a path that is no
text is not named in the last line of the static file. -/
theorem not_agrees :
    (¬ ∀ (F : FileOp → Prop) (start r : Registry) (s : Store) (d d' : Disk)
      (served : List (Request × Except ConfigError (Option Verifier))),
      IsRun F start s d served r d' → s.layout.staticFile.IsNamedByText →
      ∃ s', r.store = some s' ∧ r.HoldsProposal s' d') ∧
    (¬ ∀ (F : FileOp → Prop) (start r : Registry) (s : Store) (d d' : Disk)
      (served : List (Request × Except ConfigError (Option Verifier))),
      IsRun F start s d served r d' → d.IsClearOf s.nextFile →
      ∃ s', r.store = some s' ∧ r.HoldsProposal s' d') ∧
    ¬ ∀ (F : FileOp → Prop) (start r : Registry) (s : Store) (d d' : Disk)
      (served : List (Request × Except ConfigError (Option Verifier))),
      IsRun F start s d served r d' → s.layout.staticFile.IsNamedByText → d.IsClearOf s.nextFile →
      (∃ e ∈ served, e.1.commits ∧ e.2.isOk) →
      ∃ t text : String, d'.canonical (s.layout.dynamicFile r.active.version) = .ok (.ofText t) ∧
        d'.read s.layout.staticFile = .ok text.toUTF8 ∧ (Text.lines text.toList).getLast? =
          some ("dynamicConfigFile=".toList ++ Properties.escape t.toList) := by
  refine ⟨fun h => ?absent, fun h => ?name, fun h => ?path⟩
  case absent =>
    have hrun := isRun_keptIn (s := detour) (d := detourDisk) (by rfl) rfl (by rfl)
      (.propose (nobody 2))
    have htext : detour.layout.staticFile.IsNamedByText :=
      ⟨"a/../".toList, "zoo.cfg", by decide, by simp, by decide⟩
    obtain ⟨s', hstore, hholds⟩ := h _ _ _ _ _ _ _ hrun htext
    obtain rfl : detour = s' := Option.some.inj hstore
    cases hholds.isPresent_iff.mp (by rfl)
  case name =>
    have hrun := isRun_keptIn (s := nameless) (d := namelessDisk) (by rfl) rfl (by rfl)
      (.reconfigure (nobody 2))
    have hin : nameless.layout.IsIn namelessDisk [] "\u00ff.cfg" :=
      ⟨[], ⟨by decide, by simp, by decide⟩, by rfl⟩
    obtain ⟨s', hstore, hholds⟩ := h _ _ _ _ _ _ _ hrun
      (hin.isClearOf (k := .next) (by simp) (by rfl))
    obtain ⟨hfile, hnext, hpresent⟩ :
        (((keptIn nameless).serve (.reconfigure (nobody 2))).run
          namelessDisk).value.2.store.map Store.nextFile = some ⟨"\u00ff.cfg.dynamic.2.next"⟩ ∧
        (((keptIn nameless).serve (.reconfigure (nobody 2))).run
          namelessDisk).value.2.next.isSome = false ∧
        (((keptIn nameless).serve (.reconfigure (nobody 2))).run
          namelessDisk).disk.isPresent ⟨"\u00ff.cfg.dynamic.2.next"⟩ = true := by decide +kernel
    rw [hstore] at hfile
    rw [← Option.some.inj hfile, hholds.isPresent_iff, hnext] at hpresent
    cases hpresent
  case path =>
    have hrun := isRun_keptIn (s := .within "\u00ff/") (d := Store.nowhereDisk) (by rfl) rfl (by rfl)
      (.reconfigure (nobody 2))
    have htext : (Store.within "\u00ff/").layout.staticFile.IsNamedByText :=
      ⟨"\u00ff/".toList, "zoo.cfg", by decide, by simp, by decide⟩
    have hin : (Store.within "\u00ff/").layout.IsIn Store.nowhereDisk ["\u00ff"] "zoo.cfg" :=
      ⟨"\u00ff/".toList, ⟨by decide, by simp, by decide⟩, by rfl⟩
    obtain ⟨t, -, hnamed, -⟩ := h _ _ _ _ _ _ _ hrun htext
      (hin.isClearOf (k := .next) (by simp) (by rfl))
      ⟨_, List.mem_singleton.mpr rfl, rfl, by decide +kernel⟩
    obtain ⟨hversion, hpath⟩ :
        (((keptIn (.within "\u00ff/")).serve (.reconfigure (nobody 2))).run
          Store.nowhereDisk).value.2.active.version = 2 ∧
        (((keptIn (.within "\u00ff/")).serve (.reconfigure (nobody 2))).run
          Store.nowhereDisk).disk.canonical ((Store.within "\u00ff/").layout.dynamicFile 2) =
            .ok ⟨"/\u00ff/zoo.cfg.dynamic.2"⟩ := by decide +kernel
    rw [hversion, hpath] at hnamed
    have htext : (Path.mk "/\u00ff/zoo.cfg.dynamic.2").IsText := ⟨t, Except.ok.inj hnamed⟩
    exact absurd (Path.ofText_display_iff.mpr htext) (by decide +kernel)

end Registry

end Ensemble
