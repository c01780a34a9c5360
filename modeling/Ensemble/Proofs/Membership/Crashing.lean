import Ensemble.Proofs.Membership.EntryLines
import Ensemble.Proofs.Membership.Kinds
import Ensemble.Proofs.Script.Files

/-!
# A commit that fails or is cut off

Wherever a commit of a store is cut off and whatever fails on the way, its disk is at one of two
points (`Store.commit_guards`): the static file names what it named before, and nothing but the new
dynamic file is changed (`Store.Unswitched`); or the static file names the new dynamic file, which is
complete (`Store.Switched`). A refused commit is at the first, one that succeeds at the second. So a
commit is atomic (`Store.commit_atomic`), on disks without symbolic and hard links.

The last line of the static file then names the dynamic file. A line before it may be read as another
entry of the kind, and a path that is no text is named by what is shown of it
(`Store.not_hasMovedWhole`).
-/

namespace Ensemble

open Script Disk Layout

variable {F : FileOp → Prop} {d d' : Disk} {directory : Location} {name : String} {s : Store}
  {v : Verifier}

/-! ### Two points -/

/-- The static file names what it named before: nothing but the new dynamic file is changed. -/
def Store.Unswitched (v : Verifier) (d d' : Disk) (directory : Location) (name : String) : Prop :=
  d.SameKinds d' directory name (· ≠ .dynamic v.version)

/-- The static file names the new dynamic file, which is complete. -/
structure Store.Switched (s : Store) (v : Verifier) (d d' : Disk) (directory : Location)
    (name : String) : Prop where
  sameTree : SameTree d d'
  opens_static : s.layout.Opens name .static
  opens_dynamic : s.layout.Opens name (.dynamic v.version)
  static : ∃ text props, d.contents directory name .static = some text.toUTF8 ∧
    Properties.ofText text = .ok props ∧ d'.contents directory name .static =
      some (staticText props (pathOf (Kind.place directory name (.dynamic v.version)))
        s.eraseClientPort).toUTF8
  dynamic : d'.contents directory name (.dynamic v.version) = some (v.fileText false).toUTF8

/-- The dynamic file in force is one of the layout. -/
def Store.NamesActive (s : Store) : Prop :=
  ∀ file, s.activeFile = some file → ∃ w, file = s.layout.dynamicFile w

/-- A proposal is kept in one of the files of the layout. -/
theorem Store.exists_nextFile_eq (hactive : s.NamesActive) :
    ∃ k : Kind, k.IsNext ∧ s.nextFile = s.layout.file k := by
  unfold Store.nextFile
  split
  · rename_i file hfile
    obtain ⟨w, rfl⟩ := hactive file hfile
    rcases nextFile_dynamicFile_cases (l := s.layout) w with hnext | ⟨-, hnext⟩
    · exact ⟨.next, trivial, hnext⟩
    · exact ⟨.beside w, trivial, hnext⟩
  · exact ⟨.next, trivial, rfl⟩

/-- Where the names are texts, it is always the same one. -/
theorem Store.nextFile_eq (hactive : s.NamesActive) (htext : s.layout.staticFile.IsNamedByText) :
    s.nextFile = s.layout.file .next := by
  unfold Store.nextFile
  split
  · rename_i file hfile
    obtain ⟨w, rfl⟩ := hactive file hfile
    exact Layout.nextFile_dynamicFile htext w
  · rfl

/-! ### Questions and removals -/

theorem isPresent_guards (p : Path) :
    (isPresent p).Guards F d (· = d) fun b d' => d' = d ∧ (b = true → d.isPresent p) :=
  guards_perform rfl fun _ _ h => ⟨h.isPresent.1, h.isPresent⟩

theorem readText_guards (p : Path) :
    (readText p).run.Guards F d (· = d) fun r d' =>
      d' = d ∧ ∀ text, r = .ok text → d.read p = .ok text.toUTF8 := by
  unfold readText
  refine Action.guards_bind (R := fun r d' => d' = d ∧ ∀ bytes, r = .ok bytes → d.read p = .ok bytes)
    (guards_perform rfl fun _ _ h => ⟨h.read.1, h.read⟩) ?_ ?_
  · rintro bytes d' ⟨rfl, hread⟩
    cases htext : String.fromUTF8? bytes with
    | none => exact guards_pure rfl ⟨rfl, fun text h => by cases h⟩
    | some text =>
      refine guards_pure rfl ⟨rfl, fun text' h => ?_⟩
      rw [← Except.ok.inj h, hread bytes rfl, toUTF8_eq_of_fromUTF8? htext]
  · rintro e d' ⟨rfl, -⟩
    exact ⟨rfl, rfl, fun text h => by cases h⟩

theorem ofFile_guards (p : Path) :
    (Properties.ofFile p).run.Guards F d (· = d) fun r d' => d' = d ∧ ∀ props, r = .ok props →
      ∃ text, d.read p = .ok text.toUTF8 ∧ Properties.ofText text = .ok props := by
  unfold Properties.ofFile
  refine Action.guards_bind (R := fun r d' => d' = d ∧ ∀ text, r = .ok text →
    d.read p = .ok text.toUTF8) (Action.guards_onFile (readText_guards p) ?_) ?_ ?_
  · rintro r d' ⟨rfl, hread⟩
    refine ⟨rfl, rfl, fun text h => hread text ?_⟩
    exact Except.mapError_eq_ok_iff.mp h
  · rintro text d' ⟨rfl, hread⟩
    exact Action.guards_ofExcept rfl ⟨rfl, fun props h => ⟨text, hread text rfl, h⟩⟩
  · rintro e d' ⟨rfl, -⟩
    exact ⟨rfl, rfl, fun props h => by cases h⟩

/-- Two paths that are one lead to the same place, whatever fails; two that are said to do so have one
canonical path, or take the same steps. -/
theorem sameFile_guards (p q : Path) :
    (Store.sameFile p q).Guards F d (· = d) fun b d' => d' = d ∧ (p = q → b = true) ∧
      (b = true → (∃ a, d.canonical p = .ok a ∧ d.canonical q = .ok a) ∨ p.sameSteps q = true) := by
  unfold Store.sameFile
  refine Guards.bind (guards_perform rfl fun _ _ h => ⟨h.canonical.1, h.canonical⟩) ?_
  rintro a d' ⟨rfl, ha⟩
  refine Guards.bind (guards_perform rfl fun _ _ h => ⟨h.canonical.1, h.canonical⟩) ?_
  rintro b d₁ ⟨rfl, hb⟩
  have hsame : p = q → p.sameSteps q = true := by
    rintro rfl
    simp [Path.sameSteps]
  cases a with
  | error e => exact guards_pure rfl ⟨rfl, hsame, Or.inr⟩
  | ok a =>
    cases b with
    | error e => exact guards_pure rfl ⟨rfl, hsame, Or.inr⟩
    | ok b =>
      refine guards_pure rfl ⟨rfl, ?_, fun hab => Or.inl ⟨a, ha a rfl, ?_⟩⟩
      · rintro rfl
        have hab := (ha a rfl).symm.trans (hb b rfl)
        simpa using Except.ok.inj hab
      · rw [of_decide_eq_true hab]
        exact hb b rfl

/-- **Removing** a file of a layout. -/
theorem removeFile_guards {l : Layout} (hin : l.IsIn d directory name) (k : Kind) :
    (removeFile (l.file k)).Guards F d (fun d' => d.SameKinds d' directory name (· ≠ k))
      fun _ d' => d.SameKinds d' directory name (· ≠ k) ∧
        (¬ F (.remove (l.file k)) → l.Opens name k → d'.contents directory name k = none) := by
  refine Guards.bind (R := fun _ d' => d.SameKinds d' directory name (· ≠ k) ∧
    (¬ F (.remove (l.file k)) → l.Opens name k → d'.contents directory name k = none))
    (guards_perform (.refl d) fun r d' h => ?_) fun r d' hr => ?_
  · suffices hremoved : d.SameKinds d' directory name (· ≠ k) ∧
      (¬ F (.remove (l.file k)) → l.Opens name k → d'.contents directory name k = none) from
      ⟨hremoved.1, hremoved⟩
    rcases h.remove with ⟨m, hm, hchanged⟩ | ⟨rfl, hleft⟩
    · obtain ⟨rfl, -⟩ := hin.leadsTo_iff.mp hm
      refine ⟨⟨hchanged.sameTree, fun k' hk' => ?_⟩, fun _ _ => ?_⟩
      · rw [contents, hchanged.file?_eq_none,
          Function.update_of_ne fun hplace => hk' (Kind.place_inj hplace), contents]
      · rw [contents, hchanged.file?_eq_none, Function.update_self]
    · refine ⟨.refl _, fun hnot hopens => ?_⟩
      exact hleft.resolve_left hnot _ (hin.leadsTo hopens) hopens.isShort
  · split
    · exact guards_pure hr.1 hr
    · exact guards_pure hr.1 hr
    · exact guards_notify hr.1 hr

theorem canonical_guards (p : Path) :
    (Action.onFile p (ExceptT.mk (Script.perform (.canonical p)))).run.Guards F d (· = d) fun r d' =>
      d' = d ∧ ∀ q, r = .ok q → d.canonical p = .ok q := by
  refine Action.guards_onFile (P := fun r d' => d' = d ∧ ∀ q, r = .ok q → d.canonical p = .ok q)
    (guards_perform rfl fun _ _ h => ⟨h.canonical.1, h.canonical⟩) ?_
  rintro r d' ⟨rfl, hr⟩
  exact ⟨rfl, rfl, fun q h => hr q (Except.mapError_eq_ok_iff.mp h)⟩

/-! ### Writes -/

/-- A file of a layout is written, or stays as it was. -/
theorem onFile_replaceFile_guards {l : Layout} {k : Kind} (hin : l.IsIn d directory name)
    (hname : Path.IsName (name ++ k.suffix).toList) (bytes : ByteArray) :
    (Action.onFile (l.file k) (replaceFile (l.file k) [bytes] none)).run.Guards F d
      (fun d' => (d.SameKinds d' directory name fun _ => True) ∨
        l.Rewrote k bytes d d' directory name)
      fun r d' => match r with
        | .ok _ => l.Rewrote k bytes d d' directory name
        | .error _ => d.SameKinds d' directory name fun _ => True := by
  refine Action.guards_onFile (hin.replaceFile_guards hname bytes) fun r d' hr => ?_
  cases r with
  | ok u => exact ⟨Or.inr hr, hr⟩
  | error e => exact ⟨Or.inl hr, hr⟩

/-- The static file names a dynamic file, in place of what it named before. -/
def Layout.Repointed (l : Layout) (version : Version) (eraseClientPort : Bool) (d d' : Disk)
    (directory : Location) (name : String) : Prop :=
  ∃ text props, d.contents directory name .static = some text.toUTF8 ∧
    Properties.ofText text = .ok props ∧ l.Rewrote .static (staticText props
      (pathOf (Kind.place directory name (.dynamic version))) eraseClientPort).toUTF8
        d d' directory name

/-- The entries of the static file are written again, with another dynamic file at the end. -/
theorem rewriteStatic_guards {l : Layout} (hin : l.IsIn d directory name) (version : Version)
    (eraseClientPort : Bool) :
    (do
      let props ← Properties.ofFile l.staticFile
      Action.onFile l.staticFile (replaceFile l.staticFile [(staticText props
        (pathOf (Kind.place directory name (.dynamic version))) eraseClientPort).toUTF8] none) :
      Action Unit).run.Guards F d
      (fun d' => (d.SameKinds d' directory name fun _ => True) ∨
        l.Repointed version eraseClientPort d d' directory name)
      fun r d' => match r with
        | .ok _ => l.Repointed version eraseClientPort d d' directory name
        | .error _ => d.SameKinds d' directory name fun _ => True := by
  refine Action.guards_bind ((ofFile_guards l.staticFile).mono ?_ fun _ _ => id) ?_ ?_
  · rintro d' rfl
    exact Or.inl (.refl _)
  · rintro props d' ⟨rfl, hread⟩
    obtain ⟨text, htext, hprops⟩ := hread props rfl
    obtain ⟨hopens, hcontent⟩ := (hin.read_eq_ok_iff (k := .static)).mp htext
    refine (onFile_replaceFile_guards hin hopens.isName _).mono ?_ ?_
    · rintro d₁ (hsame | hrewrote)
      · exact Or.inl hsame
      · exact Or.inr ⟨text, props, hcontent, hprops, hrewrote⟩
    · intro r d₁ hr
      cases r with
      | ok u => exact ⟨text, props, hcontent, hprops, hr⟩
      | error e => exact hr
  · rintro e d' ⟨rfl, -⟩
    exact ⟨Or.inl (.refl _), .refl _⟩

/-- **The static file** names a complete dynamic file, or stays as it was. -/
theorem pointStatic_guards {l : Layout} {version : Version} (hin : l.IsIn d directory name)
    (hopens : l.Opens name (.dynamic version))
    (hsome : (d.contents directory name (.dynamic version)).isSome) (eraseClientPort : Bool) :
    (pointStatic l.staticFile (l.dynamicFile version) eraseClientPort).run.Guards F d
      (fun d' => (d.SameKinds d' directory name fun _ => True) ∨
        l.Repointed version eraseClientPort d d' directory name)
      fun r d' => match r with
        | .ok _ => l.Repointed version eraseClientPort d d' directory name
        | .error _ => d.SameKinds d' directory name fun _ => True := by
  have hunmoved : ∀ d', d' = d → (d.SameKinds d' directory name fun _ => True) ∨
      l.Repointed version eraseClientPort d d' directory name := by
    rintro d' rfl
    exact Or.inl (.refl _)
  unfold pointStatic
  refine Action.guards_lift_bind ((isPresent_guards _).mono hunmoved fun _ _ => id) ?_
  rintro there d' ⟨rfl, -⟩
  cases there with
  | true =>
    refine Action.guards_bind ((canonical_guards _).mono hunmoved fun _ _ => id) ?_ ?_
    · rintro named d₁ ⟨rfl, hnamed⟩
      have hplace := (hin.canonical_eq hopens hsome).symm.trans (hnamed named rfl)
      obtain rfl := Except.ok.inj hplace
      exact rewriteStatic_guards hin version eraseClientPort
    · rintro e d₁ ⟨rfl, -⟩
      exact ⟨Or.inl (.refl _), .refl _⟩
  | false => exact guards_pure (Or.inl (.refl _)) (.refl _)

namespace Store

/-- **The dynamic file of before** goes, if it is not the new one; nothing else does. -/
theorem removePrevious_guards (hin : s.layout.IsIn d directory name) (hactive : s.NamesActive)
    (version : Version) :
    (s.removePrevious (s.layout.dynamicFile version)).Guards F d
      (fun d' => d.SameKinds d' directory name fun k => ∀ w, k = .dynamic w → w = version)
      fun _ d' => d.SameKinds d' directory name fun k => ∀ w, k = .dynamic w → w = version := by
  unfold removePrevious
  split
  · exact guards_pure (.refl d) (.refl d)
  · rename_i previous hprevious
    obtain ⟨w, rfl⟩ := hactive previous hprevious
    refine Guards.bind ((sameFile_guards _ _).mono ?_ fun _ _ => id) ?_
    · rintro d' rfl
      exact .refl _
    · rintro b d' ⟨rfl, hsame, -⟩
      cases b with
      | true => exact guards_pure (.refl _) (.refl _)
      | false =>
        have hw : w ≠ version := by
          rintro rfl
          cases hsame rfl
        have hkinds : ∀ k : Kind, (∀ w, k = .dynamic w → w = version) → k ≠ .dynamic w :=
          fun k hk hkw => hw (hk w hkw)
        exact (removeFile_guards hin (.dynamic w)).mono (fun _ h => h.mono hkinds)
          fun _ _ h => h.1.mono hkinds

/-- The static file changes from the one point to the other. -/
theorem Unswitched.switched {d₁ : Disk} (h : Unswitched v d d₁ directory name)
    (hopens : s.layout.Opens name (.dynamic v.version))
    (hdynamic : d₁.contents directory name (.dynamic v.version) = some (v.fileText false).toUTF8)
    (hstatic : s.layout.Repointed v.version s.eraseClientPort d₁ d' directory name) :
    s.Switched v d d' directory name := by
  obtain ⟨text, props, htext, hprops, hrewrote⟩ := hstatic
  refine ⟨h.sameTree.trans hrewrote.sameTree, hrewrote.opens, hopens, ⟨text, props, ?_, hprops,
    hrewrote.contents_self⟩, ?_⟩
  · rw [← h.contents_eq .static (by simp), htext]
  · rw [hrewrote.sameKinds.contents_eq _ (by simp), hdynamic]

theorem Switched.of_kept {d'' : Disk} (h : s.Switched v d d' directory name)
    (hkept : d'.SameKinds d'' directory name fun k => k = .static ∨ k = .dynamic v.version) :
    s.Switched v d d'' directory name := by
  obtain ⟨text, props, htext, hprops, hstatic⟩ := h.static
  refine ⟨h.sameTree.trans hkept.sameTree, h.opens_static, h.opens_dynamic,
    ⟨text, props, htext, hprops, ?_⟩, ?_⟩
  · rw [hkept.contents_eq _ (Or.inl rfl), hstatic]
  · rw [hkept.contents_eq _ (Or.inr rfl), h.dynamic]

theorem Switched.removePrevious_guards (h : s.Switched v d d' directory name)
    (hin : s.layout.IsIn d directory name) (hactive : s.NamesActive) :
    (s.removePrevious (s.layout.dynamicFile v.version)).Guards F d'
      (s.Switched v d · directory name) fun _ d'' => s.Switched v d d'' directory name := by
  have hkinds : ∀ k, (k = Kind.static ∨ k = .dynamic v.version) →
      ∀ w, k = .dynamic w → w = v.version := by
    rintro k (rfl | rfl) w ⟨⟩
    rfl
  exact (Store.removePrevious_guards (hin.of_sameTree h.sameTree) hactive v.version).mono
    (fun _ hkept => h.of_kept (hkept.mono hkinds)) fun _ _ hkept => h.of_kept (hkept.mono hkinds)

theorem Switched.clearNext_guards {k : Kind} (h : s.Switched v d d' directory name)
    (hin : s.layout.IsIn d directory name) (hk : k.IsNext) (hnext : s.nextFile = s.layout.file k) :
    s.clearNext.Guards F d' (s.Switched v d · directory name) fun _ d'' =>
      s.Switched v d d'' directory name ∧ (¬ F (.remove (s.layout.file k)) →
        s.layout.Opens name k → d''.contents directory name k = none) := by
  rw [clearNext, hnext]
  have hkinds : ∀ k', (k' = Kind.static ∨ k' = .dynamic v.version) → k' ≠ k := by
    rintro k' (rfl | rfl) rfl <;> exact hk
  exact (removeFile_guards (hin.of_sameTree h.sameTree) k).mono
    (fun _ hkept => h.of_kept (hkept.mono hkinds))
    fun _ _ hkept => ⟨h.of_kept (hkept.1.mono hkinds), hkept.2⟩

/-- **A commit**, wherever it is cut off and whatever fails. -/
theorem commit_guards {k : Kind} (hin : s.layout.IsIn d directory name) (hactive : s.NamesActive)
    (hk : k.IsNext) (hnext : s.nextFile = s.layout.file k) (v : Verifier) :
    (s.commit v).run.Guards F d
      (fun d' => Unswitched v d d' directory name ∨ s.Switched v d d' directory name)
      fun r d' => match r with
        | .ok s' => s' = { s with activeFile := some (s.layout.dynamicFile v.version) } ∧
            s.Switched v d d' directory name ∧ (¬ F (.remove (s.layout.file k)) →
              s.layout.Opens name k → d'.contents directory name k = none)
        | .error _ => Unswitched v d d' directory name := by
  unfold commit
  -- the dynamic file
  have hname := hin.isName (k := .dynamic v.version) (by simp)
  refine Action.guards_bind ((onFile_replaceFile_guards hin hname _).mono ?_ fun _ _ => id) ?_ ?_
  · rintro d₁ (hsame | hrewrote)
    · exact Or.inl (hsame.mono fun _ _ => trivial)
    · exact Or.inl hrewrote.sameKinds
  · intro u d₁ (hdynamic : s.layout.Rewrote (.dynamic v.version) _ d d₁ directory name)
    have hin₁ := hin.of_sameTree hdynamic.sameTree
    have hun : Unswitched v d d₁ directory name := hdynamic.sameKinds
    -- the static file
    refine Action.guards_bind ((pointStatic_guards hin₁ hdynamic.opens
      (by rw [hdynamic.contents_self]; rfl) s.eraseClientPort).mono ?_ fun _ _ => id) ?_ ?_
    · rintro d₂ (hsame | hstatic)
      · exact Or.inl (SameKinds.trans hun (hsame.mono fun _ _ => trivial))
      · exact Or.inr (hun.switched hdynamic.opens hdynamic.contents_self hstatic)
    · intro u d₂ hstatic
      have hswitched := hun.switched hdynamic.opens hdynamic.contents_self hstatic
      -- the dynamic file of before, and the proposal
      refine Action.guards_lift_bind ((hswitched.removePrevious_guards hin hactive).mono
        (fun _ => Or.inr) fun _ _ => id) fun u d₃ hswitched₃ => ?_
      refine Action.guards_lift_bind ((hswitched₃.clearNext_guards hin hk hnext).mono
        (fun _ => Or.inr) fun _ _ => id) fun u d₄ hswitched₄ => ?_
      exact guards_pure (Or.inr hswitched₄.1) ⟨rfl, hswitched₄⟩
    · intro e d₂ hsame
      have hun₂ := SameKinds.trans hun (hsame.mono fun _ _ => trivial)
      exact ⟨Or.inl hun₂, hun₂⟩
  · intro e d₁ hsame
    have hun : Unswitched v d d₁ directory name := hsame.mono fun _ _ => trivial
    exact ⟨Or.inl hun, hun⟩

/-! ### Main results -/

/-- The static file and the dynamic file in force are as before. -/
def IsAsBefore (s : Store) (d d' : Disk) : Prop :=
  (∀ bytes, d'.read s.layout.staticFile = .ok bytes ↔ d.read s.layout.staticFile = .ok bytes) ∧
    ∀ file, s.activeFile = some file → ∀ bytes, d'.read file = .ok bytes ↔ d.read file = .ok bytes

/-- The static file is written again from the given entries, and the dynamic file of `v` holds the
whole of `v`. The last line of the static file names the dynamic file by what is shown of its path from
the top: by the path itself, where that is a text (`Path.ofText_display_iff`). -/
structure HasMoved (s : Store) (v : Verifier) (props : Properties) (q : Path) (d' : Disk) : Prop where
  canonical_eq : d'.canonical (s.layout.dynamicFile v.version) = .ok q
  static : d'.read s.layout.staticFile = .ok (staticText props q s.eraseClientPort).toUTF8
  lastLine : (Text.lines (staticText props q s.eraseClientPort).toList).getLast? =
    some ("dynamicConfigFile=".toList ++ Properties.escape q.display.toList)
  dynamic : d'.read (s.layout.dynamicFile v.version) = .ok (v.fileText false).toUTF8

theorem Unswitched.isAsBefore (h : Unswitched v d d' directory name)
    (hin : s.layout.IsIn d directory name)
    (hactive : ∀ file, s.activeFile = some file →
      ∃ w, w ≠ v.version ∧ file = s.layout.dynamicFile w) : s.IsAsBefore d d' := by
  refine ⟨fun bytes => hin.read_eq_ok_congr (k := .static) h.sameTree (h.contents_eq _ (by simp)), ?_⟩
  intro file hfile bytes
  obtain ⟨w, hw, rfl⟩ := hactive file hfile
  exact hin.read_eq_ok_congr (k := .dynamic w) h.sameTree (h.contents_eq _ (by simpa using hw))

theorem Switched.hasMoved {text : String} {props : Properties}
    (h : s.Switched v d d' directory name) (hin : s.layout.IsIn d directory name)
    (hread : d.read s.layout.staticFile = .ok text.toUTF8)
    (hprops : Properties.ofText text = .ok props) : ∃ q, s.HasMoved v props q d' := by
  obtain ⟨text', props', htext', hprops', hstatic⟩ := h.static
  have hin' := hin.of_sameTree h.sameTree
  obtain ⟨-, hcontent⟩ := (hin.read_eq_ok_iff (k := .static)).mp hread
  have htext := congrArg String.fromUTF8? (Option.some.inj (htext'.symm.trans hcontent))
  rw [fromUTF8?_toUTF8, fromUTF8?_toUTF8] at htext
  obtain rfl := Option.some.inj htext
  obtain rfl := Except.ok.inj (hprops'.symm.trans hprops)
  refine ⟨_, hin'.canonical_eq (k := .dynamic v.version) h.opens_dynamic ?_, ?_,
    getLast?_lines_staticText _ _ _, ?_⟩
  · rw [h.dynamic]
    rfl
  · exact (hin'.read_eq_ok_iff (k := .static)).mpr ⟨h.opens_static, hstatic⟩
  · exact (hin'.read_eq_ok_iff (k := .dynamic v.version)).mpr ⟨h.opens_dynamic, h.dynamic⟩

/-- **A commit is atomic** on a disk without links, where the static file is there and can be read as
entries, and the dynamic file in force is of another version: wherever it is cut off and whatever fails
on the way, the files are as before or have moved to `v`. A commit that is refused leaves them as
before; one that succeeds moves them. -/
theorem commit_atomic {text : String} {props : Properties} {o : Option (Except ConfigError Store)}
    (hactive : ∀ file, s.activeFile = some file →
      ∃ w, w ≠ v.version ∧ file = s.layout.dynamicFile w)
    (hread : d.read s.layout.staticFile = .ok text.toUTF8)
    (hprops : Properties.ofText text = .ok props) (h : (s.commit v).run.Reaches F d o d') :
    (s.IsAsBefore d d' ∨ ∃ q, s.HasMoved v props q d') ∧
      (∀ e, o = some (.error e) → s.IsAsBefore d d') ∧
        ∀ s', o = some (.ok s') → ∃ q, s.HasMoved v props q d' := by
  obtain ⟨-, l, hleads, -⟩ := read_eq_ok_iff.mp hread
  obtain ⟨before, name, directory, hends, hfollow, -⟩ := hleads.exists_name
  have hin : s.layout.IsIn d directory (String.ofList name) :=
    ⟨before, by rw [String.toList_ofList]; exact hends.endsInField, hfollow⟩
  have hnames : s.NamesActive := fun file hfile => (hactive file hfile).imp fun w => And.right
  obtain ⟨k, hk, hnext⟩ := exists_nextFile_eq hnames
  have hguards := commit_guards (F := F) hin hnames hk hnext v
  refine ⟨?_, ?_, ?_⟩
  · rcases hguards.onWay h with hun | hswitched
    · exact Or.inl (hun.isAsBefore hin hactive)
    · exact Or.inr (hswitched.hasMoved hin hread hprops)
  · rintro e rfl
    exact Unswitched.isAsBefore (hguards.atEnd h) hin hactive
  · rintro s' rfl
    exact (hguards.atEnd h).2.1.hasMoved hin hread hprops

/-- Version 1 is in force beside `zoo.cfg`. -/
def zoo : Store where
  layout := ⟨⟨"zoo.cfg"⟩⟩
  activeFile := some ⟨"zoo.cfg.dynamic.1"⟩

/-- The files of `zoo`. -/
def zooDisk : Disk where
  nodes := .ofList [
    (["zoo.cfg"], .file 0 "dynamicConfigFile=/zoo.cfg.dynamic.1\n".toUTF8),
    (["zoo.cfg.dynamic.1"], .file 1 "server.1=a:3888\n".toUTF8)]
  here := []
  nextId := 2

/-- A commit that is cut off before the static file is replaced has written the new dynamic file, and
the static file still names the one of before. -/
theorem commit_atomic_cut_off : ∃ d', (zoo.commit (.majority (.ofMembers .empty 2))).run.Reaches
    (fun _ => False) zooDisk none d' ∧ (d'.read ⟨"zoo.cfg.dynamic.2"⟩).isOk ∧
      zoo.IsAsBefore zooDisk d' := by
  have hreaches := (zoo.commit (.majority (.ofMembers .empty 2))).run.reaches_diskAfter
    (F := fun _ => False) 3 zooDisk
  have hread : ((zoo.commit (.majority (.ofMembers .empty 2))).run.diskAfter 3 zooDisk).read
      zoo.layout.staticFile = .ok "dynamicConfigFile=/zoo.cfg.dynamic.1\n".toUTF8 := by rfl
  have hbefore : zooDisk.read zoo.layout.staticFile =
      .ok "dynamicConfigFile=/zoo.cfg.dynamic.1\n".toUTF8 := by rfl
  have hprops : Properties.ofText "dynamicConfigFile=/zoo.cfg.dynamic.1\n" =
      .ok (.ofList [("dynamicConfigFile", "/zoo.cfg.dynamic.1")]) := by rfl
  have hatomic := commit_atomic
    (fun file hfile => ⟨1, by decide, (Option.some.inj hfile).symm.trans (by rfl)⟩) hbefore hprops
    hreaches
  refine ⟨_, hreaches, by rfl, ?_⟩
  rcases hatomic.1 with hbefore | ⟨q, hmoved⟩
  · exact hbefore
  · have hnamed : ((zoo.commit (.majority (.ofMembers .empty 2))).run.diskAfter 3 zooDisk).canonical
        (zoo.layout.dynamicFile 2) = .ok ⟨"/zoo.cfg.dynamic.2"⟩ := by rfl
    obtain rfl := Except.ok.inj (hnamed.symm.trans hmoved.canonical_eq)
    have hsame := Except.ok.inj (hread.symm.trans hmoved.static)
    exact absurd hsame (by decide +kernel)

/-! ### The line that names the dynamic file -/

/-- The static file has moved, and each line under the key of the dynamic file names that file. -/
def HasMovedWhole (s : Store) (v : Verifier) (props : Properties) (d' : Disk) : Prop :=
  ∃ t : String, s.HasMoved v props (.ofText t) d' ∧
    ∀ line ∈ Text.lines (staticText props (.ofText t) s.eraseClientPort).toList,
      "dynamicConfigFile=".toList <+: line →
        line = "dynamicConfigFile=".toList ++ Properties.escape t.toList

/-- Nothing is in force beside `zoo.cfg` in the directory `directory`. -/
def within (directory : String) : Store where
  layout := ⟨⟨directory ++ "zoo.cfg"⟩⟩

theorem not_isAsBefore_or_hasMovedWhole {props : Properties} {bytes bytes' : ByteArray} {q : Path}
    (hbefore : d.read s.layout.staticFile = .ok bytes)
    (hafter : d'.read s.layout.staticFile = .ok bytes') (hne : bytes ≠ bytes')
    (hq : d'.canonical (s.layout.dynamicFile v.version) = .ok q)
    (hbad : .ofText q.display = q →
      ∃ line ∈ Text.lines (staticText props q s.eraseClientPort).toList,
        "dynamicConfigFile=".toList <+: line ∧
          line ≠ "dynamicConfigFile=".toList ++ Properties.escape q.display.toList) :
    ¬ (s.IsAsBefore d d' ∨ s.HasMovedWhole v props d') := by
  rintro (hsame | ⟨t, hmoved, hwhole⟩)
  · exact hne (Except.ok.inj (hbefore.symm.trans ((hsame.1 bytes').mp hafter)))
  · obtain rfl := Except.ok.inj (hmoved.canonical_eq.symm.trans hq)
    obtain ⟨line, hmem, hkey, hline⟩ := hbad (by rw [Path.display_ofText])
    rw [Path.display_ofText] at hline
    exact hline (hwhole line hmem hkey)

/-- The disk that is left when `s` puts in force a membership of nobody, of version 2. -/
def moved (s : Store) (d : Disk) : Disk := ((s.commit (.majority (.ofMembers .empty 2))).run.run d).disk

/-- `zoo.cfg` in a directory the name of which is no text. -/
def nowhereDisk : Disk where
  nodes := .ofList [(["\u00ff"], .directory), (["\u00ff", "zoo.cfg"], .file 0 "a=b\n".toUTF8)]
  here := []
  nextId := 1

/-- `zoo.cfg` with a `=` in a key. -/
def oddDisk : Disk where
  nodes := .ofList [(["zoo.cfg"], .file 0 "dynamicConfigFile\\=x=y\n".toUTF8)]
  here := []
  nextId := 1

/-- Only the last line has to name the dynamic file, and only where its path is a text: a commit
completes in a directory the name of which is no text, and where a key is read as the start of
another entry, for keys are written as they are. -/
theorem not_hasMovedWhole :
    (¬ ∀ (s : Store) (v : Verifier) (d : Disk) (text : String) (props : Properties),
      s.activeFile = none → d.read s.layout.staticFile = .ok text.toUTF8 →
      Properties.ofText text = .ok props → (∀ e ∈ props.toList, Properties.IsPlainKey e.1.toList) →
      ((s.commit v).run.run d).value.isOk →
      s.IsAsBefore d ((s.commit v).run.run d).disk ∨
        s.HasMovedWhole v props ((s.commit v).run.run d).disk) ∧
    ¬ ∀ (s : Store) (v : Verifier) (d : Disk) (text : String) (props : Properties),
      s.activeFile = none → d.read s.layout.staticFile = .ok text.toUTF8 →
      Properties.ofText text = .ok props → (∀ q, d.canonical s.layout.staticFile = .ok q → q.IsText) →
      ((s.commit v).run.run d).value.isOk →
      s.IsAsBefore d ((s.commit v).run.run d).disk ∨
        s.HasMovedWhole v props ((s.commit v).run.run d).disk := by
  constructor
  · intro h
    have hbefore : nowhereDisk.read (within "\u00ff/").layout.staticFile = .ok "a=b\n".toUTF8 := by rfl
    have hprops : Properties.ofText "a=b\n" = .ok (.ofList [("a", "b")]) := by rfl
    obtain ⟨hok, hafter, hq⟩ : (((within "\u00ff/").commit (.majority (.ofMembers .empty 2))).run.run
        nowhereDisk).value.isOk ∧
        ((within "\u00ff/").moved nowhereDisk).read (within "\u00ff/").layout.staticFile =
          .ok "a=b\ndynamicConfigFile=/\uFFFD/zoo.cfg.dynamic.2\n".toUTF8 ∧
        ((within "\u00ff/").moved nowhereDisk).canonical ((within "\u00ff/").layout.dynamicFile 2) =
          .ok ⟨"/\u00ff/zoo.cfg.dynamic.2"⟩ := by decide +kernel
    refine not_isAsBefore_or_hasMovedWhole (v := .majority (.ofMembers .empty 2)) hbefore hafter
      (by decide) hq
      (fun htext => ?_) (h _ _ nowhereDisk _ _ rfl hbefore hprops (by decide) hok)
    exact absurd htext (by decide +kernel)
  · intro h
    have hbefore : oddDisk.read (within "").layout.staticFile =
        .ok "dynamicConfigFile\\=x=y\n".toUTF8 := by rfl
    have hprops : Properties.ofText "dynamicConfigFile\\=x=y\n" =
        .ok (.ofList [("dynamicConfigFile=x", "y")]) := by rfl
    obtain ⟨hok, hafter, hq⟩ : (((within "").commit (.majority (.ofMembers .empty 2))).run.run
        oddDisk).value.isOk ∧
        ((within "").moved oddDisk).read (within "").layout.staticFile =
          .ok "dynamicConfigFile=x=y\ndynamicConfigFile=/zoo.cfg.dynamic.2\n".toUTF8 ∧
        ((within "").moved oddDisk).canonical ((within "").layout.dynamicFile 2) =
          .ok ⟨"/zoo.cfg.dynamic.2"⟩ := by decide +kernel
    refine not_isAsBefore_or_hasMovedWhole (v := .majority (.ofMembers .empty 2)) hbefore hafter
      (by decide) hq
      (fun _ => ⟨"dynamicConfigFile=x=y".toList, by decide +kernel, by decide, by decide +kernel⟩)
      (h _ _ oddDisk _ _ rfl hbefore hprops (fun q hq => ?_) hok)
    have hstatic : oddDisk.canonical (within "").layout.staticFile = .ok ⟨"/zoo.cfg"⟩ := by rfl
    obtain rfl := Except.ok.inj (hq.symm.trans hstatic)
    exact ⟨"/zoo.cfg", by decide⟩

end Store

end Ensemble
