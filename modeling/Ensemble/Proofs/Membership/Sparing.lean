import Ensemble.Proofs.Disk.Growth
import Ensemble.Proofs.Membership.Crashing

/-!
# What a store leaves alone

A store writes and removes the file of a proposal, and removes the dynamic file of before. Where none
of these paths comes to lead to the static file or to its backup (`Store.Spares`), the static file is
changed by a commit that succeeds only, and the backup by none (`Store.Spares.commit_guards`). After a
commit the store touches other paths, which spare them too (`Store.spares_of_activeFile`).
-/

namespace Ensemble

open Script Disk Layout

variable {F : FileOp → Prop} {d d₁ d' : Disk} {directory : Location} {name : String}
  {P Q : Kind → Prop} {p : Path} {l : Layout} {k : Kind} {s : Store} {v : Verifier}

/-- The static file and its backup. -/
def Layout.Kind.HoldsSettings (k : Kind) : Prop := k = .static ∨ k = .backup

theorem Layout.Kind.IsNext.not_holdsSettings {k : Kind} (h : k.IsNext) : ¬ k.HoldsSettings := by
  rintro (rfl | rfl) <;> exact h

/-! ### Disks that keep files -/

/-- A disk has the directories of another one and maybe more, and the same files of some kinds around
a static file. -/
structure Disk.KeepsKinds (d d' : Disk) (directory : Location) (name : String) (P : Kind → Prop) :
    Prop where
  grows : Grows d d'
  contents_eq : ∀ k, P k → d'.contents directory name k = d.contents directory name k

theorem Disk.SameKinds.keepsKinds (h : d.SameKinds d' directory name P) :
    d.KeepsKinds d' directory name P :=
  ⟨h.sameTree.grows, h.contents_eq⟩

namespace Disk.KeepsKinds

theorem refl (d : Disk) : d.KeepsKinds d directory name P := ⟨.refl d, fun _ _ => rfl⟩

theorem trans (h : d.KeepsKinds d₁ directory name P) (h' : d₁.KeepsKinds d' directory name P) :
    d.KeepsKinds d' directory name P :=
  ⟨h.grows.trans h'.grows, fun k hk => (h'.contents_eq k hk).trans (h.contents_eq k hk)⟩

theorem mono (h : d.KeepsKinds d' directory name P) (hQP : ∀ k, Q k → P k) :
    d.KeepsKinds d' directory name Q :=
  ⟨h.grows, fun k hk => h.contents_eq k (hQP k hk)⟩

/-- Where something is at the place of a file that is kept, something stays there. -/
theorem isSome_node? (h : d.KeepsKinds d' directory name P) (hk : P k)
    (hsome : (d.node? (k.place directory name)).isSome) :
    (d'.node? (k.place directory name)).isSome := by
  have hfile : d'.file? (k.place directory name) = d.file? (k.place directory name) :=
    h.contents_eq k hk
  rw [isSome_node?_iff] at hsome ⊢
  rw [hfile]
  exact hsome.imp_left (h.grows.directory _)

end Disk.KeepsKinds

theorem Layout.IsIn.of_grows (h : l.IsIn d directory name) (hgrows : Grows d d') :
    l.IsIn d' directory name := by
  obtain ⟨before, hends, hfollow⟩ := h
  exact ⟨before, hends, hgrows.follow hfollow⟩

/-! ### Paths that spare the settings -/

/-- The path does not come to lead to the static file or to its backup. -/
def Disk.Spares (d : Disk) (p : Path) (directory : Location) (name : String) : Prop :=
  ∀ k : Kind, k.HoldsSettings → ¬ d.MayLeadTo p (k.place directory name)

namespace Disk.Spares

theorem of_grows (h : d.Spares p directory name) (hgrows : Grows d d') :
    d'.Spares p directory name :=
  fun k hk hlead => h k hk (hlead.of_grows hgrows)

/-- **A file is replaced** at a path that spares the settings. -/
theorem replaceFile_guards (h : d.Spares p directory name) (htemp : d.Spares p.temporary directory name)
    {before : List Char} {other : String} (hends : p.EndsIn before other.toList) (bytes : ByteArray) :
    (Action.onFile p (replaceFile p [bytes] none)).run.Guards F d (fun _ => True) fun _ d' =>
      d.KeepsKinds d' directory name Kind.HoldsSettings := by
  obtain ⟨before', htempends, hfollows⟩ := exists_temporary_endsIn hends
  -- Above the file directories are made, and in its own directory two places are changed.
  have hkept : ∀ {d₁ d' : Disk} {place : Location}, MakesWay p.above d d₁ →
      d₁.follow before = .ok place → (ChangedOn d₁ d' fun m =>
        m = place ++ [other] ∨ IsTemporaryFor m (place ++ [other])) →
      d.KeepsKinds d' directory name Kind.HoldsSettings := by
    intro d₁ d' place hway hfollow hchanged
    obtain ⟨hgrows, hfile⟩ := hway.grows
    refine ⟨hgrows.trans hchanged.sameTree.grows, fun k hk => ?_⟩
    have hsame : d'.file? (k.place directory name) = d₁.file? (k.place directory name) := by
      refine hchanged.file?_eq _ ?_
      rintro (hplace | htemporary)
      · refine h k hk ⟨d₁, before, _, place, hgrows, hends, hfollow, ?_⟩
        rwa [String.ofList_toList]
      · refine htemp k hk ⟨d₁, before', _, place, hgrows, htempends, (hfollows d₁).trans hfollow, ?_⟩
        rw [String.ofList_toList]
        exact isTemporaryFor_concat_iff.mp htemporary
    exact hsame.trans (congrFun hfile _)
  refine Action.guards_onFile ((Ensemble.replaceFile_guards hends _).mono (fun _ _ => trivial)
    fun _ _ => id) fun r d' hr => ⟨trivial, ?_⟩
  cases r with
  | ok u =>
    obtain ⟨d₁, place, hway, hfollow, -, -, hrenewed⟩ := hr
    exact hkept hway hfollow hrenewed.toChangedOn
  | error e =>
    obtain ⟨d₁, hway, rfl | ⟨place, hfollow, hscratched⟩⟩ := hr
    · obtain ⟨hgrows, hfile⟩ := hway.grows
      exact ⟨hgrows, fun k _ => congrFun hfile _⟩
    · exact hkept hway hfollow (hscratched.mono fun _ => Or.inr)

/-- **A file is removed** at a path that spares the settings. -/
theorem removeFile_guards (h : d.Spares p directory name) :
    (removeFile p).Guards F d (fun _ => True) fun _ d' =>
      d.KeepsKinds d' directory name Kind.HoldsSettings := by
  refine Guards.bind (R := fun _ d' => d.KeepsKinds d' directory name Kind.HoldsSettings)
    (guards_perform trivial fun r d' hr => ⟨trivial, ?_⟩) fun r d' hr => ?_
  · rcases hr.remove with ⟨m, hm, hchanged⟩ | ⟨rfl, -⟩
    · refine ⟨hchanged.sameTree.grows, fun k hk => ?_⟩
      have hne : k.place directory name ≠ m := by
        rintro rfl
        exact h k hk hm.mayLeadTo
      rw [contents, hchanged.file?_eq_none, Function.update_of_ne hne, contents]
    · exact .refl _
  · split
    · exact guards_pure trivial hr
    · exact guards_pure trivial hr
    · exact guards_notify trivial hr

end Disk.Spares

/-- The file of a membership is not one of settings. -/
theorem Layout.spares_file {before : List Char} (hends : l.staticFile.EndsInField before name.toList)
    (hk : ¬ k.HoldsSettings) : d.Spares (l.file k) directory name := by
  intro k' hk' hlead
  have hname := Kind.isName_append_suffix hends.noSeparator fun h => hk (Or.inl h)
  have hlast := hlead.getLast?_eq ((file_endsInField hends k).endsIn hname)
  rw [Kind.place, List.getLast?_concat, String.ofList_toList] at hlast
  have hplace : k'.place directory name = k.place directory name := by
    rw [Kind.place, Kind.place, Option.some.inj hlast]
  exact hk (Kind.place_inj hplace ▸ hk')

theorem Layout.spares_temporary {before : List Char}
    (hends : l.staticFile.EndsInField before name.toList) (hk : k ≠ .static) :
    d.Spares (l.file k).temporary directory name := by
  intro k' hk' hlead
  have hname := Kind.isName_append_suffix hends.noSeparator hk
  obtain ⟨before', htempends, -⟩ := exists_temporary_endsIn ((file_endsInField hends k).endsIn hname)
  have hlast := hlead.getLast?_eq htempends
  rw [Kind.place, List.getLast?_concat, String.ofList_toList] at hlast
  have htemporary : IsTemporaryFor (k'.place directory name) (k.place directory name) := by
    rw [Kind.place, Kind.place, isTemporaryFor_concat_iff, Option.some.inj hlast]
  exact Kind.not_isTemporaryFor htemporary

/-! ### Stores -/

namespace Store

/-- What a store writes or removes besides the files of its layout that a commit writes. -/
def Touches (s : Store) (p : Path) : Prop :=
  p = s.nextFile ∨ p = s.nextFile.temporary ∨ s.activeFile = some p

/-- The file of a proposal and the dynamic file of before are not, and do not come to be, the static
file or its backup. -/
def KeepsApart (s : Store) (d : Disk) : Prop :=
  ∀ p, s.Touches p → d.IsApart p s.layout.staticFile ∧ d.IsApart p s.layout.backupFile

/-- What the store touches spares the settings. -/
def Spares (s : Store) (d : Disk) (directory : Location) (name : String) : Prop :=
  ∀ p, s.Touches p → d.Spares p directory name

theorem KeepsApart.spares (h : s.KeepsApart d) (hin : s.layout.IsIn d directory name)
    (hstatic : s.layout.Opens name .static) (hbackup : s.layout.Opens name .backup) :
    s.Spares d directory name := by
  rintro p hp k (rfl | rfl)
  · exact (h p hp).1 _ (hin.leadsTo hstatic)
  · exact (h p hp).2 _ (hin.leadsTo hbackup)

/-- Where the dynamic file in force is one of the layout, so is the file of a proposal. -/
theorem spares_of_activeFile {version : Version} (hin : s.layout.IsIn d directory name)
    (hactive : s.activeFile = some (s.layout.dynamicFile version)) : s.Spares d directory name := by
  obtain ⟨before, hends, -⟩ := hin
  obtain ⟨k, hk, hnext⟩ : ∃ k : Kind, k.IsNext ∧ s.nextFile = s.layout.file k := by
    refine exists_nextFile_eq fun file hfile => ⟨version, ?_⟩
    exact Option.some.inj (hfile.symm.trans hactive)
  rintro p (hp | hp | hp)
  · rw [hp, hnext]
    exact spares_file hends hk.not_holdsSettings
  · rw [hp, hnext]
    exact spares_temporary hends hk.ne_static
  · rw [Option.some.inj (hp.symm.trans hactive)]
    exact spares_file (k := .dynamic version) hends (by simp [Kind.HoldsSettings])

theorem exists_nextFile_endsIn (s : Store) :
    ∃ (before : List Char) (other : String), s.nextFile.EndsIn before other.toList := by
  have happend : ∀ q : Path,
      ∃ (before : List Char) (other : String), (q.append ".next").EndsIn before other.toList := by
    intro q
    obtain ⟨before, field, hends⟩ := q.exists_endsInField
    refine ⟨before, String.ofList (field ++ ".next".toList), ?_⟩
    rw [String.toList_ofList]
    exact hends.append (by decide) (by decide)
  unfold nextFile
  split
  · exact happend _
  · exact happend _

namespace Spares

theorem of_grows (h : s.Spares d directory name) (hgrows : Grows d d') :
    s.Spares d' directory name :=
  fun p hp => (h p hp).of_grows hgrows

theorem writeNext_guards (h : s.Spares d directory name) (v : Verifier) :
    (s.writeNext v).run.Guards F d (fun _ => True) fun _ d' =>
      d.KeepsKinds d' directory name Kind.HoldsSettings := by
  obtain ⟨before, other, hends⟩ := s.exists_nextFile_endsIn
  exact Action.guards_bind ((h _ (.inl rfl)).replaceFile_guards (h _ (.inr (.inl rfl))) hends _)
    (fun _ _ hkept => guards_pure trivial hkept) fun _ _ hkept => ⟨trivial, hkept⟩

theorem clearNext_guards (h : s.Spares d directory name) :
    s.clearNext.Guards F d (fun _ => True) fun _ d' =>
      d.KeepsKinds d' directory name Kind.HoldsSettings :=
  (h _ (.inl rfl)).removeFile_guards

theorem removePrevious_guards (h : s.Spares d directory name) (file : Path) :
    (s.removePrevious file).Guards F d (fun _ => True) fun _ d' =>
      d.KeepsKinds d' directory name Kind.HoldsSettings := by
  unfold Store.removePrevious
  split
  · exact guards_pure trivial (.refl d)
  · rename_i previous hprevious
    refine Guards.bind ((sameFile_guards _ _).mono (fun _ _ => trivial) fun _ _ => id) ?_
    rintro same d' ⟨rfl, -⟩
    cases same with
    | true => exact guards_pure trivial (.refl _)
    | false => exact (h _ (.inr (.inr hprevious))).removeFile_guards

/-- **A commit** that is refused leaves the static file and its backup; one that succeeds changes the
static file only, to name the new dynamic file. -/
theorem commit_guards (h : s.Spares d directory name) (hin : s.layout.IsIn d directory name)
    (v : Verifier) :
    (s.commit v).run.Guards F d (fun _ => True) fun r d' => match r with
      | .ok s' => s' = { s with activeFile := some (s.layout.dynamicFile v.version) } ∧
          d.KeepsKinds d' directory name (· = .backup) ∧
          ∃ text props, d.contents directory name .static = some text.toUTF8 ∧
            Properties.ofText text = .ok props ∧
            d'.contents directory name .static = some (staticText props
              (pathOf (Kind.place directory name (.dynamic v.version))) s.eraseClientPort).toUTF8
      | .error _ => d.KeepsKinds d' directory name Kind.HoldsSettings := by
  have hname := hin.isName (k := .dynamic v.version) (by simp)
  have hdynamic : ∀ k : Kind, k.HoldsSettings → k ≠ .dynamic v.version := by
    rintro k (rfl | rfl) <;> simp
  unfold Store.commit
  -- the dynamic file
  refine Action.guards_bind ((onFile_replaceFile_guards hin hname _).mono (fun _ _ => trivial)
    fun _ _ => id) ?_ fun _ _ hsame => ⟨trivial, (hsame.mono fun _ _ => trivial).keepsKinds⟩
  intro u d₁ (hwrote : s.layout.Rewrote (.dynamic v.version) _ d d₁ directory name)
  have hkept₁ : d.KeepsKinds d₁ directory name Kind.HoldsSettings :=
    (hwrote.sameKinds.mono hdynamic).keepsKinds
  have hin₁ := hin.of_sameTree hwrote.sameTree
  -- the static file
  refine Action.guards_bind ((pointStatic_guards hin₁ hwrote.opens
    (by rw [hwrote.contents_self]; rfl) s.eraseClientPort).mono (fun _ _ => trivial) fun _ _ => id) ?_
    fun _ _ hsame => ⟨trivial, hkept₁.trans (hsame.mono fun _ _ => trivial).keepsKinds⟩
  rintro u d₂ ⟨text, props, htext, hprops, hpointed⟩
  rw [hkept₁.contents_eq _ (.inl rfl)] at htext
  have hkept₂ : d.KeepsKinds d₂ directory name (· = .backup) := by
    refine (hkept₁.mono fun _ => .inr).trans (hpointed.sameKinds.mono ?_).keepsKinds
    rintro k rfl
    simp
  -- the dynamic file of before, and the proposal
  have hspares₂ := h.of_grows hkept₂.grows
  refine Action.guards_lift_bind (hspares₂.removePrevious_guards _) fun u d₃ hkept₃ => ?_
  refine Action.guards_lift_bind (hspares₂.of_grows hkept₃.grows).clearNext_guards fun u d₄ hkept₄ => ?_
  have hkept := hkept₃.trans hkept₄
  refine guards_pure trivial
    ⟨rfl, hkept₂.trans (hkept.mono fun _ => .inr), text, props, htext, hprops, ?_⟩
  rw [hkept.contents_eq _ (.inl rfl), hpointed.contents_self]

end Spares

end Store

end Ensemble
