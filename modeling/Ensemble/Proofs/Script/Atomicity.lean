import Ensemble.Proofs.Script.Faults
import Ensemble.Proofs.Script.Replacing

/-!
# Replacing a file on a disk that may fail

Whatever fails and wherever it is cut off, a replacement changes its target to the whole of the new
content or not at all; only the temporary place beside it may hold anything in between
(`replaceFile_guards`). It ends well exactly when the target is changed. Above the target directories
may have been made, where they were missing. All this is about disks without symbolic and hard links.

A writer is followed from its creation (`AtomicWriter.IsCreated`) through its writes
(`AtomicWriter.IsBeside`) to its end, where it was committed (`AtomicWriter.HasReplaced`) or given up
(`AtomicWriter.IsUndone`).
-/

namespace Ensemble

open Script Disk AtomicWriter

/-! ### What changes -/

/-- Two disks have the same directories, and the same files outside of some places. -/
structure Disk.ChangedOn (d d' : Disk) (P : Location → Prop) : Prop where
  sameTree : SameTree d d'
  file?_eq : ∀ k, ¬ P k → d'.file? k = d.file? k

/-- At most a temporary place for `l` is changed. -/
def Disk.Scratched (d d' : Disk) (l : Location) : Prop := ChangedOn d d' (IsTemporaryFor · l)

/-- The place `l` holds new bytes, and at most a temporary place for it is changed besides. -/
structure Disk.Renewed (d d' : Disk) (l : Location) (bytes : ByteArray) : Prop
    extends ChangedOn d d' (fun k => k = l ∨ IsTemporaryFor k l) where
  file?_self : d'.file? l = some bytes

/-- Directories were made above the file at a path, and in its directory at most a temporary file is
changed. -/
def Disk.Attempted (d d' : Disk) (p : Path) (before : List Char) (name : String) : Prop :=
  ∃ d₁, MakesWay p.above d d₁ ∧ (d' = d₁ ∨ ∃ directory, d₁.follow before = .ok directory ∧
    Scratched d₁ d' (directory ++ [name]))

/-- Directories were made above the file at a path, and the file holds new bytes. -/
def Disk.Placed (d d' : Disk) (p : Path) (before : List Char) (name : String) (bytes : ByteArray) :
    Prop :=
  ∃ d₁ directory, MakesWay p.above d d₁ ∧ d₁.follow before = .ok directory ∧
    IsShort p ∧ d₁.LeadsTo p (directory ++ [name]) ∧ Renewed d₁ d' (directory ++ [name]) bytes

/-- Directories were made above a path, and at most its temporary file is changed. -/
def Disk.Begun (d d' : Disk) (target : Path) : Prop :=
  ∃ d₁, MakesWay target.above d d₁ ∧
    (d' = d₁ ∨ ∃ m l, d₁.LeadsTo target.temporary m ∧ IsTemporaryFor m l ∧ Scratched d₁ d' l)

namespace Disk

variable {d d' d'' : Disk} {l m : Location} {P Q : Location → Prop}

namespace ChangedOn

theorem refl (d : Disk) (P : Location → Prop) : ChangedOn d d P := ⟨.refl d, fun _ _ => rfl⟩

theorem trans (h : ChangedOn d d' P) (h' : ChangedOn d' d'' P) : ChangedOn d d'' P :=
  ⟨h.sameTree.trans h'.sameTree, fun k hk => (h'.file?_eq k hk).trans (h.file?_eq k hk)⟩

theorem mono (h : ChangedOn d d' P) (hPQ : ∀ k, P k → Q k) : ChangedOn d d' Q :=
  ⟨h.sameTree, fun k hk => h.file?_eq k fun hP => hk (hPQ k hP)⟩

end ChangedOn

theorem ChangedAt.changedOn {n : Option Node} (h : ChangedAt d d' l n) (hl : P l) :
    ChangedOn d d' P := by
  refine ⟨h.sameTree, fun k hk => ?_⟩
  have hkl : k ≠ l := by
    rintro rfl
    exact hk hl
  rw [file?, h.node?_eq, if_neg hkl, file?]

theorem Begun.attempted {target : Path} {before : List Char} {name : String}
    (h : d.Begun d' target) (hends : target.EndsIn before name.toList) :
    Attempted d d' target before name := by
  obtain ⟨d₁, hway, h⟩ := h
  refine ⟨d₁, hway, h.imp id ?_⟩
  rintro ⟨m, l, hm, hl, hscratched⟩
  obtain ⟨directory, hfollow, hplace, -⟩ := hm.eq_of_temporary hends
  obtain rfl := hl.target_unique (isTemporaryFor_concat_iff.mpr hplace)
  exact ⟨directory, hfollow, hscratched⟩

theorem ChangedOn.renewed {bytes : ByteArray} (h : ChangedOn d d' (IsTemporaryFor · l))
    (h' : Renewed d' d'' l bytes) : Renewed d d'' l bytes :=
  ⟨(h.mono fun _ => Or.inr).trans h'.toChangedOn, h'.file?_self⟩

end Disk

/-! ### Writers -/

namespace AtomicWriter

variable {F : FileOp → Prop} {d d₀ : Disk} {w : AtomicWriter} {l : Location}
  {content : ByteArray}

/-- The writer holds the content at a temporary place for `l`, and nothing else has changed. -/
structure IsBeside (w : AtomicWriter) (l : Location) (d₀ d : Disk) (content : ByteArray) : Prop
    extends w.Holds d content where
  isTemporaryFor : IsTemporaryFor w.handle.location l
  scratched : Scratched d₀ d l

theorem IsBeside.changed {d' : Disk} {other : ByteArray} (hw : w.IsBeside l d₀ d content)
    (h : ChangedAt d d' w.handle.location (some (.file w.handle.file other))) :
    w.IsBeside l d₀ d' other := by
  refine ⟨⟨h.sameTree.leadsTo_iff.mpr hw.leadsTo, ?_⟩, hw.isTemporaryFor,
    hw.scratched.trans (h.changedOn hw.isTemporaryFor)⟩
  rw [h.node?_eq, if_pos rfl]

theorem write_guards (hw : w.IsBeside l d₀ d content) (hwritten : w.written = content.size)
    (bytes : ByteArray) :
    (w.write bytes).run.Guards F d (Scratched d₀ · l) fun r d' => Scratched d₀ d' l ∧
      ∀ w', r = .ok w' → w' = { w with written := w.written + bytes.size } ∧
        w.IsBeside l d₀ d' (content ++ bytes) := by
  have hne := hw.leadsTo.ne_nil
  have hchanged := writeAt_changedAt hne hw.node?_eq w.written bytes
  rw [hwritten, overwrite_size] at hchanged
  refine Action.guards_bind (R := fun r d' => Scratched d₀ d' l ∧
    (r = .ok () → w.IsBeside l d₀ d' (content ++ bytes))) ?_ ?_ ?_
  · refine guards_perform hw.scratched fun r d' h => ?_
    rcases answers_iff.mp h with hdone | ⟨-, e, rfl, hspoils⟩
    · obtain ⟨-, rfl⟩ := Prod.mk.inj hdone
      rw [hwritten]
      exact ⟨(hw.changed hchanged).scratched, (hw.changed hchanged).scratched,
        fun _ => hw.changed hchanged⟩
    · suffices hscratched : Scratched d₀ d' l by
        exact ⟨hscratched, hscratched, fun h => by cases h⟩
      cases hspoils with
      | nothing => exact hw.scratched
      | bytes hl offset bytes other =>
        rw [locate_of_node? hne hw.node?_eq] at hl
        obtain ⟨rfl, -⟩ := Prod.mk.inj (Option.some.inj hl)
        exact (hw.changed (changedAt_set hne (ne_directory_of_file hw.node?_eq) _ other)).scratched
  · rintro u d' ⟨hscratched, hbeside⟩
    refine guards_pure hscratched ⟨hscratched, ?_⟩
    rintro w' hw'
    exact ⟨(Except.ok.inj hw').symm, hbeside rfl⟩
  · rintro e d' ⟨hscratched, -⟩
    exact ⟨hscratched, hscratched, fun w' hw' => by cases hw'⟩

theorem foldlM_write_guards (hw : w.IsBeside l d₀ d content) (hwritten : w.written = content.size)
    (chunks : List ByteArray) :
    (chunks.foldlM AtomicWriter.write w).run.Guards F d (Scratched d₀ · l) fun r d' =>
      Scratched d₀ d' l ∧ (r.isOk → w.IsBeside l d₀ d' (chunks.foldl (· ++ ·) content)) := by
  induction chunks generalizing d w content with
  | nil => exact guards_pure hw.scratched ⟨hw.scratched, fun _ => hw⟩
  | cons bytes chunks ih =>
    rw [List.foldlM_cons]
    refine Action.guards_bind (write_guards hw hwritten bytes) ?_ ?_
    · rintro w₁ d₁ ⟨-, hw₁⟩
      obtain ⟨rfl, hbeside⟩ := hw₁ w₁ rfl
      have hsize : w.written + bytes.size = (content ++ bytes).size := by
        rw [ByteArray.size_append, hwritten]
      refine (@ih d₁ { w with written := w.written + bytes.size } (content ++ bytes) ?_ hsize).mono
        (fun _ => id) ?_
      · exact ⟨⟨hbeside.leadsTo, hbeside.node?_eq⟩, hbeside.isTemporaryFor, hbeside.scratched⟩
      · rintro r d' ⟨hscratched, h⟩
        refine ⟨hscratched, fun hr => ?_⟩
        have hbeside' := h hr
        exact ⟨⟨hbeside'.leadsTo, hbeside'.node?_eq⟩, hbeside'.isTemporaryFor, hbeside'.scratched⟩
    · rintro e d₁ ⟨hscratched, -⟩
      exact ⟨hscratched, hscratched, fun h => by cases h⟩

/-- The temporary file of the writer is where it was opened, whatever it holds, and nothing else has
changed. -/
structure IsOpen (w : AtomicWriter) (l : Location) (d₀ d : Disk) : Prop where
  isShort : IsShort w.temporary
  leadsTo : d.LeadsTo w.temporary w.handle.location
  ne_directory : d.node? w.handle.location ≠ some .directory
  isTemporaryFor : IsTemporaryFor w.handle.location l
  scratched : Scratched d₀ d l

/-- What was written is given up: the temporary file is removed, unless that fails. -/
structure IsUndone (w : AtomicWriter) (F : FileOp → Prop) (l : Location) (d₀ d' : Disk) : Prop where
  scratched : Scratched d₀ d' l
  node?_eq : ¬ F (.remove w.temporary) → d'.node? w.handle.location = none

/-- The content is in place of the target, and the temporary file is gone. -/
structure HasReplaced (w : AtomicWriter) (l : Location) (d₀ d' : Disk) (content : ByteArray) : Prop
    where
  isShort : IsShort w.target
  leadsTo : d₀.LeadsTo w.target l
  renewed : Renewed d₀ d' l content
  node?_eq : d'.node? w.handle.location = none

theorem IsBeside.isOpen (hw : w.IsBeside l d₀ d content) (hshort : IsShort w.temporary) :
    w.IsOpen l d₀ d :=
  ⟨hshort, hw.leadsTo, ne_directory_of_file hw.node?_eq, hw.isTemporaryFor, hw.scratched⟩

theorem IsOpen.of_scratched {d' : Disk} (hw : w.IsOpen l d₀ d) (h : Scratched d₀ d' l) :
    w.IsOpen l d₀ d' := by
  have htree := hw.scratched.sameTree.symm.trans h.sameTree
  exact ⟨hw.isShort, htree.leadsTo_iff.mpr hw.leadsTo,
    fun hdirectory => hw.ne_directory ((htree.directory_iff _).mp hdirectory), hw.isTemporaryFor, h⟩

/-- Giving up removes the temporary file, or leaves it where that fails. -/
theorem abandon_guards (hw : w.IsOpen l d₀ d) :
    w.abandon.Guards F d (Scratched d₀ · l) fun _ d' => w.IsUndone F l d₀ d' := by
  refine Guards.bind (R := fun _ d' => w.IsUndone F l d₀ d') ?_ fun _ d' h =>
    guards_pure h.scratched h
  refine guards_perform hw.scratched fun r d' h => ?_
  suffices hundone : w.IsUndone F l d₀ d' from ⟨hundone.scratched, hundone⟩
  rcases h.remove with ⟨m, hm, hchanged⟩ | ⟨rfl, hleft⟩
  · obtain rfl := hm.unique hw.leadsTo
    refine ⟨hw.scratched.trans (hchanged.changedOn hw.isTemporaryFor), fun _ => ?_⟩
    rw [hchanged.node?_eq, if_pos rfl]
  · refine ⟨hw.scratched, fun hF => ?_⟩
    have hfile := hleft.resolve_left hF _ hw.leadsTo hw.isShort
    rw [← Option.not_isSome_iff_eq_none, isSome_node?_iff, hfile]
    simpa using hw.ne_directory

/-- **The rename** puts the content in place, or leaves the target as it was. -/
theorem commit_guards (hw : w.IsBeside l d₀ d content) (hshort : IsShort w.temporary)
    (htemporary : w.temporary = w.target.temporary) :
    w.commit.run.Guards F d (fun d' => Scratched d₀ d' l ∨ w.HasReplaced l d₀ d' content)
      fun r d' => match r with
        | .ok _ => w.HasReplaced l d₀ d' content
        | .error _ => w.IsUndone F l d₀ d' := by
  refine Guards.bind (R := fun r d' => match r with
    | .ok _ => w.HasReplaced l d₀ d' content
    | .error _ => d' = d) ?_ fun r d' hr => ?_
  · refine guards_perform (Or.inl hw.scratched) fun r d' h => ?_
    rcases answers_iff.mp h with hdone | ⟨-, e, rfl, hspoils⟩
    · simp only [Disk.perform, Disk.attempt] at hdone
      split at hdone
      · rename_i d₁ hrename
        obtain ⟨rfl, rfl⟩ := Prod.mk.inj hdone
        obtain ⟨hshort', m, hm⟩ := exists_leadsTo_of_rename hrename hw.leadsTo hw.node?_eq
        obtain rfl := hw.isTemporaryFor.target_unique
          (isTemporaryFor_of_leadsTo hm (htemporary ▸ hw.leadsTo))
        obtain ⟨d₂, hgone, hput⟩ :=
          rename_eq_ok hrename hw.leadsTo hm hw.isTemporaryFor.ne hw.node?_eq
        have hput' : Renewed d₂ d₁ l content := by
          refine ⟨hput.changedOn (Or.inl rfl), ?_⟩
          rw [hput.file?_eq_some, Function.update_self]
        have hrenewed := (hw.scratched.trans (hgone.changedOn hw.isTemporaryFor)).renewed hput'
        have hreplaced : w.HasReplaced l d₀ d₁ content := by
          refine ⟨hshort', hw.scratched.sameTree.leadsTo_iff.mp hm, hrenewed, ?_⟩
          rw [hput.node?_eq, if_neg (Ne.symm hw.isTemporaryFor.ne), hgone.node?_eq, if_pos rfl]
        exact ⟨Or.inr hreplaced, hreplaced⟩
      · obtain ⟨rfl, rfl⟩ := Prod.mk.inj hdone
        exact ⟨Or.inl hw.scratched, rfl⟩
    · cases hspoils
      exact ⟨Or.inl hw.scratched, rfl⟩
  · cases r with
    | ok u => exact guards_pure (Or.inr hr) hr
    | error e =>
      subst hr
      refine Guards.bind ((abandon_guards (hw.isOpen hshort)).mono (fun _ => Or.inl) fun _ _ => id) ?_
      exact fun _ d' h => guards_pure (Or.inl h.scratched) h

/-! ### Creating a writer -/

variable {target : Path}

/-- A writer that was created for a path, with nothing written yet, once directories were made above
the path. -/
structure IsCreated (w : AtomicWriter) (target : Path) (d d' : Disk) : Prop where
  target_eq : w.target = target
  temporary_eq : w.temporary = target.temporary
  written_eq : w.written = 0
  isShort : IsShort target.temporary
  exists_isBeside : ∃ d₁ l, MakesWay target.above d d₁ ∧ w.IsBeside l d₁ d' .empty

theorem IsCreated.begun {d' : Disk} (h : w.IsCreated target d d') : d.Begun d' target := by
  obtain ⟨d₁, l, hway, hw⟩ := h.exists_isBeside
  refine ⟨d₁, hway, Or.inr ⟨_, l, ?_, hw.isTemporaryFor, hw.scratched⟩⟩
  rw [← h.temporary_eq]
  exact hw.scratched.sameTree.leadsTo_iff.mp hw.leadsTo

theorem isCreated_of_create {d₁ d' : Disk} {handle : Handle} (hway : MakesWay target.above d d₁)
    (h : d₁.create target.temporary = .ok (handle, d')) :
    (AtomicWriter.mk target target.temporary handle 0).IsCreated target d d' := by
  obtain ⟨hshort, hleads, hchanged⟩ := create_eq_ok h
  obtain ⟨l, hl⟩ := exists_isTemporaryFor hleads
  refine ⟨rfl, by dsimp only, rfl, hshort, d₁, l, hway, ⟨?_, ?_⟩, hl, hchanged.changedOn hl⟩
  · dsimp only
    exact hchanged.sameTree.leadsTo_iff.mpr hleads
  · rw [hchanged.node?_eq, if_pos rfl]

/-- Where the directories above the target are made, an empty file is created beside it. -/
theorem createTemporary_guards {d₁ : Disk} (hway : MakesWay target.above d d₁) :
    (do
      let handle ← ExceptT.mk (Script.perform (.create target.temporary))
      return ⟨target, target.temporary, handle, 0⟩ : FileAction AtomicWriter).run.Guards F d₁
      (d.Begun · target) fun r d' => match r with
        | .ok w => w.IsCreated target d d'
        | .error _ => MakesWay target.above d d' := by
  have hmade : d.Begun d₁ target := ⟨d₁, hway, Or.inl rfl⟩
  refine Action.guards_bind (R := fun r d' => match r with
    | .ok handle => (AtomicWriter.mk target target.temporary handle 0).IsCreated target d d'
    | .error _ => d' = d₁) ?_ ?_ ?_
  · refine guards_perform hmade fun r d' h => ?_
    rcases answers_iff.mp h with hdone | ⟨-, e, rfl, hspoils⟩
    · simp only [Disk.perform] at hdone
      split at hdone
      · rename_i handle d₂ hcreate
        obtain ⟨rfl, rfl⟩ := Prod.mk.inj hdone
        have hcreated := isCreated_of_create hway hcreate
        exact ⟨hcreated.begun, hcreated⟩
      · obtain ⟨rfl, rfl⟩ := Prod.mk.inj hdone
        exact ⟨hmade, rfl⟩
    · cases hspoils
      exact ⟨hmade, rfl⟩
  · exact fun handle d' hcreated => guards_pure hcreated.begun hcreated
  · rintro e d' rfl
    exact ⟨hmade, hway⟩

/-- Some of the directories above a path are made, if not all of them. -/
theorem makeDirectories_guards {parent : Path} :
    (Script.perform (.makeDirectories parent)).Guards F d (MakesWay parent.ancestors d)
      fun _ d' => MakesWay parent.ancestors d d' := by
  refine guards_perform (.refl _ d) fun r d' h => ?_
  suffices hway : MakesWay parent.ancestors d d' from ⟨hway, hway⟩
  rcases answers_iff.mp h with hdone | ⟨-, e, rfl, hspoils⟩
  · have hd' : (d.makeDirectories parent).2 = d' := congrArg Prod.snd hdone
    rw [← hd']
    exact makesWay_makeDirectories d parent
  · cases hspoils with
    | nothing => exact .refl _ d
    | directories hway => exact hway

/-- Creating a writer makes the directories above the target, and then an empty file beside it. -/
theorem create_guards (target : Path) :
    (create target).run.Guards F d (d.Begun · target) fun r d' => match r with
      | .ok w => w.IsCreated target d d'
      | .error _ => MakesWay target.above d d' := by
  unfold create
  cases hparent : target.parent? with
  | none =>
    simp only
    exact createTemporary_guards (.refl _ d)
  | some parent =>
    cases hempty : parent.text.isEmpty with
    | true =>
      simp only [hempty]
      exact createTemporary_guards (.refl _ d)
    | false =>
      have habove : target.above = parent.ancestors := by
        rw [Path.above, hparent]
        simp only [hempty, Bool.false_eq_true, if_false]
      simp only [hempty]
      refine Action.guards_bind (R := fun _ d₁ => MakesWay target.above d d₁) ?_
        (fun _ d₁ => createTemporary_guards) fun _ d₁ hway => ?_
      · rw [habove]
        exact makeDirectories_guards.mono (fun d₁ hway => ⟨d₁, habove ▸ hway, Or.inl rfl⟩)
          fun _ _ => id
      · exact ⟨⟨d₁, hway, Or.inl rfl⟩, hway⟩

/-! ### From the first chunk to the end -/

/-- Writes chunks and goes on; where one cannot be written, all are given up. -/
def writeThen (w : AtomicWriter) (chunks : List ByteArray) (finish : FileAction Unit) :
    FileAction Unit :=
  ExceptT.mk do
    match ← (chunks.foldlM AtomicWriter.write w).run with
    | .ok _ => finish.run
    | .error e =>
      w.abandon
      return .error e

/-- Commits, or gives up with a failure. -/
def commitUnless (w : AtomicWriter) : Option FileError → FileAction Unit
  | none => w.commit
  | some e => do
    ExceptT.lift w.abandon
    throw e

theorem writeThen_guards {I : Disk → Prop} {Q : Except FileError Unit → Disk → Prop}
    {finish : FileAction Unit} (hw : w.IsBeside l d₀ d .empty) (hshort : IsShort w.temporary)
    (hwritten : w.written = 0) (chunks : List ByteArray) (hI : ∀ d', Scratched d₀ d' l → I d')
    (hQ : ∀ e d', w.IsUndone F l d₀ d' → Q (.error e) d')
    (hfinish : ∀ d', w.IsBeside l d₀ d' (joinChunks chunks) → finish.run.Guards F d' I Q) :
    (w.writeThen chunks finish).run.Guards F d I Q := by
  have hempty : w.written = ByteArray.empty.size := by rw [hwritten, ByteArray.size_empty]
  refine Guards.bind ((foldlM_write_guards hw hempty chunks).mono hI fun _ _ => id) ?_
  rintro r d' ⟨hscratched, hbeside⟩
  cases r with
  | ok w' => exact hfinish d' (hbeside rfl)
  | error e =>
    have hopen := (hw.isOpen hshort).of_scratched hscratched
    refine Guards.bind ((abandon_guards hopen).mono hI fun _ _ => id) fun u d'' hundone => ?_
    exact guards_pure (hI d'' hundone.scratched) (hQ e d'' hundone)

/-- The chunks are put in place of the target, or given up. -/
theorem writeThen_commit_guards (hw : w.IsBeside l d₀ d .empty) (hshort : IsShort w.temporary)
    (htemporary : w.temporary = w.target.temporary) (hwritten : w.written = 0)
    (chunks : List ByteArray) :
    (w.writeThen chunks w.commit).run.Guards F d
      (fun d' => Scratched d₀ d' l ∨ w.HasReplaced l d₀ d' (joinChunks chunks))
      fun r d' => match r with
        | .ok _ => w.HasReplaced l d₀ d' (joinChunks chunks)
        | .error _ => w.IsUndone F l d₀ d' :=
  writeThen_guards hw hshort hwritten chunks (fun _ => Or.inl) (fun _ _ => id) fun _ hbeside =>
    commit_guards hbeside hshort htemporary

end AtomicWriter

/-! ### Replacing -/

/-- A replacement writes through a new writer, and commits that or gives it up. -/
theorem replaceFile_eq (target : Path) (chunks : List ByteArray) (failure : Option FileError) :
    replaceFile target chunks failure =
      AtomicWriter.create target >>= fun w => w.writeThen chunks (w.commitUnless failure) := by
  unfold replaceFile AtomicWriter.writeThen
  refine congrArg _ (funext fun w => congrArg ExceptT.mk ?_)
  rw [ExceptT.run_bind, LawfulMonad.bind_assoc]
  refine congrArg _ (funext fun r => ?_)
  cases r with
  | error e => rfl
  | ok w' =>
    cases failure with
    | none => rfl
    | some e => rfl

/-- **A replacement**, whatever fails. -/
theorem replaceFile_guards {F : FileOp → Prop} {d : Disk} {target : Path} {before : List Char}
    {name : String} (hends : target.EndsIn before name.toList) (chunks : List ByteArray) :
    (replaceFile target chunks none).run.Guards F d
      (fun d' => Attempted d d' target before name ∨
        Placed d d' target before name (joinChunks chunks))
      fun r d' => match r with
        | .ok _ => Placed d d' target before name (joinChunks chunks)
        | .error _ => Attempted d d' target before name := by
  rw [replaceFile_eq]
  refine Action.guards_bind ((AtomicWriter.create_guards target).mono
    (fun _ h => Or.inl (h.attempted hends)) fun _ _ => id) ?_ ?_
  · rintro w d' ⟨rfl, htemporary, hzero, hshort, d₁, l, hway, hw⟩
    have hleads := hw.scratched.sameTree.leadsTo_iff.mp (htemporary ▸ hw.leadsTo)
    obtain ⟨directory, hfollow, hplace, -⟩ := hleads.eq_of_temporary hends
    obtain rfl := hw.isTemporaryFor.target_unique (isTemporaryFor_concat_iff.mpr hplace)
    have hattempted : ∀ d₂, Scratched d₁ d₂ (directory ++ [name]) →
        Attempted d d₂ w.target before name := fun d₂ h => ⟨d₁, hway, Or.inr ⟨directory, hfollow, h⟩⟩
    have hplaced : ∀ d₂, w.HasReplaced (directory ++ [name]) d₁ d₂ (joinChunks chunks) →
        Placed d d₂ w.target before name (joinChunks chunks) := fun d₂ h =>
      ⟨d₁, directory, hway, hfollow, h.isShort, h.leadsTo, h.renewed⟩
    refine (AtomicWriter.writeThen_commit_guards hw (htemporary ▸ hshort) htemporary hzero
      chunks).mono (fun d₂ => Or.imp (hattempted d₂) (hplaced d₂)) fun r d₂ hr => ?_
    cases r with
    | ok u => exact hplaced d₂ hr
    | error e => exact hattempted d₂ hr.scratched
  · intro e d' hway
    have hmade : Attempted d d' target before name := ⟨d', hway, Or.inl rfl⟩
    exact ⟨Or.inl hmade, hmade⟩

/-- A file that was replaced is there, whatever directories had to be made for it. -/
theorem exists_file?_of_replaceFile {d d' : Disk} {target : Path} {chunks : List ByteArray}
    {before : List Char} {name : String}
    (h : (replaceFile target chunks none).run.Leaves d (.ok ()) d')
    (hends : target.EndsIn before name.toList) : IsShort target ∧
      ∃ l, d'.LeadsTo target l ∧ d'.file? l = some (joinChunks chunks) := by
  obtain ⟨d₁, directory, -, -, hshort, hleads, hrenewed⟩ :=
    (replaceFile_guards (F := fun _ => False) hends chunks).atEnd h.reaches
  exact ⟨hshort, _, hrenewed.sameTree.leadsTo_iff.mpr hleads, hrenewed.file?_self⟩

/-! ### In a directory that is there -/

namespace Disk

variable {d d' : Disk} {p : Path} {before : List Char} {name : String} {directory : Location}

theorem Attempted.scratched (h : Attempted d d' p before name) (hends : p.EndsIn before name.toList)
    (hfollow : d.follow before = .ok directory) : Scratched d d' (directory ++ [name]) := by
  obtain ⟨d₁, hway, h⟩ := h
  obtain rfl := hway.eq_of_follow hends hfollow
  rcases h with rfl | ⟨directory', hfollow', h⟩
  · exact .refl _ _
  · obtain rfl := Except.ok.inj (hfollow.symm.trans hfollow')
    exact h

theorem Placed.renewed {bytes : ByteArray} (h : Placed d d' p before name bytes)
    (hends : p.EndsIn before name.toList) (hfollow : d.follow before = .ok directory) :
    IsShort p ∧ d.LeadsTo p (directory ++ [name]) ∧ Renewed d d' (directory ++ [name]) bytes := by
  obtain ⟨d₁, directory', hway, hfollow', h⟩ := h
  obtain rfl := hway.eq_of_follow hends hfollow
  obtain rfl := Except.ok.inj (hfollow.symm.trans hfollow')
  exact h

end Disk

end Ensemble
