import Ensemble.Proofs.Script.Footprints

/-!
# A write is all or nothing

Chunks are written through a new writer, which is committed, given up, or used by `replaceFile`
(`Ending`). Wherever that is cut off and whatever fails on the way, the target holds what it held, or
the chunks one after another; the second only once the temporary file was renamed, and then a refusal
is no longer answered. At the end nothing is at the path of the temporary file, and every other place
holds what it held (`Ending.isAllOrNothing`).

What was held before is taken from the disk on which the directories above the target are made
(`Disk.Prepared`). Directories that come to be there can change where a path leads: up again from a
directory that was missing (`Ending.exists_heldBy_ne`).

There are no symbolic and no hard links on the disk: a file that is reached from the temporary path as
well as from another one is emptied when the writer is made.
-/

namespace Ensemble

open Script Disk

/-- What is done with a writer. -/
inductive Ending
  /-- It is committed. -/
  | commit
  /-- It is given up, or goes out of use. -/
  | abandon
  /-- It is made and ended by `replaceFile`, which may have to fail after the last chunk. -/
  | replace (failure : Option FileError)

namespace Ending

/-- Whether the chunks are to come in place of the target. -/
def commits : Ending → Bool
  | .commit | .replace none => true
  | .abandon | .replace (some _) => false

/-- What is done after the last chunk. -/
def finish (w : AtomicWriter) : Ending → FileAction Unit
  | .commit => w.commit
  | .abandon => ExceptT.lift w.abandon
  | .replace failure => w.commitUnless failure

/-- Chunks are written through a new writer, with which the given is done. -/
def script (target : Path) (chunks : List ByteArray) : Ending → FileAction Unit
  | .replace failure => replaceFile target chunks failure
  | ending => do
    let w ← AtomicWriter.create target
    w.writeThen chunks (ending.finish w)

theorem script_eq (target : Path) (chunks : List ByteArray) (ending : Ending) :
    ending.script target chunks =
      AtomicWriter.create target >>= fun w => w.writeThen chunks (ending.finish w) := by
  cases ending with
  | commit => rfl
  | abandon => rfl
  | replace failure => exact replaceFile_eq target chunks failure

/-- **All or nothing**: what is held where, when chunks were being written to a target, next to what
was held once the directories above the target were made. -/
structure IsAllOrNothing (ending : Ending) (target : Path) (chunks : List ByteArray)
    (F : FileOp → Prop) (o : Option (Except FileError Unit)) (d d₁ d' : Disk) : Prop where
  /-- Every place but those of the target and its temporary file. -/
  heldAt_eq : ∀ l, ¬ d₁.LeadsTo target l → ¬ d₁.LeadsTo target.temporary l →
    d'.heldAt l = d₁.heldAt l
  /-- The target, at any time. -/
  target_cases : d'.heldBy target = d₁.heldBy target ∨
    ending.commits ∧ (∀ e, o ≠ some (.error e)) ∧
      d'.heldBy target = some (.file (joinChunks chunks)) ∧ d'.heldBy target.temporary = none
  /-- The target, after a commit that succeeded. -/
  target_eq : ending.commits → o = some (.ok ()) →
    d'.heldBy target = some (.file (joinChunks chunks))
  /-- The temporary file, at the end: if no writer could be made, nothing was done. -/
  temporary_eq : ∀ r, o = some r →
    (∃ e, r = .error e ∧ (AtomicWriter.create target).run.Reaches F d (some (.error e)) d' ∧ d' = d₁) ∨
      (¬ F (.remove target.temporary) → d'.heldBy target.temporary = none)

variable {F : FileOp → Prop} {d d₁ d₂ d' : Disk} {target : Path} {chunks : List ByteArray}
  {ending : Ending} {o : Option (Except FileError Unit)} {w : AtomicWriter} {l : Location}

/-! ### From the creation of a writer to its end -/

/-- While a writer is made, only its temporary file is touched. -/
theorem isAllOrNothing_of_begun (h : d.Begun d' target) :
    ∃ d₁, d.Prepared d₁ target ∧ ending.IsAllOrNothing target chunks F none d d₁ d' := by
  obtain ⟨d₁, hway, rfl | ⟨m, l, hm, hl, hscratched⟩⟩ := h
  · exact ⟨d', hway.prepared, fun _ _ _ => rfl, Or.inl rfl, nofun, nofun⟩
  · have hchanged := hscratched.changedBy hl hm
    exact ⟨d₁, hway.prepared, fun k _ hk => hchanged.heldAt_eq (by simpa using hk),
      Or.inl hchanged.heldBy_eq_of_temporary, nofun, nofun⟩

/-- A writer at its end has given up, or was committed and has replaced the target. -/
def HasEnded (ending : Ending) (w : AtomicWriter) (chunks : List ByteArray) (F : FileOp → Prop)
    (l : Location) (d₁ : Disk) (r : Except FileError Unit) (d' : Disk) : Prop :=
  w.IsUndone F l d₁ d' ∧ (ending.commits → r ≠ .ok ()) ∨
    ending.commits ∧ r = .ok () ∧ w.HasReplaced l d₁ d' (joinChunks chunks)

theorem finish_of_commits (h : ending.commits) : ending.finish w = w.commit := by
  cases ending with
  | commit => rfl
  | abandon => cases h
  | replace failure =>
    cases failure with
    | none => rfl
    | some e => cases h

theorem finish_guards_of_not_commits (h : ¬ ending.commits) (hw : w.IsOpen l d₁ d₂) :
    (ending.finish w).run.Guards F d₂ (Scratched d₁ · l) fun _ d' => w.IsUndone F l d₁ d' := by
  have habandon := AtomicWriter.abandon_guards (F := F) hw
  cases ending with
  | commit => exact absurd rfl h
  | abandon =>
    change (w.abandon >>= fun u => pure (Except.ok u)).Guards _ _ _ _
    exact habandon.bind fun u d' hundone => guards_pure hundone.scratched hundone
  | replace failure =>
    cases failure with
    | none => exact absurd rfl h
    | some e =>
      exact Action.guards_lift_bind habandon fun u d' hundone =>
        guards_pure hundone.scratched hundone

/-- From the first chunk on. -/
theorem writeThen_finish_guards (hw : w.IsBeside l d₁ d₂ .empty) (hshort : IsShort w.temporary)
    (htemporary : w.temporary = w.target.temporary) (hwritten : w.written = 0) (ending : Ending)
    (chunks : List ByteArray) :
    (w.writeThen chunks (ending.finish w)).run.Guards F d₂
      (fun d' => Scratched d₁ d' l ∨ ending.commits ∧ w.HasReplaced l d₁ d' (joinChunks chunks))
      (ending.HasEnded w chunks F l d₁) := by
  by_cases hcommits : ending.commits
  · rw [finish_of_commits hcommits]
    refine (AtomicWriter.writeThen_commit_guards hw hshort htemporary hwritten chunks).mono
      (fun d' => Or.imp id fun h => ⟨hcommits, h⟩) fun r d' hr => ?_
    cases r with
    | ok u => exact Or.inr ⟨hcommits, rfl, hr⟩
    | error e => exact Or.inl ⟨hr, fun _ => nofun⟩
  · have hended : ∀ r d', w.IsUndone F l d₁ d' → ending.HasEnded w chunks F l d₁ r d' :=
      fun r d' h => Or.inl ⟨h, fun hc => absurd hc hcommits⟩
    refine AtomicWriter.writeThen_guards hw hshort hwritten chunks (fun _ => Or.inl)
      (fun e d' => hended _ d') fun d' hbeside => ?_
    exact (finish_guards_of_not_commits hcommits (hbeside.isOpen hshort)).mono (fun _ => Or.inl)
      hended

/-! ### Main results -/

section
variable (hw : w.IsBeside l d₁ d₂ .empty) (hshort : IsShort w.temporary)
  (htemporary : w.temporary = w.target.temporary)
include hw hshort htemporary

/-- Nothing is found at the path of a temporary file that is gone. -/
theorem heldBy_temporary_eq_none (htree : SameTree d₁ d')
    (hnone : d'.node? w.handle.location = none) : d'.heldBy w.target.temporary = none := by
  have hleads := (hw.scratched.sameTree.symm.trans htree).leadsTo_iff.mpr hw.leadsTo
  rw [← htemporary, hleads.heldBy_eq hshort, heldAt_eq_none_iff, hnone]

theorem isAllOrNothing_of_scratched (h : Scratched d₁ d' l)
    (ho : ending.commits → o ≠ some (.ok ()))
    (hr : o.isSome → ¬ F (.remove w.temporary) → d'.node? w.handle.location = none) :
    ending.IsAllOrNothing w.target chunks F o d d₁ d' := by
  have hm := hw.scratched.sameTree.leadsTo_iff.mp (htemporary ▸ hw.leadsTo)
  have hchanged := h.changedBy hw.isTemporaryFor hm
  refine ⟨fun k _ hk => hchanged.heldAt_eq (by simpa using hk),
    Or.inl hchanged.heldBy_eq_of_temporary, fun hc hok => absurd hok (ho hc), ?_⟩
  rintro r rfl
  refine Or.inr fun hF => heldBy_temporary_eq_none hw hshort htemporary h.sameTree (hr rfl ?_)
  rwa [htemporary]

theorem isAllOrNothing_of_hasReplaced (h : w.HasReplaced l d₁ d' (joinChunks chunks))
    (hc : ending.commits) (ho : ∀ e, o ≠ some (.error e)) :
    ending.IsAllOrNothing w.target chunks F o d d₁ d' := by
  have hm := hw.scratched.sameTree.leadsTo_iff.mp (htemporary ▸ hw.leadsTo)
  have hchanged := h.changedBy hw.isTemporaryFor hm
  have hgone := heldBy_temporary_eq_none hw hshort htemporary hchanged.sameTree h.node?_eq
  exact ⟨fun k hk hk' => hchanged.heldAt_eq (by simp [hk, hk']),
    Or.inr ⟨hc, ho, h.heldBy_target, hgone⟩, fun _ _ => h.heldBy_target, fun _ _ => Or.inr fun _ => hgone⟩

end

/-- **A write is all or nothing** on a disk without links, wherever it is cut off, whatever fails and
however it ends, next to the disk on which the directories above its target are made. -/
theorem isAllOrNothing (h : (ending.script target chunks).run.Reaches F d o d') :
    ∃ d₁, d.Prepared d₁ target ∧ ending.IsAllOrNothing target chunks F o d d₁ d' := by
  have hcreate := AtomicWriter.create_guards (F := F) (d := d) target
  rw [script_eq, ExceptT.run_bind] at h
  rcases reaches_bind_iff.mp h with ⟨rfl, hmade⟩ | ⟨r, d₂, hmade, hused⟩
  · exact isAllOrNothing_of_begun (hcreate.onWay hmade)
  · cases r with
    | error e =>
      obtain ⟨ho, rfl⟩ := reaches_done_iff.mp hused
      have hway : MakesWay target.above d d' := hcreate.atEnd hmade
      refine ⟨d', hway.prepared, fun _ _ _ => rfl, Or.inl rfl, ?_, ?_⟩
      · rintro - rfl
        simp at ho
      · rintro r rfl
        obtain rfl : r = .error e := by simpa using ho
        exact Or.inl ⟨e, rfl, hmade, rfl⟩
    | ok w =>
      obtain ⟨rfl, htemporary, hwritten, hshort, d₁, l, hway, hw⟩ := hcreate.atEnd hmade
      rw [← htemporary] at hshort
      refine ⟨d₁, hway.prepared, ?_⟩
      have hguards := writeThen_finish_guards (F := F) hw hshort htemporary hwritten ending chunks
      cases o with
      | none =>
        rcases hguards.onWay hused with hscratched | ⟨hc, hreplaced⟩
        · exact isAllOrNothing_of_scratched hw hshort htemporary hscratched (fun _ => nofun) nofun
        · exact isAllOrNothing_of_hasReplaced hw hshort htemporary hreplaced hc nofun
      | some r =>
        rcases hguards.atEnd hused with ⟨hundone, hr⟩ | ⟨hc, rfl, hreplaced⟩
        · refine isAllOrNothing_of_scratched hw hshort htemporary hundone.scratched ?_
            fun _ => hundone.node?_eq
          exact fun hc hok => hr hc (Option.some.inj hok)
        · exact isAllOrNothing_of_hasReplaced hw hshort htemporary hreplaced hc nofun

/-- A file `x`, and a temporary file that was left beside it. -/
def oldDisk : Disk where
  nodes := .ofList [(["x"], .file 0 "old".toUTF8), (["x.tmp"], .file 1 "left".toUTF8)]
  here := []
  nextId := 2

/-- Two chunks come in place of a file, and what was left beside it is gone. -/
theorem isAllOrNothing_two_chunks : ∃ d',
    (Ending.commit.script ⟨"x"⟩ ["ne".toUTF8, "w".toUTF8]).run.Reaches (fun _ => False) oldDisk
      (some (.ok ())) d' ∧
    d'.heldBy ⟨"x"⟩ = some (.file (joinChunks ["ne".toUTF8, "w".toUTF8])) ∧
    d'.heldBy ⟨"x.tmp"⟩ = none := by
  have hreaches := (Ending.commit.script ⟨"x"⟩ ["ne".toUTF8, "w".toUTF8]).run.reaches_run
    (F := fun _ => False) oldDisk
  have hvalue : ((Ending.commit.script ⟨"x"⟩ ["ne".toUTF8, "w".toUTF8]).run.run oldDisk).value =
      .ok () := by rfl
  rw [hvalue] at hreaches
  obtain ⟨d₁, -, hall⟩ := isAllOrNothing hreaches
  refine ⟨_, hreaches, hall.target_eq rfl rfl, ?_⟩
  rcases hall.temporary_eq _ rfl with ⟨e, he, -⟩ | hnone
  · cases he
  · exact hnone id

/-- A writer that is given up may change what its target holds: a directory is made that the path goes
through and leaves again, and the path comes to lead to a file. -/
theorem exists_heldBy_ne : ∃ d', (Ending.abandon.script ⟨"a/../x"⟩ []).run.Reaches
    (fun _ => False) oldDisk (some (.ok ())) d' ∧
      oldDisk.heldBy ⟨"a/../x"⟩ = none ∧
      d'.heldBy ⟨"a/../x"⟩ = some (.file "old".toUTF8) := by
  have hreaches := (Ending.abandon.script ⟨"a/../x"⟩ []).run.reaches_run
    (F := fun _ => False) oldDisk
  have hvalue : ((Ending.abandon.script ⟨"a/../x"⟩ []).run.run oldDisk).value = .ok () := by rfl
  rw [hvalue] at hreaches
  exact ⟨_, hreaches, by rfl, by rfl⟩

end Ending

end Ensemble
