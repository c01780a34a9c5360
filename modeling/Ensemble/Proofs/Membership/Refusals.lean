import Ensemble.Membership.Registry
import Ensemble.Proofs.Script.Yields

/-!
# What a commit on the disk may be refused for

Writing the files of a membership is refused for what is wrong with a file: it is missing, an
operation on it fails, or it has an entry without a key (`ConfigError.IsOfFile`). Whatever the disk
does, no other error comes from there (`Registry.refusesOnly_commitStore`).
-/

namespace Ensemble

/-- What can be wrong with a file of a membership. -/
inductive ConfigError.IsOfFile : ConfigError → Prop
  | malformed (line : Nat) (entry : String) : IsOfFile (.malformed line entry)
  | missingFile (file : Path) : IsOfFile (.missingFile file)
  | diskFailure (file : Path) (error : FileError) : IsOfFile (.diskFailure file error)

namespace Properties

theorem isOfFile_of_entry {n : Nat} {line : List Char} {e : ConfigError}
    (h : entry n line = .error e) : e.IsOfFile := by
  simp only [entry] at h
  split at h
  · cases h; exact .malformed _ _
  · cases h

theorem isOfFile_of_ofText {text : String} {e : ConfigError} (h : ofText text = .error e) :
    e.IsOfFile := by
  unfold ofText at h
  generalize logicalLines text.toList = ls at h
  generalize (Table.empty : Properties) = props at h
  induction ls generalizing props with
  | nil => cases h
  | cons l ls ih =>
    rw [List.foldlM_cons] at h
    cases hl : entry l.1 l.2 with
    | error e' =>
      rw [hl] at h
      cases h
      exact isOfFile_of_entry hl
    | ok kv =>
      rw [hl] at h
      exact ih _ h

end Properties

open Ensemble.Action Ensemble.ConfigError

theorem refusesOnly_onFile_isOfFile {α : Type} (p : Path) (a : FileAction α) :
    RefusesOnly IsOfFile (onFile p a) := refusesOnly_onFile a fun e => .diskFailure p e

theorem refusesOnly_propertiesOfFile (p : Path) : RefusesOnly IsOfFile (Properties.ofFile p) :=
  refusesOnly_bind (refusesOnly_onFile_isOfFile p _) fun _ =>
    refusesOnly_ofExcept fun _ => Properties.isOfFile_of_ofText

theorem refusesOnly_writeDynamic (file : Path) (v : Verifier) (keepVersion : Bool) :
    RefusesOnly IsOfFile (writeDynamic file v keepVersion) := refusesOnly_onFile_isOfFile file _

theorem refusesOnly_pointStatic (staticFile dynamicFile : Path) (eraseClientPort : Bool) :
    RefusesOnly IsOfFile (pointStatic staticFile dynamicFile eraseClientPort) := by
  refine refusesOnly_bind (refusesOnly_lift _) fun there => ?_
  have rest : RefusesOnly IsOfFile (do
      let named ← onFile dynamicFile (ExceptT.mk (Script.perform (.canonical dynamicFile)))
      let props ← Properties.ofFile staticFile
      onFile staticFile
        (replaceFile staticFile [(staticText props named eraseClientPort).toUTF8] none)) :=
    refusesOnly_bind (refusesOnly_onFile_isOfFile _ _) fun _ =>
      refusesOnly_bind (refusesOnly_propertiesOfFile _) fun _ => refusesOnly_onFile_isOfFile _ _
  cases there with
  | true => exact rest
  | false => exact refusesOnly_bind (refusesOnly_throw (.missingFile _)) fun _ => rest

theorem refusesOnly_backupStatic (l : Layout) : RefusesOnly IsOfFile (backupStatic l) :=
  refusesOnly_bind (refusesOnly_onFile_isOfFile _ _) fun _ =>
    refusesOnly_bind (refusesOnly_onFile_isOfFile _ _) fun _ => refusesOnly_pure _

namespace Store

theorem refusesOnly_backupOnce (s : Store) : RefusesOnly IsOfFile s.backupOnce := by
  refine refusesOnly_bind (refusesOnly_lift _) fun there => ?_
  cases there with
  | true => exact refusesOnly_pure _
  | false => exact refusesOnly_bind (refusesOnly_backupStatic _) fun _ => refusesOnly_pure _

theorem refusesOnly_commit (s : Store) (v : Verifier) : RefusesOnly IsOfFile (s.commit v) :=
  refusesOnly_bind (refusesOnly_writeDynamic _ _ _) fun _ =>
    refusesOnly_bind (refusesOnly_pointStatic _ _ _) fun _ =>
      refusesOnly_bind (refusesOnly_lift _) fun _ =>
        refusesOnly_bind (refusesOnly_lift _) fun _ => refusesOnly_pure _

end Store

/-- **A commit on the disk** is refused only for what is wrong with a file. -/
theorem Registry.refusesOnly_commitStore (r : Registry) (s : Store) (v : Verifier) :
    RefusesOnly IsOfFile (r.commitStore s v) := by
  simp only [Registry.commitStore]
  split
  · exact refusesOnly_bind s.refusesOnly_backupOnce fun _ => s.refusesOnly_commit v
  · exact s.refusesOnly_commit v

end Ensemble
