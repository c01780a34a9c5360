import Ensemble.Membership.Store
import Ensemble.Proofs.Membership.Naming
import Ensemble.Proofs.Script.Files
import Ensemble.Proofs.Script.Replacing

/-!
# What the files of a membership are written as

Each write of a store that succeeds, by the places of the files: a dynamic file
(`writeDynamic_leaves`), the static file that names it (`pointStatic_leaves`), the backup
(`Store.backupOnce_leaves`), and the removal of the dynamic file of before
(`Store.removePrevious_leaves`).
-/

namespace Ensemble

open Script Disk

variable {d d' : Disk} {before : List Char} {name : String} {directory : Location}

theorem writeDynamic_leaves {file : Path} {v : Verifier} {keepVersion : Bool}
    (h : (writeDynamic file v keepVersion).run.Leaves d (.ok ()) d')
    (hends : file.EndsIn before name.toList) (hfollow : d.follow before = .ok directory) :
    IsShort file ∧ d.LeadsTo file (directory ++ [name]) ∧
      Replaced d d' (directory ++ [name]) (v.fileText keepVersion).toUTF8 := by
  obtain ⟨hshort, hleads, hreplaced⟩ :=
    replaceFile_leaves (Action.leaves_ok_onFile_iff.mp h) hends hfollow
  rw [joinChunks_singleton] at hreplaced
  exact ⟨hshort, hleads, hreplaced⟩

/-- **The rewrite** of a static file, by the path that the dynamic file has from the top. -/
theorem exists_of_pointStatic_leaves {staticFile dynamicFile : Path} {eraseClientPort : Bool}
    (h : (pointStatic staticFile dynamicFile eraseClientPort).run.Leaves d (.ok ()) d')
    (hends : staticFile.EndsIn before name.toList) (hfollow : d.follow before = .ok directory) :
    ∃ named text props, d.canonical dynamicFile = .ok named ∧ IsShort staticFile ∧
      d.LeadsTo staticFile (directory ++ [name]) ∧ d.text? (directory ++ [name]) = some text ∧
      Properties.ofText text = .ok props ∧
      Replaced d d' (directory ++ [name]) (staticText props named eraseClientPort).toUTF8 := by
  obtain ⟨b, d₁, hask, h⟩ := Action.leaves_ok_bind_iff.mp h
  obtain ⟨-, rfl⟩ := leaves_isPresent_iff.mp (Action.leaves_ok_lift_iff.mp hask)
  cases b with
  | false =>
    obtain ⟨u, d₁, hthrow, -⟩ := Action.leaves_ok_bind_iff.mp h
    exact absurd hthrow Action.leaves_ok_throw
  | true =>
    obtain ⟨named, d₁, hask, h⟩ := Action.leaves_ok_bind_iff.mp h
    have hcanonical : (Script.perform (.canonical dynamicFile)).Leaves d (.ok named) d₁ :=
      Action.leaves_ok_onFile_iff.mp hask
    obtain ⟨hnamed, rfl⟩ := leaves_canonical_iff.mp hcanonical
    obtain ⟨props, d₁, hread, hwrite⟩ := Action.leaves_ok_bind_iff.mp h
    obtain ⟨rfl, hshort, l, text, hl, htext, hprops⟩ := Properties.ofFile_leaves_iff.mp hread
    have hreplace := Action.leaves_ok_onFile_iff.mp hwrite
    obtain ⟨-, hleads, hreplaced⟩ := replaceFile_leaves hreplace hends hfollow
    rw [joinChunks_singleton] at hreplaced
    exact ⟨named, text, props, hnamed, hshort, hleads, hleads.unique hl ▸ htext, hprops, hreplaced⟩

theorem pointStatic_leaves {staticFile dynamicFile : Path} {eraseClientPort : Bool} {m : Location}
    (h : (pointStatic staticFile dynamicFile eraseClientPort).run.Leaves d (.ok ()) d')
    (hends : staticFile.EndsIn before name.toList) (hfollow : d.follow before = .ok directory)
    (hm : d.LeadsTo dynamicFile m) :
    ∃ text props, d.text? (directory ++ [name]) = some text ∧ Properties.ofText text = .ok props ∧
      Replaced d d' (directory ++ [name]) (staticText props (pathOf m) eraseClientPort).toUTF8 := by
  obtain ⟨named, text, props, hnamed, -, -, htext, hprops, hreplaced⟩ :=
    exists_of_pointStatic_leaves h hends hfollow
  obtain ⟨rfl, -⟩ := hm.canonical_eq_ok_iff.mp hnamed
  exact ⟨text, props, htext, hprops, hreplaced⟩

namespace Store

variable {s : Store}

theorem backupOnce_leaves {r : Option Path} (h : s.backupOnce.run.Leaves d (.ok r) d')
    (hends : s.layout.staticFile.EndsIn before name.toList)
    (hfollow : d.follow before = .ok directory) :
    d' = d ∨ ∃ bytes, Replaced d d' (directory ++ [name ++ ".bak"]) bytes := by
  obtain ⟨b, d₁, hask, h⟩ := Action.leaves_ok_bind_iff.mp h
  obtain ⟨-, rfl⟩ := leaves_isPresent_iff.mp (Action.leaves_ok_lift_iff.mp hask)
  cases b with
  | true => exact Or.inl (Action.leaves_ok_pure_iff.mp h).2
  | false =>
    obtain ⟨q, d₁, hbackup, h⟩ := Action.leaves_ok_bind_iff.mp h
    obtain ⟨-, rfl⟩ := Action.leaves_ok_pure_iff.mp h
    obtain ⟨bytes, d₁, hask, hwrite⟩ := Action.leaves_ok_bind_iff.mp hbackup
    obtain ⟨-, rfl⟩ := leaves_read_iff.mp (Action.leaves_ok_onFile_iff.mp hask)
    obtain ⟨u, d₁, hreplace, h⟩ := Action.leaves_ok_bind_iff.mp hwrite
    obtain ⟨-, rfl⟩ := Action.leaves_ok_pure_iff.mp h
    have hbak : s.layout.backupFile.EndsIn before (name ++ ".bak").toList := by
      rw [String.toList_append]
      exact Layout.backupFile_endsIn hends.endsInField
    obtain ⟨-, -, hreplaced⟩ :=
      replaceFile_leaves (Action.leaves_ok_onFile_iff.mp hreplace) hbak hfollow
    exact Or.inr ⟨_, hreplaced⟩

theorem sameFile_leaves {p q : Path} {b : Bool} (h : (sameFile p q).Leaves d b d') :
    d' = d ∧ ∀ l, d.LeadsTo p l → d.LeadsTo q l → (d.node? l).isSome → b = true := by
  obtain ⟨r, d₁, hask, h⟩ := leaves_bind_iff.mp h
  obtain ⟨rfl, rfl⟩ := leaves_canonical_iff.mp hask
  obtain ⟨r, d₁, hask, h⟩ := leaves_bind_iff.mp h
  obtain ⟨rfl, rfl⟩ := leaves_canonical_iff.mp hask
  constructor
  · split at h <;> exact (leaves_pure_iff.mp h).2
  · intro l hp hq hnode
    rw [hp.canonical_eq_ok_iff.mpr ⟨rfl, hnode⟩, hq.canonical_eq_ok_iff.mpr ⟨rfl, hnode⟩] at h
    rw [(leaves_pure_iff.mp h).1]
    simp

/-- The dynamic file of before goes, the new one stays. -/
theorem removePrevious_leaves {file : Path} {u : Unit} {m : Location}
    (h : (s.removePrevious file).Leaves d u d') (hm : d.LeadsTo file m)
    (hfile : (d.file? m).isSome) :
    SameTree d d' ∧ d'.file? m = d.file? m ∧
      (∀ l, (∀ previous, s.activeFile = some previous → ¬ d.LeadsTo previous l) →
        d'.file? l = d.file? l) ∧
      ∀ l content, d'.file? l = some content → d.file? l = some content := by
  unfold removePrevious at h
  cases hactive : s.activeFile with
  | none =>
    rw [hactive] at h
    obtain ⟨-, rfl⟩ := leaves_pure_iff.mp h
    exact ⟨.refl _, rfl, fun _ _ => rfl, fun _ _ hl => hl⟩
  | some previous =>
    rw [hactive] at h
    obtain ⟨b, d₁, hask, h⟩ := leaves_bind_iff.mp h
    obtain ⟨rfl, hsame⟩ := sameFile_leaves hask
    cases b with
    | true =>
      obtain ⟨-, rfl⟩ := leaves_pure_iff.mp h
      exact ⟨.refl _, rfl, fun _ _ => rfl, fun _ _ hl => hl⟩
    | false =>
      obtain ⟨htree, -, hother, hold⟩ := removeFile_leaves h
      refine ⟨htree, hother m fun hp => ?_, fun l hl => hother l (hl previous rfl), hold⟩
      cases hsame m hp hm (isSome_node?_iff.mpr (Or.inr hfile))

end Store

end Ensemble
