import Ensemble.Proofs.Disk.Ways
import Ensemble.Proofs.Script.Leaves
import Ensemble.Script.AtomicFile

/-!
# What replacing a file does

A replacement that succeeds leaves the chunks, one after another, at the place of its target, and
nothing at the place that took them for it, the name of which ends in `.tmp`
(`replaceFile_leaves`). Every other file stays, and every directory.
-/

namespace Ensemble

open Script Disk

/-! ### Bytes -/

theorem overwrite_size (content bytes : ByteArray) :
    overwrite content content.size bytes = content ++ bytes := by
  have hbehind : content.extract (content.size + bytes.size) content.size = ByteArray.empty :=
    ByteArray.extract_add_left
  have hzeros : (⟨Array.replicate (content.size - content.size) 0⟩ : ByteArray) = .empty := by
    rw [Nat.sub_self]
    rfl
  rw [overwrite, hbehind, hzeros, ByteArray.extract_zero_size, ByteArray.append_empty,
    ByteArray.append_empty]

/-- The chunks, one after another. -/
def joinChunks (chunks : List ByteArray) : ByteArray := chunks.foldl (· ++ ·) .empty

theorem joinChunks_singleton (bytes : ByteArray) : joinChunks [bytes] = bytes :=
  ByteArray.empty_append

namespace AtomicWriter

variable {d d' : Disk} {w w' : AtomicWriter}

/-- The temporary file of the writer is where it was opened, and holds the content. -/
structure Holds (w : AtomicWriter) (d : Disk) (content : ByteArray) : Prop where
  leadsTo : d.LeadsTo w.temporary w.handle.location
  node?_eq : d.node? w.handle.location = some (.file w.handle.file content)

theorem eq_of_write_leaves {bytes : ByteArray} (h : (w.write bytes).run.Leaves d (.ok w') d') :
    w' = { w with written := w.written + bytes.size } := by
  obtain ⟨u, d₁, -, h⟩ := Action.leaves_ok_bind_iff.mp h
  exact (Action.leaves_ok_pure_iff.mp h).1

theorem write_leaves {content bytes : ByteArray} (h : (w.write bytes).run.Leaves d (.ok w') d')
    (hw : w.Holds d content) (hwritten : w.written = content.size) :
    w'.Holds d' (content ++ bytes) ∧
      ChangedAt d d' w.handle.location (some (.file w.handle.file (content ++ bytes))) := by
  obtain ⟨u, d₁, hwrite, h⟩ := Action.leaves_ok_bind_iff.mp h
  obtain ⟨rfl, rfl⟩ := Action.leaves_ok_pure_iff.mp h
  obtain ⟨-, rfl⟩ := Prod.mk.inj (leaves_perform_iff.mp hwrite)
  have hchanged := writeAt_changedAt hw.leadsTo.ne_nil hw.node?_eq w.written bytes
  rw [hwritten, overwrite_size] at hchanged
  rw [hwritten]
  refine ⟨⟨hchanged.sameTree.leadsTo_iff.mpr hw.leadsTo, ?_⟩, hchanged⟩
  rw [hchanged.node?_eq, if_pos rfl]

theorem foldlM_write_leaves {chunks : List ByteArray} {content : ByteArray}
    (h : (chunks.foldlM AtomicWriter.write w).run.Leaves d (.ok w') d') (hw : w.Holds d content)
    (hwritten : w.written = content.size) :
    w.Holds d' (chunks.foldl (· ++ ·) content) ∧
      ChangedAt d d' w.handle.location
        (some (.file w.handle.file (chunks.foldl (· ++ ·) content))) := by
  induction chunks generalizing d w content with
  | nil =>
    obtain ⟨rfl, rfl⟩ := Action.leaves_ok_pure_iff.mp h
    refine ⟨hw, rfl, ne_directory_of_file hw.node?_eq, by simp, fun m => ?_⟩
    by_cases hm : m = w'.handle.location
    · rw [if_pos hm, hm]
      exact hw.node?_eq
    · rw [if_neg hm]
  | cons bytes chunks ih =>
    rw [List.foldlM_cons] at h
    obtain ⟨w₁, d₁, hwrite, h⟩ := Action.leaves_ok_bind_iff.mp h
    obtain ⟨hw₁, hchanged⟩ := write_leaves hwrite hw hwritten
    have hw₁eq := eq_of_write_leaves hwrite
    have hwritten₁ : w₁.written = (content ++ bytes).size := by
      rw [hw₁eq, ByteArray.size_append, hwritten]
    obtain ⟨hw', hchanged'⟩ := ih h hw₁ hwritten₁
    rw [hw₁eq] at hw' hchanged'
    exact ⟨⟨hw'.leadsTo, hw'.node?_eq⟩, hchanged.trans hchanged'⟩

/-- Creating a writer makes the directories above the target, unless its path names none, and then
an empty file. -/
theorem create_cases {target : Path} (h : (create target).run.Leaves d (.ok w) d') :
    ∃ d₁, (d₁ = d ∨ ∃ parent, target.parent? = some parent ∧ parent.text.isEmpty = false ∧
        d₁ = (d.makeDirectories parent).2) ∧
      d₁.create target.temporary = .ok (w.handle, d') ∧
      w.target = target ∧ w.temporary = target.temporary ∧ w.written = 0 := by
  have hcreated : ∀ d₁ : Disk, (do
        let handle ← ExceptT.mk (Script.perform (.create target.temporary))
        return ⟨target, target.temporary, handle, 0⟩ : FileAction AtomicWriter).run.Leaves
          d₁ (.ok w) d' →
      d₁.create target.temporary = .ok (w.handle, d') ∧
        w.target = target ∧ w.temporary = target.temporary ∧ w.written = 0 := by
    intro d₁ h
    obtain ⟨handle, d₂, hcreate, h⟩ := Action.leaves_ok_bind_iff.mp h
    obtain ⟨rfl, rfl⟩ := Action.leaves_ok_pure_iff.mp h
    refine ⟨?_, rfl, by dsimp only, rfl⟩
    have hperform := leaves_perform_iff.mp hcreate
    simp only [Disk.perform] at hperform
    split at hperform
    · rename_i handle' d₃ hok
      obtain ⟨hhandle, rfl⟩ := Prod.mk.inj hperform
      rw [hok, Except.ok.inj hhandle]
    · cases hperform
  unfold create at h
  cases hparent : target.parent? with
  | none =>
    simp only [hparent] at h
    exact ⟨d, Or.inl rfl, hcreated d h⟩
  | some parent =>
    cases hempty : parent.text.isEmpty with
    | true =>
      simp only [hparent, hempty] at h
      exact ⟨d, Or.inl rfl, hcreated d h⟩
    | false =>
      simp only [hparent, hempty] at h
      obtain ⟨u, d₁, hmake, h⟩ := Action.leaves_ok_bind_iff.mp h
      have hmake := congrArg Prod.snd (leaves_perform_iff.mp hmake)
      exact ⟨d₁, Or.inr ⟨parent, rfl, hempty, hmake.symm⟩, hcreated d₁ h⟩

/-- Where the target can be, no directories are left to make. -/
theorem create_of_leadsTo {target : Path} {l : Location}
    (h : (create target).run.Leaves d (.ok w) d') (hl : d.LeadsTo target l)
    (hshort : IsShort target) :
    d.create target.temporary = .ok (w.handle, d') ∧ w.temporary = target.temporary := by
  obtain ⟨d₁, hd₁, hcreate, -, htemporary, -⟩ := create_cases h
  have hsame : d₁ = d := by
    rcases hd₁ with hd₁ | ⟨parent, hparent, hempty, hd₁⟩
    · exact hd₁
    · rw [hd₁, hl.makeDirectories_parent hshort hparent hempty]
  rw [hsame] at hcreate
  exact ⟨hcreate, htemporary⟩

theorem create_leaves {target : Path} {l : Location}
    (h : (create target).run.Leaves d (.ok w) d') (hl : d.LeadsTo target l)
    (hshort : IsShort target) :
    w.Holds d' .empty ∧
      ChangedAt d d' w.handle.location (some (.file w.handle.file .empty)) := by
  obtain ⟨hcreate, htemporary⟩ := create_of_leadsTo h hl hshort
  obtain ⟨-, hleads, hchanged⟩ := create_eq_ok hcreate
  refine ⟨⟨?_, ?_⟩, hchanged⟩
  · rw [htemporary]
    exact hchanged.sameTree.leadsTo_iff.mpr hleads
  · rw [hchanged.node?_eq, if_pos rfl]

theorem commit_leaves {content : ByteArray} {l : Location}
    (h : w.commit.run.Leaves d (.ok ()) d') (hw : w.Holds d content) (hl : d.LeadsTo w.target l)
    (hne : l ≠ w.handle.location) :
    ∃ d₁, ChangedAt d d₁ w.handle.location none ∧
      ChangedAt d₁ d' l (some (.file w.handle.file content)) := by
  obtain ⟨r, d₁, hrename, h⟩ := leaves_bind_iff.mp h
  cases r with
  | error e =>
    obtain ⟨u, d₂, -, h⟩ := leaves_bind_iff.mp h
    cases (leaves_pure_iff.mp h).1
  | ok u =>
    obtain ⟨-, rfl⟩ := leaves_pure_iff.mp h
    have hperform := leaves_perform_iff.mp hrename
    simp only [Disk.perform, Disk.attempt] at hperform
    split at hperform
    · rename_i d₂ hok
      obtain ⟨-, rfl⟩ := Prod.mk.inj hperform
      exact rename_eq_ok hok hw.leadsTo hl hne hw.node?_eq
    · cases (Prod.mk.inj hperform).1

theorem spot_of_commit_leaves (h : w.commit.run.Leaves d (.ok ()) d') :
    hasNul w.target = false ∧ IsShort w.target := by
  obtain ⟨r, d₁, hrename, h⟩ := leaves_bind_iff.mp h
  cases r with
  | error e =>
    obtain ⟨u, d₂, -, h⟩ := leaves_bind_iff.mp h
    cases (leaves_pure_iff.mp h).1
  | ok u =>
    have hperform := leaves_perform_iff.mp hrename
    simp only [Disk.perform, Disk.attempt] at hperform
    split at hperform
    · rename_i d₂ hok
      obtain ⟨s, -, hok⟩ := Except.bind_eq_ok_iff.mp hok
      obtain ⟨t, ht, -⟩ := Except.bind_eq_ok_iff.mp hok
      obtain ⟨hnul, hshort, -⟩ := spot_eq_ok_iff.mp ht
      exact ⟨hnul, hshort⟩
    · cases (Prod.mk.inj hperform).1

end AtomicWriter

/-! ### Replacing -/

/-- The place that takes new content for another one: it is beside that, and its name has `.tmp` at
its end. -/
def Disk.IsTemporaryFor (m l : Location) : Prop :=
  ∃ directory name, l = directory ++ [name] ∧ m = directory ++ [name ++ ".tmp"]

namespace Disk

variable {d : Disk} {target : Path} {l m : Location} {before : List Char} {name : String}

theorem IsTemporaryFor.ne (h : IsTemporaryFor m l) : l ≠ m := by
  obtain ⟨directory, name, rfl, rfl⟩ := h
  intro heq
  have hname := congrArg String.length (List.singleton_inj.mp (List.append_cancel_left heq))
  simp at hname

theorem isTemporaryFor_concat_iff {directory : Location} :
    IsTemporaryFor m (directory ++ [name]) ↔ m = directory ++ [name ++ ".tmp"] := by
  constructor
  · rintro ⟨directory', name', heq, rfl⟩
    obtain ⟨rfl, hname⟩ := List.append_inj' heq rfl
    rw [List.singleton_inj.mp hname]
  · rintro rfl
    exact ⟨directory, name, rfl, rfl⟩

theorem IsTemporaryFor.unique {m' : Location} (h : IsTemporaryFor m l) (h' : IsTemporaryFor m' l) :
    m = m' := by
  obtain ⟨directory, name, rfl, rfl⟩ := h
  exact (isTemporaryFor_concat_iff.mp h').symm

theorem IsTemporaryFor.target_unique {l' : Location} (h : IsTemporaryFor m l)
    (h' : IsTemporaryFor m l') : l = l' := by
  obtain ⟨directory, name, rfl, rfl⟩ := h
  obtain ⟨directory', name', rfl, heq⟩ := h'
  obtain ⟨rfl, hname⟩ := List.append_inj' heq rfl
  have htoList := congrArg String.toList (List.singleton_inj.mp hname)
  rw [String.toList_append, String.toList_append] at htoList
  rw [String.toList_inj.mp (List.append_cancel_right htoList)]

/-- A temporary file is one for some place, whatever its target ends in. -/
theorem exists_isTemporaryFor (hm : d.LeadsTo target.temporary m) : ∃ l, IsTemporaryFor m l := by
  have hsep : '/' ∉ target.fileName?.getD [] := by
    cases hfile : target.fileName? with
    | none => simp
    | some s => exact Path.separator_not_mem_of_fileName? hfile
  have hname : Path.IsName (target.fileName?.getD [] ++ ".tmp".toList) := by
    refine Path.isName_of_length ?_ (by simp)
    simp [hsep]
  obtain ⟨before, hends⟩ := Path.exists_endsIn_join
    (if target.fileName?.isSome then target.parent?.getD target else target) hname
  obtain ⟨directory, -, rfl, -⟩ := hm.exists_directory hends
  refine ⟨directory ++ [String.ofList (target.fileName?.getD [])], directory, _, rfl, ?_⟩
  rw [String.ofList_append, String.ofList_toList]

/-- The name of the temporary file has `.tmp` at its end. -/
theorem exists_temporary_endsIn (h : target.EndsIn before name.toList) :
    ∃ before', target.temporary.EndsIn before' (name ++ ".tmp").toList ∧
      ∀ d : Disk, d.follow before' = d.follow before := by
  have hname : Path.IsName (name.toList ++ ".tmp".toList) := h.isName.append (by decide)
  obtain ⟨before', hends, hfollow⟩ := exists_withFileName_follow h hname
  have htemporary : target.temporary = target.withFileName (name.toList ++ ".tmp".toList) := by
    rw [Path.temporary, h.fileName?_eq]
    rfl
  refine ⟨before', ?_, hfollow⟩
  rwa [htemporary, String.toList_append]

/-- The temporary file is in the directory of its target, and its name is longer. -/
theorem LeadsTo.eq_of_temporary (hm : d.LeadsTo target.temporary m)
    (h : target.EndsIn before name.toList) :
    ∃ directory, d.follow before = .ok directory ∧ m = directory ++ [name ++ ".tmp"] ∧
      name.length ≤ 255 := by
  obtain ⟨before', hends, hfollow⟩ := exists_temporary_endsIn h
  obtain ⟨directory, hfollow', rfl, hsize⟩ := hm.exists_directory hends
  rw [String.ofList_toList] at hsize ⊢
  rw [String.length_append] at hsize
  exact ⟨directory, (hfollow d).symm.trans hfollow', rfl, Nat.le_of_add_right_le hsize⟩

/-- Where a temporary file can be, its target can be. -/
theorem leadsTo_of_temporary {d' : Disk} {directory : Location} (h : target.EndsIn before name.toList)
    (hfollow : d.follow before = .ok directory) (hnul : hasNul target = false)
    (hm : d'.LeadsTo target.temporary m) : d.LeadsTo target (directory ++ [name]) := by
  obtain ⟨-, -, -, hsize⟩ := hm.eq_of_temporary h
  refine ⟨hnul, before, name.toList, directory, h, hfollow, ?_, ?_⟩
  · rw [String.ofList_toList]
  · rwa [String.ofList_toList]

theorem isTemporaryFor_of_leadsTo (hl : d.LeadsTo target l) (hm : d.LeadsTo target.temporary m) :
    IsTemporaryFor m l := by
  obtain ⟨before, name, directory, hends, hfollow, rfl, -⟩ := hl.exists_name
  rw [← String.toList_ofList (l := name)] at hends
  obtain ⟨directory', hfollow', rfl, -⟩ := hm.eq_of_temporary hends
  rw [isTemporaryFor_concat_iff, Except.ok.inj (hfollow'.symm.trans hfollow)]

end Disk

/-- The file at a place is replaced, and what was at a temporary place for it is gone. -/
structure Disk.Replaced (d d' : Disk) (l : Location) (bytes : ByteArray) : Prop where
  sameTree : SameTree d d'
  exists_file? : ∃ m, IsTemporaryFor m l ∧
    d'.file? = Function.update (Function.update d.file? m none) l (some bytes)

namespace Disk.Replaced

variable {d d' : Disk} {l k : Location} {bytes content : ByteArray}

theorem file?_self (h : Replaced d d' l bytes) : d'.file? l = some bytes := by
  obtain ⟨m, -, hfile⟩ := h.exists_file?
  rw [hfile, Function.update_self]

theorem file?_of_ne (h : Replaced d d' l bytes) (hne : k ≠ l) (htemp : ¬ IsTemporaryFor k l) :
    d'.file? k = d.file? k := by
  obtain ⟨m, hm, hfile⟩ := h.exists_file?
  have hkm : k ≠ m := by
    rintro rfl
    exact htemp hm
  rw [hfile, Function.update_of_ne hne, Function.update_of_ne hkm]

/-- What is there after is new, or was there before. -/
theorem eq_or_file?_eq (h : Replaced d d' l bytes) (hk : d'.file? k = some content) :
    k = l ∨ d.file? k = some content := by
  obtain ⟨m, hm, hfile⟩ := h.exists_file?
  by_cases hkl : k = l
  · exact Or.inl hkl
  · right
    rw [hfile, Function.update_of_ne hkl] at hk
    by_cases hkm : k = m
    · rw [hkm, Function.update_self] at hk
      cases hk
    · rwa [Function.update_of_ne hkm] at hk

end Disk.Replaced

/-- **A replacement** that succeeds, where the directory of the target is there. -/
theorem replaceFile_leaves {d d' : Disk} {target : Path} {chunks : List ByteArray}
    {before : List Char} {name : String} {directory : Location}
    (h : (replaceFile target chunks none).run.Leaves d (.ok ()) d')
    (hends : target.EndsIn before name.toList) (hfollow : d.follow before = .ok directory) :
    IsShort target ∧ d.LeadsTo target (directory ++ [name]) ∧
      Replaced d d' (directory ++ [name]) (joinChunks chunks) := by
  obtain ⟨w, d₁, hcreate, h⟩ := Action.leaves_ok_bind_iff.mp h
  obtain ⟨r, d₂, hwrite, h⟩ := leaves_bind_iff.mp h
  cases r with
  | error e =>
    obtain ⟨u, d₃, -, h⟩ := leaves_bind_iff.mp h
    cases (leaves_pure_iff.mp h).1
  | ok u =>
    obtain ⟨w', d₃, hwrites, hrest⟩ := Action.leaves_ok_bind_iff.mp hwrite
    obtain ⟨-, rfl⟩ := Action.leaves_ok_pure_iff.mp hrest
    obtain ⟨d₁', -, hcreated, htarget, htemporary, hzero⟩ := AtomicWriter.create_cases hcreate
    have hempty : w.written = ByteArray.empty.size := by rw [hzero, ByteArray.size_empty]
    obtain ⟨hnul, hshort⟩ := AtomicWriter.spot_of_commit_leaves h
    rw [htarget] at hnul hshort
    have hl := leadsTo_of_temporary hends hfollow hnul (create_eq_ok hcreated).2.1
    obtain ⟨hholds, hcreated⟩ := AtomicWriter.create_leaves hcreate hl hshort
    obtain ⟨hholds', hwritten⟩ := AtomicWriter.foldlM_write_leaves hwrites hholds hempty
    have hmade := hcreated.trans hwritten
    have htemp : IsTemporaryFor w.handle.location (directory ++ [name]) := by
      refine isTemporaryFor_of_leadsTo hl ?_
      rw [← htemporary]
      exact hmade.sameTree.leadsTo_iff.mp hholds'.leadsTo
    have hl' : d₂.LeadsTo w.target (directory ++ [name]) := by
      rw [htarget]
      exact hmade.sameTree.leadsTo_iff.mpr hl
    obtain ⟨d₃, hgone, hput⟩ := AtomicWriter.commit_leaves h hholds' hl' htemp.ne
    have hmoved := hmade.trans hgone
    refine ⟨hshort, hl, hmoved.sameTree.trans hput.sameTree, _, htemp, ?_⟩
    rw [hput.file?_eq_some, hmoved.file?_eq_none]
    rfl

/-- A replacement that succeeds had a place for its temporary file. -/
theorem exists_leadsTo_temporary {d d' : Disk} {target : Path} {chunks : List ByteArray} {l : Location}
    (h : (replaceFile target chunks none).run.Leaves d (.ok ()) d') (hl : d.LeadsTo target l)
    (hshort : IsShort target) : ∃ m, d.LeadsTo target.temporary m := by
  obtain ⟨w, d₁, hcreate, -⟩ := Action.leaves_ok_bind_iff.mp h
  obtain ⟨hcreated, -⟩ := AtomicWriter.create_of_leadsTo hcreate hl hshort
  exact ⟨_, (create_eq_ok hcreated).2.1⟩

end Ensemble
