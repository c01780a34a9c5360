import Ensemble.Proofs.Disk.Holdings
import Ensemble.Proofs.Script.Atomicity

/-!
# What scripts touch

A script is known by the paths it touches: only the places change that these lead to
(`Disk.ChangedBy`), so a path that leads elsewhere holds what it held (`ChangedBy.heldBy_eq`). To
replace a file touches its path and that of its temporary file (`replaceFile_changedBy`), and to remove
it touches its path (`removeFile_changedBy`). What is held at these paths afterwards is told along.
-/

namespace Ensemble

open Script Disk

/-- Only the places are changed that some paths lead to. -/
def Disk.ChangedBy (d d' : Disk) (ps : List Path) : Prop :=
  ChangedOn d d' fun l => ∃ p ∈ ps, d.LeadsTo p l

variable {F : FileOp → Prop} {d d' d'' : Disk} {ps qs : List Path} {p q : Path} {l m : Location}

/-! ### Footprints -/

namespace Disk.ChangedBy

theorem refl (d : Disk) (ps : List Path) : d.ChangedBy d ps := ChangedOn.refl d _

theorem mono (h : d.ChangedBy d' ps) (hsub : ps ⊆ qs) : d.ChangedBy d' qs :=
  ChangedOn.mono h fun _ ⟨p, hp, hl⟩ => ⟨p, hsub hp, hl⟩

theorem trans (h : d.ChangedBy d' ps) (h' : d'.ChangedBy d'' qs) : d.ChangedBy d'' (ps ++ qs) := by
  refine ChangedOn.trans (h.mono (List.subset_append_left ps qs)) (ChangedOn.mono h' ?_)
  rintro l ⟨p, hp, hl⟩
  exact ⟨p, List.mem_append_right ps hp, h.sameTree.leadsTo_iff.mp hl⟩

/-- A place that none of the paths leads to holds what it held. -/
theorem heldAt_eq (h : d.ChangedBy d' ps) (hl : ∀ p ∈ ps, ¬ d.LeadsTo p l) :
    d'.heldAt l = d.heldAt l :=
  h.sameTree.heldAt_eq (h.file?_eq l fun ⟨p, hp, hleads⟩ => hl p hp hleads)

/-- A path that leads where none of the paths does holds what it held. -/
theorem heldBy_eq (h : d.ChangedBy d' ps) (hq : ∀ p ∈ ps, ∀ l, d.LeadsTo q l → ¬ d.LeadsTo p l) :
    d'.heldBy q = d.heldBy q :=
  h.sameTree.heldBy_eq fun l hl => h.heldAt_eq fun p hp => hq p hp l hl

end Disk.ChangedBy

/-- Only the path of a temporary file is touched. -/
theorem Disk.Scratched.changedBy (h : Scratched d d' l) (hl : IsTemporaryFor m l)
    (hm : d.LeadsTo p.temporary m) : d.ChangedBy d' [p.temporary] := by
  refine ChangedOn.mono h fun k hk => ⟨p.temporary, by simp, ?_⟩
  rwa [hk.unique hl]

/-- A path and its temporary file lead to two places. -/
theorem Disk.LeadsTo.not_leadsTo_temporary (h : d.LeadsTo p l) : ¬ d.LeadsTo p.temporary l :=
  fun hl => (isTemporaryFor_of_leadsTo h hl).ne rfl

/-- What a path holds is not touched by its temporary file. -/
theorem Disk.ChangedBy.heldBy_eq_of_temporary (h : d.ChangedBy d' [p.temporary]) :
    d'.heldBy p = d.heldBy p := by
  refine h.heldBy_eq fun q hq l hl => ?_
  rw [List.mem_singleton.mp hq]
  exact hl.not_leadsTo_temporary

namespace AtomicWriter.HasReplaced

variable {w : AtomicWriter} {content : ByteArray}

theorem changedBy (h : w.HasReplaced l d d' content) (hl : IsTemporaryFor m l)
    (hm : d.LeadsTo w.target.temporary m) : d.ChangedBy d' [w.target, w.target.temporary] := by
  refine ChangedOn.mono h.renewed.toChangedOn ?_
  rintro k (rfl | hk)
  · exact ⟨w.target, by simp, h.leadsTo⟩
  · exact ⟨w.target.temporary, by simp, hk.unique hl ▸ hm⟩

theorem heldBy_target (h : w.HasReplaced l d d' content) :
    d'.heldBy w.target = some (.file content) := by
  rw [(h.renewed.sameTree.leadsTo_iff.mpr h.leadsTo).heldBy_eq h.isShort]
  exact heldAt_eq_file_iff.mpr h.renewed.file?_self

end AtomicWriter.HasReplaced

/-! ### Replacing and removing -/

/-- **Replacing a file**, once directories are made above it. -/
theorem replaceFile_changedBy (target : Path) (chunks : List ByteArray) :
    (replaceFile target chunks none).run.Guards F d (fun _ => True) fun r d' =>
      ∃ d₁, MakesWay target.above d d₁ ∧ match r with
        | .ok _ => d₁.ChangedBy d' [target, target.temporary] ∧
            d'.heldBy target = some (.file (joinChunks chunks))
        | .error _ => d₁.ChangedBy d' [target.temporary] := by
  rw [replaceFile_eq]
  refine Action.guards_bind ((AtomicWriter.create_guards target).mono (fun _ _ => trivial)
    fun _ _ => id) ?_ fun e d' hway => ⟨trivial, d', hway, .refl _ _⟩
  rintro w d' ⟨rfl, htemporary, hzero, hshort, d₁, l, hway, hw⟩
  have hm := hw.scratched.sameTree.leadsTo_iff.mp (htemporary ▸ hw.leadsTo)
  refine (AtomicWriter.writeThen_commit_guards hw (htemporary ▸ hshort) htemporary hzero chunks).mono
    (fun _ _ => trivial) fun r d₂ hr => ⟨d₁, hway, ?_⟩
  cases r with
  | ok u => exact ⟨hr.changedBy hw.isTemporaryFor hm, hr.heldBy_target⟩
  | error e => exact hr.scratched.changedBy hw.isTemporaryFor hm

/-- **Removing a file** leaves nothing at its path, unless that fails or a directory is there. -/
theorem removeFile_changedBy (p : Path) :
    (removeFile p).Guards F d (fun _ => True) fun _ d' => d.ChangedBy d' [p] ∧
      (¬ F (.remove p) → d.heldBy p ≠ some .directory → d'.heldBy p = none) := by
  refine Guards.bind (R := fun _ d' => d.ChangedBy d' [p] ∧
    (¬ F (.remove p) → d.heldBy p ≠ some .directory → d'.heldBy p = none))
    (guards_perform trivial fun r d' h => ⟨trivial, ?_⟩) fun r d' hr => ?_
  · rcases h.remove with ⟨l, hl, hchanged⟩ | ⟨rfl, hleft⟩
    · refine ⟨hchanged.changedOn ⟨p, by simp, hl⟩, fun _ _ => ?_⟩
      by_cases hshort : IsShort p
      · rw [(hchanged.sameTree.leadsTo_iff.mpr hl).heldBy_eq hshort, heldAt_eq_none_iff,
          hchanged.node?_eq, if_pos rfl]
      · exact heldBy_eq_none_of_not_isShort hshort
    · refine ⟨.refl _ _, fun hF hnot => ?_⟩
      refine Option.eq_none_iff_forall_ne_some.mpr fun x hx => ?_
      cases x with
      | directory => exact hnot hx
      | file bytes =>
        obtain ⟨l, n, hfind, hn⟩ := heldBy_eq_some_iff.mp hx
        cases n with
        | directory => cases hn
        | file id content =>
          obtain ⟨hleads, hshort, hnode⟩ := exists_leadsTo_of_find hfind
          have hnone := hleft.resolve_left hF l hleads hshort
          rw [file?_eq_some_iff.mpr ⟨id, hnode⟩] at hnone
          cases hnone
  · split
    · exact guards_pure trivial hr
    · exact guards_pure trivial hr
    · exact guards_notify trivial hr

end Ensemble
