import Ensemble.Proofs.Disk.Files
import Mathlib.Logic.Relation

/-!
# Directories made on the way

To make the directories of a path is to make some of them, one after the other
(`makesWay_makeDirectories`). Above a file nothing is left to make once its directory is there
(`MakesWay.eq_of_follow`).
-/

namespace Ensemble

/-- The directories that are made before a file is created, if they are missing: all that the path of
the file goes through. -/
def Path.above (p : Path) : List Path :=
  match p.parent? with
  | some q => if q.text.isEmpty then [] else q.ancestors
  | none => []

namespace Disk

/-- Directories were made at some of the paths, one after the other. -/
def MakesWay (ps : List Path) : Disk → Disk → Prop :=
  Relation.ReflTransGen fun d d' => ∃ p ∈ ps, d.makeDirectory p = .ok d'

variable {d d' : Disk}

/-! ### Making directories -/

theorem MakesWay.refl (ps : List Path) (d : Disk) : MakesWay ps d d := Relation.ReflTransGen.refl

theorem MakesWay.trans {ps : List Path} {d'' : Disk} (h : MakesWay ps d d')
    (h' : MakesWay ps d' d'') : MakesWay ps d d'' :=
  Relation.ReflTransGen.trans h h'

theorem MakesWay.mono {ps qs : List Path} (h : MakesWay ps d d') (hsub : ps ⊆ qs) :
    MakesWay qs d d' :=
  Relation.ReflTransGen.mono (fun _ _ ⟨p, hp, hmake⟩ => ⟨p, hsub hp, hmake⟩) _ _ h

theorem makesWay_makeFirst (d : Disk) (ps : List Path) : MakesWay ps d (d.makeFirst ps).2 := by
  induction ps with
  | nil => exact .refl _ d
  | cons p ps ih =>
    have hone : ∀ {d₁ d₂ : Disk}, d₁.makeDirectory p = .ok d₂ → MakesWay (p :: ps) d₁ d₂ :=
      fun hmake => Relation.ReflTransGen.single ⟨p, by simp, hmake⟩
    have hothers := ih.mono (List.subset_cons_self p ps)
    unfold makeFirst
    split
    · exact .refl _ d
    · cases hmake : d.makeDirectory p with
      | ok d₁ => exact hone hmake
      | error e =>
        cases e with
        | notFound =>
          simp only
          cases hfirst : d.makeFirst ps with
          | mk r d₁ =>
            rw [hfirst] at hothers
            cases r with
            | error e => exact hothers
            | ok u =>
              simp only
              cases hagain : d₁.makeDirectory p with
              | ok d₂ => exact hothers.trans (hone hagain)
              | error e => exact hothers
        | _ => exact .refl _ d

/-- **Making directories** makes some of those on the way. -/
theorem makesWay_makeDirectories (d : Disk) (p : Path) :
    MakesWay p.ancestors d (d.makeDirectories p).2 :=
  makesWay_makeFirst d p.ancestors

/-! ### Directories that are there -/

/-- A directory that a path leads to is not made again. -/
theorem makeDirectory_ne_ok_of_follow {p : Path} {l : Location}
    (h : d.follow p.text.toList = .ok l) : d.makeDirectory p ≠ .ok d' := by
  intro hmake
  obtain ⟨s, hspot, -⟩ := Except.bind_eq_ok_iff.mp hmake
  obtain ⟨hnul, hshort, hwalk⟩ := spot_eq_ok_iff.mp hspot
  have hne := (ne_of_walk_eq_ok hwalk).2
  rw [makeDirectory_of_find (find_eq_directory_iff.mpr ⟨hnul, hshort, hne, h⟩)] at hmake
  cases hmake

/-- Where a path leads to a directory, so does its parent. -/
theorem exists_follow_parent {p q : Path} {l : Location} (h : d.follow p.text.toList = .ok l)
    (hparent : p.parent? = some q) : ∃ m, d.follow q.text.toList = .ok m := by
  obtain ⟨⟨ss, hss⟩, hhead⟩ := Path.parent?_eq_some hparent
  unfold follow at h ⊢
  rw [← hss, List.foldlM_append] at h
  obtain ⟨m, hm, -⟩ := Except.bind_eq_ok_iff.mp h
  refine ⟨m, ?_⟩
  simp only [hhead]
  exact hm

theorem exists_follow_of_mem_ancestors {p q : Path} {l : Location}
    (h : d.follow p.text.toList = .ok l) (hq : q ∈ p.ancestors) :
    ∃ m, d.follow q.text.toList = .ok m := by
  unfold Path.ancestors at hq
  generalize p.text.length + 1 = n at hq
  induction n generalizing p l with
  | zero => cases hq
  | succ n ih =>
    rw [Path.ancestors.go] at hq
    rcases List.mem_cons.mp hq with rfl | hq
    · exact ⟨l, h⟩
    · cases hparent : p.parent? with
      | none =>
        rw [hparent] at hq
        cases hq
      | some r =>
        rw [hparent] at hq
        obtain ⟨m, hm⟩ := exists_follow_parent h hparent
        exact ih hm hq

/-- **Nothing is left to make** above a file the directory of which is there. -/
theorem MakesWay.eq_of_follow {p : Path} {before name : List Char} {directory : Location}
    (h : MakesWay p.above d d') (hends : p.EndsIn before name)
    (hfollow : d.follow before = .ok directory) : d' = d := by
  induction h with
  | refl => rfl
  | tail hway hmake ih =>
    rw [ih] at hmake
    obtain ⟨q, hq, hmake⟩ := hmake
    obtain ⟨r, hparent, -, hmoves⟩ := hends.exists_parent
    have hhead : r.text.toList.head? = some '/' ↔ before.head? = some '/' := by
      rw [(Path.parent?_eq_some hparent).2]
      exact Decidable.not_iff_not.mp (Path.isRelative_iff.symm.trans hends.isRelative_iff)
    have hr : d.follow r.text.toList = .ok directory := by
      rw [← hfollow]
      unfold follow
      simp only [hmoves, hhead]
    unfold Path.above at hq
    rw [hparent] at hq
    simp only at hq
    split at hq
    · cases hq
    · obtain ⟨m, hm⟩ := exists_follow_of_mem_ancestors hr hq
      exact absurd hmake (makeDirectory_ne_ok_of_follow hm)


/-! ### Files of one directory -/

/-- A file of another name lies in the same directory. -/
theorem exists_withFileName_follow {p : Path} {before name other : List Char}
    (h : p.EndsIn before name) (hother : Path.IsName other) :
    ∃ before', (p.withFileName other).EndsIn before' other ∧
      ∀ d : Disk, d.follow before' = d.follow before := by
  obtain ⟨before', hends, hmoves, hhead⟩ := h.exists_withFileName_moves hother
  refine ⟨before', hends, fun d => ?_⟩
  unfold follow
  simp only [hmoves, hhead]

end Disk

end Ensemble
