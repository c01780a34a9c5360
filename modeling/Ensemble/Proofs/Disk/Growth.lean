import Ensemble.Proofs.Disk.Ways

/-!
# Disks that gain directories

To write a file makes the directories above it, where they are missing, and no directory is ever
removed. So the directories of a disk only grow (`Disk.Grows`), and a path that leads somewhere goes on
leading there (`Grows.leadsTo`). A path that leads nowhere yet may come to lead to a place
(`Disk.MayLeadTo`); paths for which that is excluded are apart (`Disk.IsApart`).
-/

namespace Ensemble.Disk

/-- A disk has the directories of another one, and maybe more. -/
structure Grows (d d' : Disk) : Prop where
  here_eq : d'.here = d.here
  directory : ∀ l, d.node? l = some .directory → d'.node? l = some .directory

variable {d d' d'' : Disk} {p q : Path} {l m : Location}

theorem SameTree.grows (h : SameTree d d') : Grows d d' :=
  ⟨h.here_eq, fun l => (h.directory_iff l).mpr⟩

/-! ### Paths on a larger disk -/

namespace Grows

theorem refl (d : Disk) : Grows d d := ⟨rfl, fun _ => id⟩

theorem trans (h : Grows d d') (h' : Grows d' d'') : Grows d d'' :=
  ⟨h'.here_eq.trans h.here_eq, fun l hl => h'.directory l (h.directory l hl)⟩

theorem enter (h : Grows d d') {s : List Char} (hm : d.enter l s = .ok m) : d'.enter l s = .ok m := by
  by_cases hhere : s = ['.']
  · rwa [hhere, enter_here] at hm ⊢
  · by_cases hup : s = ['.', '.']
    · rwa [hup, enter_up] at hm ⊢
    · rw [enter_eq_ok_iff hhere hup] at hm ⊢
      exact ⟨hm.1, hm.2.1, h.directory m hm.2.2⟩

theorem foldlM_enter (h : Grows d d') {ss : List (List Char)} (hm : ss.foldlM d.enter l = .ok m) :
    ss.foldlM d'.enter l = .ok m := by
  induction ss generalizing l with
  | nil => exact hm
  | cons s ss ih =>
    rw [List.foldlM_cons, Except.bind_eq_ok_iff] at hm ⊢
    obtain ⟨k, hk, hm⟩ := hm
    exact ⟨k, h.enter hk, ih hm⟩

theorem follow (h : Grows d d') {cs : List Char} (hm : d.follow cs = .ok m) :
    d'.follow cs = .ok m := by
  unfold Disk.follow at hm ⊢
  rw [h.here_eq]
  exact h.foldlM_enter hm

theorem leadsTo (h : Grows d d') (hp : d.LeadsTo p l) : d'.LeadsTo p l := by
  obtain ⟨hnul, before, name, directory, hends, hfollow, hl⟩ := hp
  exact ⟨hnul, before, name, directory, hends, h.follow hfollow, hl⟩

end Grows

/-! ### Directories that are made -/

/-- A directory is made where nothing was. -/
theorem makeDirectory_eq_ok (h : d.makeDirectory p = .ok d') :
    Grows d d' ∧ d'.file? = d.file? := by
  obtain ⟨⟨directory, last, slash⟩, -, h⟩ := Except.bind_eq_ok_iff.mp h
  cases last with
  | itself => cases h
  | up => cases h
  | name name =>
    obtain ⟨n, hchild, h⟩ := Except.bind_eq_ok_iff.mp h
    obtain ⟨-, rfl⟩ := child_eq_ok_iff.mp hchild
    cases hnode : d.node? (directory ++ [name]) with
    | some n =>
      rw [hnode] at h
      cases h
    | none =>
      rw [hnode] at h
      obtain rfl := Except.ok.inj h
      have hset := @node?_set d (directory ++ [name]) (by simp) .directory
      constructor
      · refine ⟨rfl, fun l hl => ?_⟩
        rw [hset]
        split
        · rfl
        · exact hl
      · funext l
        unfold file?
        rw [hset]
        by_cases hl : l = directory ++ [name]
        · rw [if_pos hl, hl, hnode]
        · rw [if_neg hl]

/-- **Making directories** changes no file. -/
theorem MakesWay.grows {ps : List Path} (h : MakesWay ps d d') : Grows d d' ∧ d'.file? = d.file? := by
  induction h with
  | refl => exact ⟨.refl d, rfl⟩
  | tail _ hmake ih =>
    obtain ⟨p, -, hmake⟩ := hmake
    obtain ⟨hgrows, hfile⟩ := makeDirectory_eq_ok hmake
    exact ⟨ih.1.trans hgrows, hfile.trans ih.2⟩

/-! ### Paths that are apart -/

/-- The path ends in a name, and leads to the place or comes to do so once missing directories are
made. -/
def MayLeadTo (d : Disk) (p : Path) (l : Location) : Prop :=
  ∃ d' before name directory, Grows d d' ∧ p.EndsIn before name ∧ d'.follow before = .ok directory ∧
    l = directory ++ [String.ofList name]

/-- A path does not come to lead where another one leads. -/
def IsApart (d : Disk) (p q : Path) : Prop := ∀ l, d.LeadsTo q l → ¬ d.MayLeadTo p l

theorem LeadsTo.mayLeadTo (h : d.LeadsTo p l) : d.MayLeadTo p l := by
  obtain ⟨before, name, directory, hends, hfollow, hl, -⟩ := h.exists_name
  exact ⟨d, before, name, directory, .refl d, hends, hfollow, hl⟩

theorem MayLeadTo.of_grows (h : d'.MayLeadTo p l) (hgrows : Grows d d') : d.MayLeadTo p l := by
  obtain ⟨d₁, before, name, directory, hgrows₁, h⟩ := h
  exact ⟨d₁, before, name, directory, hgrows.trans hgrows₁, h⟩

theorem MayLeadTo.getLast?_eq (h : d.MayLeadTo p l) {before name : List Char}
    (hp : p.EndsIn before name) : l.getLast? = some (String.ofList name) := by
  obtain ⟨-, before', name', directory, -, hends, -, rfl⟩ := h
  obtain rfl : name' = name := Option.some.inj (hends.fileName?_eq.symm.trans hp.fileName?_eq)
  exact List.getLast?_concat

/-- Paths that end in different names are apart. -/
theorem isApart_of_fileName?_ne (h : p.fileName? ≠ q.fileName?) : d.IsApart p q := by
  intro l hq hp
  obtain ⟨before, name, directory, hends, -, rfl, -⟩ := hq.exists_name
  obtain ⟨-, before', name', directory', -, hends', -, heq⟩ := hp
  rw [hends.fileName?_eq, hends'.fileName?_eq] at h
  have hname := List.singleton_inj.mp (List.append_inj' heq rfl).2
  exact h (congrArg some (String.ofList_injective hname).symm)

end Ensemble.Disk
