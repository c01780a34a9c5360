import Ensemble.Proofs.Disk.Growth

/-!
# What places and paths hold

A place holds a directory, a file with its bytes, or nothing (`Disk.heldAt`), and so does a path
(`Disk.heldBy`). On disks with the same directories a path holds the same if the place does that it
leads to (`SameTree.heldBy_eq`).

Before a file is written the directories above it are made. What that changes is gathered in
`Disk.Prepared`: a place that held nothing may hold a directory, if a path above the file leads there;
and the path of the file itself holds what it held, unless it goes up again from a directory that was
missing (`MakesWay.prepared`).
-/

namespace Ensemble

/-- What a place holds that is not empty. -/
inductive Holding
  | directory
  | file (bytes : ByteArray)

def Node.holding : Node → Holding
  | .directory => .directory
  | .file _ content => .file content

namespace Disk

/-- What a place holds. -/
def heldAt (d : Disk) (l : Location) : Option Holding := (d.node? l).map Node.holding

/-- What is found at a path. -/
def heldBy (d : Disk) (p : Path) : Option Holding :=
  match d.find p with
  | .ok (_, n) => some n.holding
  | .error _ => none

/-- Every node is in a directory. -/
def IsTree (d : Disk) : Prop :=
  ∀ l name, (d.node? (l ++ [name])).isSome → d.node? l = some .directory

variable {d d' d₁ : Disk} {p : Path} {l : Location}

/-! ### Places -/

theorem heldAt_eq_none_iff : d.heldAt l = none ↔ d.node? l = none := Option.map_eq_none_iff

theorem heldAt_eq_directory_iff : d.heldAt l = some .directory ↔ d.node? l = some .directory := by
  unfold heldAt
  cases d.node? l with
  | none => simp
  | some n => cases n <;> simp [Node.holding]

theorem heldAt_eq_file_iff {bytes : ByteArray} :
    d.heldAt l = some (.file bytes) ↔ d.file? l = some bytes := by
  rw [file?_eq_some_iff, heldAt]
  cases d.node? l with
  | none => simp
  | some n => cases n <;> simp [Node.holding]

/-- A place holds the same if it is a directory on both disks or on none, and a file with the same
bytes. -/
theorem heldAt_eq (hdirectory : d'.node? l = some .directory ↔ d.node? l = some .directory)
    (hfile : d'.file? l = d.file? l) : d'.heldAt l = d.heldAt l := by
  refine Option.ext fun x => ?_
  cases x with
  | directory => rw [heldAt_eq_directory_iff, heldAt_eq_directory_iff, hdirectory]
  | file bytes => rw [heldAt_eq_file_iff, heldAt_eq_file_iff, hfile]

theorem SameTree.heldAt_eq (h : SameTree d d') (hfile : d'.file? l = d.file? l) :
    d'.heldAt l = d.heldAt l :=
  Disk.heldAt_eq (h.directory_iff l) hfile

/-! ### Paths -/

theorem heldBy_eq_some_iff {x : Holding} :
    d.heldBy p = some x ↔ ∃ l n, d.find p = .ok (l, n) ∧ n.holding = x := by
  unfold heldBy
  cases d.find p with
  | error e => simp
  | ok found => simp [Prod.ext_iff]

/-- A path that ends in a name leads to what it is resolved to. -/
theorem leadsTo_of_resolve {before name : List Char} {s : Spot} {n : Node}
    (hends : p.EndsIn before name) (hwalk : d.walk p = .ok s) (hresolve : d.resolve s = .ok (l, n)) :
    d.LeadsTo p l ∧ d.node? l = some n := by
  have hnul := (ne_of_walk_eq_ok hwalk).1
  rw [walk_eq hends hnul] at hwalk
  obtain ⟨directory, hfollow, rfl⟩ := Except.map_eq_ok_iff.mp hwalk
  obtain ⟨n', hchild, -⟩ := Except.bind_eq_ok_iff.mp hresolve
  have hsize := (child_eq_ok_iff.mp hchild).1
  obtain ⟨rfl, hnode⟩ := (resolve_name_eq_ok_iff hsize).mp hresolve
  exact ⟨⟨hnul, before, name, directory, hends, hfollow, rfl, hsize⟩, hnode⟩

/-- What a path holds that ends in a name is what its place holds. -/
theorem heldBy_eq_some_iff_of_endsIn {before name : List Char} (hends : p.EndsIn before name)
    {x : Holding} :
    d.heldBy p = some x ↔ IsShort p ∧ ∃ l, d.LeadsTo p l ∧ d.heldAt l = some x := by
  rw [heldBy_eq_some_iff]
  constructor
  · rintro ⟨l, n, hfind, rfl⟩
    obtain ⟨s, hspot, hresolve⟩ := Except.bind_eq_ok_iff.mp hfind
    obtain ⟨-, hshort, hwalk⟩ := spot_eq_ok_iff.mp hspot
    obtain ⟨hleads, hnode⟩ := leadsTo_of_resolve hends hwalk hresolve
    refine ⟨hshort, l, hleads, ?_⟩
    rw [heldAt, hnode]
    rfl
  · rintro ⟨hshort, l, hleads, hheld⟩
    obtain ⟨n, hnode, hn⟩ := Option.map_eq_some_iff.mp hheld
    exact ⟨l, n, (hleads.find_eq_ok_iff hshort).mpr ⟨rfl, hnode⟩, hn⟩

theorem LeadsTo.heldBy_eq (h : d.LeadsTo p l) (hshort : IsShort p) : d.heldBy p = d.heldAt l := by
  obtain ⟨before, name, directory, hends, -⟩ := h.exists_name
  refine Option.ext fun x => ?_
  rw [heldBy_eq_some_iff_of_endsIn hends]
  constructor
  · rintro ⟨-, l', hl', hheld⟩
    rwa [h.unique hl']
  · exact fun hheld => ⟨hshort, l, h, hheld⟩

theorem heldBy_eq_none_of_not_isShort (h : ¬ IsShort p) : d.heldBy p = none := by
  refine Option.eq_none_iff_forall_ne_some.mpr fun x hx => ?_
  obtain ⟨l, n, hfind, -⟩ := heldBy_eq_some_iff.mp hx
  obtain ⟨s, hspot, -⟩ := Except.bind_eq_ok_iff.mp hfind
  exact h (spot_eq_ok_iff.mp hspot).2.1

/-- What a path holds stays, where the directories do and the place that it leads to does. -/
theorem Grows.heldBy_eq_some (h : Grows d d') {x : Holding} (hx : d.heldBy p = some x)
    (hp : ∀ l, d.LeadsTo p l → d.heldAt l = some x → d'.heldAt l = some x) :
    d'.heldBy p = some x := by
  obtain ⟨l, n, hfind, rfl⟩ := heldBy_eq_some_iff.mp hx
  cases n with
  | file id content =>
    obtain ⟨hleads, hshort, hnode⟩ := exists_leadsTo_of_find hfind
    rw [(h.leadsTo hleads).heldBy_eq hshort]
    refine hp l hleads ?_
    rw [heldAt, hnode]
    rfl
  | directory =>
    obtain ⟨hnul, hshort, hne, hfollow⟩ := find_eq_directory_iff.mp hfind
    have hfound := find_eq_directory_iff.mpr ⟨hnul, hshort, hne, h.follow hfollow⟩
    exact heldBy_eq_some_iff.mpr ⟨l, .directory, hfound, rfl⟩

/-- On disks with the same directories a path holds the same if its place does. -/
theorem SameTree.heldBy_eq (h : SameTree d d')
    (hp : ∀ l, d.LeadsTo p l → d'.heldAt l = d.heldAt l) : d'.heldBy p = d.heldBy p := by
  refine Option.ext fun x => ⟨fun hx => ?_, fun hx => ?_⟩
  · refine h.symm.grows.heldBy_eq_some hx fun l hl hheld => ?_
    rw [← hp l (h.leadsTo_iff.mp hl), hheld]
  · refine h.grows.heldBy_eq_some hx fun l hl hheld => ?_
    rw [hp l hl, hheld]

/-! ### Directories on the way -/

/-- Where every step is a name, the way is as long as the steps. -/
theorem eq_of_foldlM_enter {ss : List (List Char)} {m : Location}
    (hss : ∀ s ∈ ss, s ≠ ['.'] ∧ s ≠ ['.', '.']) (h : ss.foldlM d.enter l = .ok m) :
    m = l ++ ss.map String.ofList := by
  induction ss generalizing l with
  | nil => simpa using (Except.ok.inj h).symm
  | cons s ss ih =>
    obtain ⟨k, hk, h⟩ := Except.bind_eq_ok_iff.mp ((List.foldlM_cons ..).symm.trans h)
    obtain ⟨hhere, hup⟩ := hss s (by simp)
    obtain ⟨-, rfl, -⟩ := (enter_eq_ok_iff hhere hup).mp hk
    rw [ih (fun s hs => hss s (by simp [hs])) h]
    simp

/-- Every node above a node is a directory. -/
theorem IsTree.directory_of_append (htree : d.IsTree) {names : List String} (hne : names ≠ [])
    (h : (d.node? (l ++ names)).isSome) : d.node? l = some .directory := by
  induction names using List.reverseRecOn with
  | nil => exact absurd rfl hne
  | append_singleton names name ih =>
    rw [← List.append_assoc] at h
    have hdirectory := htree _ _ h
    cases names with
    | nil => simpa using hdirectory
    | cons x names =>
      refine ih (by simp) ?_
      rw [hdirectory]
      rfl

/-- In a tree the way to a directory is there, if its names are fit for a way at all. -/
theorem IsTree.foldlM_enter (htree : d.IsTree) {ss : List (List Char)} {m : Location}
    (hss : ∀ s ∈ ss, s ≠ ['.'] ∧ s ≠ ['.', '.']) (h : ss.foldlM d₁.enter l = .ok m)
    (hm : d.node? m = some .directory) : ss.foldlM d.enter l = .ok m := by
  induction ss generalizing l with
  | nil => exact h
  | cons s ss ih =>
    obtain ⟨k, hk, h⟩ := Except.bind_eq_ok_iff.mp ((List.foldlM_cons ..).symm.trans h)
    obtain ⟨hhere, hup⟩ := hss s (by simp)
    obtain ⟨hsize, rfl, -⟩ := (enter_eq_ok_iff hhere hup).mp hk
    have hss' : ∀ s ∈ ss, s ≠ ['.'] ∧ s ≠ ['.', '.'] := fun s hs => hss s (by simp [hs])
    refine Except.bind_eq_ok_iff.mpr ⟨_, (enter_eq_ok_iff hhere hup).mpr ⟨hsize, rfl, ?_⟩, ih hss' h⟩
    have hway := eq_of_foldlM_enter hss' h
    cases hnil : ss.map String.ofList with
    | nil => rwa [hway, hnil, List.append_nil] at hm
    | cons x xs =>
      refine htree.directory_of_append (List.cons_ne_nil x xs) ?_
      rw [← hnil, ← hway, hm]
      rfl

/-- A directory is made where its path then leads. -/
theorem exists_follow_of_makeDirectory (h : d.makeDirectory p = .ok d') :
    ∃ k, d'.follow p.text.toList = .ok k ∧ ∀ m, m ≠ k → d'.node? m = d.node? m := by
  have hgrows := (makeDirectory_eq_ok h).1
  obtain ⟨⟨directory, last, slash⟩, hspot, h⟩ := Except.bind_eq_ok_iff.mp h
  obtain ⟨-, -, hwalk⟩ := spot_eq_ok_iff.mp hspot
  cases last with
  | itself => cases h
  | up => cases h
  | name name =>
    obtain ⟨-, -, hfold, step, hstep, rfl, hhere, hup⟩ := walk_name_eq_ok hwalk rfl
    obtain ⟨n, hchild, h⟩ := Except.bind_eq_ok_iff.mp h
    obtain ⟨hsize, rfl⟩ := child_eq_ok_iff.mp hchild
    cases hnode : d.node? (directory ++ [String.ofList step]) with
    | some n =>
      rw [hnode] at h
      cases h
    | none =>
      rw [hnode] at h
      obtain rfl := Except.ok.inj h
      have hset := @node?_set d (directory ++ [String.ofList step]) (by simp) .directory
      refine ⟨directory ++ [String.ofList step], ?_, fun m hm => by rw [hset, if_neg hm]⟩
      rw [follow_eq_foldlM_steps, ← List.dropLast_append_getLast? step hstep, List.foldlM_append]
      refine Except.bind_eq_ok_iff.mpr ⟨directory, hgrows.foldlM_enter hfold, ?_⟩
      have henter := (enter_eq_ok_iff hhere hup).mpr ⟨hsize, rfl, by rw [hset, if_pos rfl]⟩
      exact Except.bind_eq_ok_iff.mpr ⟨_, henter, rfl⟩

namespace MakesWay

variable {ps : List Path}

/-- Directories are made where the paths then lead. -/
theorem node?_eq (h : MakesWay ps d d') (hgrows : Grows d' d₁) {m : Location}
    (hm : ∀ q ∈ ps, d₁.follow q.text.toList ≠ .ok m) : d'.node? m = d.node? m := by
  induction h with
  | refl => rfl
  | tail _ hmake ih =>
    obtain ⟨q, hq, hmake⟩ := hmake
    obtain ⟨k, hfollow, hothers⟩ := exists_follow_of_makeDirectory hmake
    have hmk : m ≠ k := by
      rintro rfl
      exact hm q hq (hgrows.follow hfollow)
    rw [hothers m hmk, ih ((makeDirectory_eq_ok hmake).1.trans hgrows)]

/-- A place that is not empty is left alone. -/
theorem heldAt_of_some (h : MakesWay ps d d') {x : Holding} (hx : d.heldAt l = some x) :
    d'.heldAt l = some x := by
  obtain ⟨hgrows, hfile⟩ := h.grows
  cases x with
  | directory => exact heldAt_eq_directory_iff.mpr (hgrows.directory l (heldAt_eq_directory_iff.mp hx))
  | file bytes => rwa [heldAt_eq_file_iff, hfile, ← heldAt_eq_file_iff]

/-- Whatever a path holds stays. -/
theorem heldBy_of_some (h : MakesWay ps d d') {x : Holding} (hx : d.heldBy p = some x) :
    d'.heldBy p = some x :=
  h.grows.1.heldBy_eq_some hx fun _ _ => h.heldAt_of_some

/-- A place that changes was empty, and comes to hold a directory. -/
theorem heldAt_cases (h : MakesWay ps d d') (l : Location) : d'.heldAt l = d.heldAt l ∨
    d.heldAt l = none ∧ d'.heldAt l = some .directory ∧
      ∃ q ∈ ps, d'.follow q.text.toList = .ok l := by
  cases hold : d.heldAt l with
  | some x => exact Or.inl (h.heldAt_of_some hold)
  | none =>
    cases hnew : d'.heldAt l with
    | none => exact Or.inl rfl
    | some x =>
      refine Or.inr ⟨rfl, ?_, ?_⟩
      · cases x with
        | directory => rfl
        | file bytes =>
          rw [heldAt_eq_file_iff, h.grows.2, ← heldAt_eq_file_iff, hold] at hnew
          cases hnew
      · by_contra hnone
        have hsame := h.node?_eq (.refl d') (m := l) fun q hq hfollow => hnone ⟨q, hq, hfollow⟩
        rw [heldAt, hsame, ← heldAt, hold] at hnew
        cases hnew

end MakesWay

end Disk

/-! ### Above a file -/

theorem Path.moves_prefix_of_mem_ancestors {p q : Path} (hq : q ∈ p.ancestors) :
    Path.moves q.text.toList <+: Path.moves p.text.toList ∧
      (q.text.toList.head? = some '/' ↔ p.text.toList.head? = some '/') := by
  unfold Path.ancestors at hq
  generalize p.text.length + 1 = n at hq
  induction n generalizing p with
  | zero => cases hq
  | succ n ih =>
    rw [Path.ancestors.go] at hq
    rcases List.mem_cons.mp hq with rfl | hq
    · exact ⟨List.prefix_rfl, Iff.rfl⟩
    · cases hparent : p.parent? with
      | none =>
        rw [hparent] at hq
        cases hq
      | some r =>
        rw [hparent] at hq
        obtain ⟨hmoves, hhead⟩ := Path.parent?_eq_some hparent
        obtain ⟨hmoves', hhead'⟩ := ih hq
        exact ⟨hmoves'.trans hmoves, hhead'.trans hhead⟩

/-- A path makes some of the moves of another one, from where that starts, but not all. -/
structure Path.IsAbove (q p : Path) : Prop where
  isPrefix : Path.moves q.text.toList <+: Path.moves p.text.toList
  length_lt : (Path.moves q.text.toList).length < (Path.moves p.text.toList).length
  head?_iff : q.text.toList.head? = some '/' ↔ p.text.toList.head? = some '/'

/-- The paths above a path are above it. -/
theorem Path.isAbove_of_mem_above {p q : Path} (hq : q ∈ p.above) : q.IsAbove p := by
  unfold Path.above at hq
  cases hparent : p.parent? with
  | none =>
    rw [hparent] at hq
    cases hq
  | some r =>
    cases hempty : r.text.isEmpty with
    | true =>
      rw [hparent] at hq
      simp [hempty] at hq
    | false =>
      rw [hparent] at hq
      simp only [hempty, Bool.false_eq_true, if_false] at hq
      obtain ⟨hbegins, hhead⟩ := Path.moves_prefix_of_mem_ancestors hq
      obtain ⟨s, hmoves⟩ := Path.exists_moves_eq_concat hparent hempty
      refine ⟨?_, ?_, hhead.trans (Path.parent?_eq_some hparent).2⟩
      · rw [hmoves]
        exact hbegins.trans (List.prefix_append _ _)
      · rw [hmoves, List.length_append]
        exact Nat.lt_succ_of_le hbegins.length_le

/-- What is above a path is above every path of the same directory. -/
theorem Path.IsAbove.of_endsIn {p p' q : Path} {before name name' : List Char} (h : q.IsAbove p)
    (hp : p.EndsIn before name) (hp' : p'.EndsIn before name') : q.IsAbove p' := by
  obtain ⟨hbegins, hlength, hhead⟩ := h
  rw [hp.moves_eq] at hbegins hlength
  have hbefore : Path.moves q.text.toList <+: Path.moves before := by
    rcases List.prefix_concat_iff.mp hbegins with heq | hbegins
    · rw [heq] at hlength
      exact absurd hlength (Nat.lt_irrefl _)
    · exact hbegins
  refine ⟨?_, ?_, hhead.trans ?_⟩
  · rw [hp'.moves_eq]
    exact hbefore.trans (List.prefix_append _ _)
  · rw [hp'.moves_eq, List.length_append]
    exact Nat.lt_succ_of_le hbefore.length_le
  · have hrelative := isRelative_iff.symm.trans hp.isRelative_iff
    have hrelative' := isRelative_iff.symm.trans hp'.isRelative_iff
    exact Decidable.not_iff_not.mp (hrelative.trans hrelative'.symm)

theorem Path.ne_of_mem_moves {cs : List Char} (hup : ['.', '.'] ∉ Path.moves cs) :
    ∀ s ∈ Path.moves cs, s ≠ ['.'] ∧ s ≠ ['.', '.'] := by
  intro s hs
  constructor
  · rintro rfl
    simp [moves, isFiller] at hs
  · rintro rfl
    exact hup hs

namespace Disk

variable {d d₁ : Disk} {p : Path} {l : Location}

/-- A path that never goes up leads to its own moves. -/
theorem eq_append_moves {cs : List Char} (hup : ['.', '.'] ∉ Path.moves cs) (h : d.follow cs = .ok l) :
    l = (if cs.head? = some '/' then [] else d.here) ++ (Path.moves cs).map String.ofList :=
  eq_of_foldlM_enter (Path.ne_of_mem_moves hup) h

namespace MakesWay

variable {ps : List Path} (h : MakesWay ps d d₁) (habove : ∀ q ∈ ps, q.IsAbove p)
include h habove

/-- Above a path nothing is made where the path itself leads. -/
theorem node?_eq_of_follow (hup : ['.', '.'] ∉ Path.moves p.text.toList)
    (hfollow : d₁.follow p.text.toList = .ok l) : d₁.node? l = d.node? l := by
  refine h.node?_eq (.refl d₁) fun q hq hfollow' => ?_
  obtain ⟨hbegins, hlength, hhead⟩ := habove q hq
  have hl := eq_append_moves hup hfollow
  have hl' := eq_append_moves (fun hmem => hup (hbegins.subset hmem)) hfollow'
  simp only [hhead] at hl'
  have hmoves := congrArg List.length (List.append_cancel_left (hl'.symm.trans hl))
  rw [List.length_map, List.length_map] at hmoves
  omega

variable (htree : d.IsTree)
include htree

/-- A path that never goes up leads to no new directory. -/
theorem follow_of_follow (hup : ['.', '.'] ∉ Path.moves p.text.toList)
    (hfollow : d₁.follow p.text.toList = .ok l) : d.follow p.text.toList = .ok l := by
  have hhere := h.grows.1.here_eq
  rcases List.eq_nil_or_concat (Path.moves p.text.toList) with hnil | ⟨ss, s, hmoves⟩
  · unfold follow at hfollow ⊢
    rw [hnil] at hfollow ⊢
    rwa [hhere] at hfollow
  · have hdirectory : d.node? l = some .directory := by
      rw [← h.node?_eq_of_follow habove hup hfollow]
      obtain ⟨hhere, hup⟩ := Path.ne_of_mem_moves hup s (by simp [hmoves])
      rw [follow, hmoves, List.concat_eq_append, List.foldlM_append] at hfollow
      obtain ⟨m, -, hlast⟩ := Except.bind_eq_ok_iff.mp hfollow
      obtain ⟨k, henter, hk⟩ := Except.bind_eq_ok_iff.mp hlast
      obtain rfl := Except.ok.inj hk
      exact ((enter_eq_ok_iff hhere hup).mp henter).2.2
    unfold follow at hfollow ⊢
    rw [hhere] at hfollow
    exact htree.foldlM_enter (Path.ne_of_mem_moves hup) hfollow hdirectory

/-- **A path that never goes up** holds what it held before directories were made above it. -/
theorem heldBy_eq (hup : ['.', '.'] ∉ Path.moves p.text.toList) : d₁.heldBy p = d.heldBy p := by
  refine Option.ext fun x => ⟨fun hx => ?_, h.heldBy_of_some⟩
  obtain ⟨l, n, hfind, rfl⟩ := heldBy_eq_some_iff.mp hx
  cases n with
  | directory =>
    obtain ⟨hnul, hshort, hne, hfollow⟩ := find_eq_directory_iff.mp hfind
    have hfollow' := h.follow_of_follow habove htree hup hfollow
    have hfound := find_eq_directory_iff.mpr ⟨hnul, hshort, hne, hfollow'⟩
    exact heldBy_eq_some_iff.mpr ⟨l, .directory, hfound, rfl⟩
  | file id content =>
    obtain ⟨hleads, hshort, hnode⟩ := exists_leadsTo_of_find hfind
    obtain ⟨before, name, directory, hends, hfollow, rfl, hsize⟩ := hleads.exists_name
    have hfile : d.file? (directory ++ [String.ofList name]) = some content := by
      rw [← h.grows.2]
      exact file?_eq_some_iff.mpr ⟨id, hnode⟩
    obtain ⟨id', hnode'⟩ := file?_eq_some_iff.mp hfile
    have hdirectory := htree directory _ (by rw [hnode']; rfl)
    have hup' : ['.', '.'] ∉ Path.moves before := by
      intro hmem
      exact hup (by simp [hends.moves_eq, hmem])
    have hfollow' : d.follow before = .ok directory := by
      unfold follow at hfollow ⊢
      rw [h.grows.1.here_eq] at hfollow
      exact htree.foldlM_enter (Path.ne_of_mem_moves hup') hfollow hdirectory
    have hleads' : d.LeadsTo p (directory ++ [String.ofList name]) :=
      ⟨hleads.hasNul_eq, before, name, directory, hends, hfollow', rfl, hsize⟩
    rw [hleads'.heldBy_eq hshort]
    exact heldAt_eq_file_iff.mpr hfile

end MakesWay

/-- The directories above a path are made, all of those that were missing or some. -/
structure Prepared (d d₁ : Disk) (p : Path) : Prop where
  makesWay : MakesWay p.above d d₁
  /-- Nothing is made above a path that leads to a place. -/
  eq_of_leadsTo : ∀ l, d.LeadsTo p l → d₁ = d
  /-- A place that changes was empty, and comes to hold a directory that a path above leads to. -/
  heldAt_cases : ∀ l, d₁.heldAt l = d.heldAt l ∨ d.heldAt l = none ∧
    d₁.heldAt l = some .directory ∧ ∃ q ∈ p.above, d₁.follow q.text.toList = .ok l
  /-- The path holds what it held, if it never goes up. -/
  heldBy_eq : d.IsTree → ['.', '.'] ∉ Path.moves p.text.toList → d₁.heldBy p = d.heldBy p

theorem MakesWay.prepared (h : MakesWay p.above d d₁) : d.Prepared d₁ p where
  makesWay := h
  eq_of_leadsTo l hl := by
    obtain ⟨before, name, directory, hends, hfollow, -⟩ := hl.exists_name
    exact h.eq_of_follow hends hfollow
  heldAt_cases := h.heldAt_cases
  heldBy_eq := h.heldBy_eq fun _ => Path.isAbove_of_mem_above

end Disk

end Ensemble
