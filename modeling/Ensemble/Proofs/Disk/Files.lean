import Ensemble.Disk.Change
import Ensemble.Proofs.Disk.Places
import Ensemble.Proofs.Table
import Mathlib.Logic.Function.Basic

/-!
# Files that come and go

Operations on files keep the directories as they are (`Disk.SameTree`), so that every path still
leads to the same place (`SameTree.leadsTo_iff`), and change what one or two places hold: creating
(`create_eq_ok`), removing (`remove_cases`) and renaming (`rename_eq_ok`). Making directories that
are there changes nothing (`makeDirectories_parent`).
-/

namespace Ensemble.Disk

/-- Two disks have the same directories and the same one to work in. -/
structure SameTree (d d' : Disk) : Prop where
  here_eq : d'.here = d.here
  directory_iff : ∀ l, d'.node? l = some .directory ↔ d.node? l = some .directory

variable {d d' d'' : Disk}

/-! ### The same tree -/

namespace SameTree

theorem refl (d : Disk) : SameTree d d := ⟨rfl, fun _ => Iff.rfl⟩

theorem symm (h : SameTree d d') : SameTree d' d :=
  ⟨h.here_eq.symm, fun l => (h.directory_iff l).symm⟩

theorem trans (h : SameTree d d') (h' : SameTree d' d'') : SameTree d d'' :=
  ⟨h'.here_eq.trans h.here_eq, fun l => (h'.directory_iff l).trans (h.directory_iff l)⟩

theorem enter_iff (h : SameTree d d') {l m : Location} {s : List Char} :
    d'.enter l s = .ok m ↔ d.enter l s = .ok m := by
  by_cases hhere : s = ['.']
  · rw [hhere, enter_here, enter_here]
  · by_cases hup : s = ['.', '.']
    · rw [hup, enter_up, enter_up]
    · rw [enter_eq_ok_iff hhere hup, enter_eq_ok_iff hhere hup, h.directory_iff]

theorem foldlM_enter_iff (h : SameTree d d') {l m : Location} {ss : List (List Char)} :
    ss.foldlM d'.enter l = .ok m ↔ ss.foldlM d.enter l = .ok m := by
  induction ss generalizing l with
  | nil => exact Iff.rfl
  | cons s ss ih =>
    rw [List.foldlM_cons, List.foldlM_cons, Except.bind_eq_ok_iff, Except.bind_eq_ok_iff]
    simp only [h.enter_iff, ih]

theorem follow_iff (h : SameTree d d') {cs : List Char} {l : Location} :
    d'.follow cs = .ok l ↔ d.follow cs = .ok l := by
  unfold follow
  rw [h.foldlM_enter_iff, h.here_eq]

/-- **Every path leads where it led.** -/
theorem leadsTo_iff (h : SameTree d d') {p : Path} {l : Location} :
    d'.LeadsTo p l ↔ d.LeadsTo p l := by
  constructor
  · rintro ⟨hnul, before, name, directory, hends, hfollow, hl, hsize⟩
    exact ⟨hnul, before, name, directory, hends, h.follow_iff.mp hfollow, hl, hsize⟩
  · rintro ⟨hnul, before, name, directory, hends, hfollow, hl, hsize⟩
    exact ⟨hnul, before, name, directory, hends, h.follow_iff.mpr hfollow, hl, hsize⟩

end SameTree

theorem isSome_node?_iff {l : Location} :
    (d.node? l).isSome ↔ d.node? l = some .directory ∨ (d.file? l).isSome := by
  unfold file?
  cases hnode : d.node? l with
  | none => simp
  | some n => cases n <;> simp

/-! ### Nodes -/

theorem node?_set {l : Location} (hl : l ≠ []) (n : Node) (m : Location) :
    (d.set l n).node? m = if m = l then some n else d.node? m := by
  unfold node? set
  by_cases hm : m = []
  · rw [if_pos hm, if_pos hm, if_neg (by rw [hm]; exact Ne.symm hl)]
  · rw [if_neg hm, if_neg hm, Table.get?_insert]
    by_cases hml : m = l
    · rw [if_pos hml, if_pos hml.symm]
    · rw [if_neg hml, if_neg (Ne.symm hml)]

theorem node?_unset {l : Location} (hl : l ≠ []) (m : Location) :
    (d.unset l).node? m = if m = l then none else d.node? m := by
  unfold node? unset
  by_cases hm : m = []
  · rw [if_pos hm, if_pos hm, if_neg (by rw [hm]; exact Ne.symm hl)]
  · rw [if_neg hm, if_neg hm, Table.get?_erase]
    by_cases hml : m = l
    · rw [if_pos hml, if_pos hml.symm]
    · rw [if_neg hml, if_neg (Ne.symm hml)]

/-- The disk is changed at one location, where it holds no directory before or after. -/
structure ChangedAt (d d' : Disk) (l : Location) (n : Option Node) : Prop where
  here_eq : d'.here = d.here
  before : d.node? l ≠ some .directory
  after : n ≠ some .directory
  node?_eq : ∀ m, d'.node? m = if m = l then n else d.node? m

namespace ChangedAt

variable {l : Location} {n n' : Option Node}

theorem trans (h : ChangedAt d d' l n) (h' : ChangedAt d' d'' l n') : ChangedAt d d'' l n' := by
  refine ⟨h'.here_eq.trans h.here_eq, h.before, h'.after, fun m => ?_⟩
  rw [h'.node?_eq, h.node?_eq]
  by_cases hm : m = l
  · rw [if_pos hm, if_pos hm]
  · rw [if_neg hm, if_neg hm, if_neg hm]

theorem sameTree (h : ChangedAt d d' l n) : SameTree d d' := by
  refine ⟨h.here_eq, fun m => ?_⟩
  rw [h.node?_eq]
  by_cases hm : m = l
  · rw [if_pos hm, hm]
    exact ⟨fun hn => absurd hn h.after, fun hn => absurd hn h.before⟩
  · rw [if_neg hm]

theorem file?_eq_none (h : ChangedAt d d' l none) : d'.file? = Function.update d.file? l none := by
  funext m
  rw [file?, h.node?_eq, Function.update_apply]
  by_cases hm : m = l
  · rw [if_pos hm, if_pos hm]
  · rw [if_neg hm, if_neg hm, file?]

theorem file?_eq_some {id : FileId} {content : ByteArray}
    (h : ChangedAt d d' l (some (.file id content))) :
    d'.file? = Function.update d.file? l (some content) := by
  funext m
  rw [file?, h.node?_eq, Function.update_apply]
  by_cases hm : m = l
  · rw [if_pos hm, if_pos hm]
  · rw [if_neg hm, if_neg hm, file?]

end ChangedAt

theorem changedAt_set {l : Location} (hl : l ≠ []) (h : d.node? l ≠ some .directory) (id : FileId)
    (content : ByteArray) :
    ChangedAt d (d.set l (.file id content)) l (some (.file id content)) :=
  ⟨rfl, h, by simp, node?_set hl _⟩

theorem changedAt_unset {l : Location} (hl : l ≠ []) (h : d.node? l ≠ some .directory) :
    ChangedAt d (d.unset l) l none :=
  ⟨rfl, h, by simp, node?_unset hl⟩

theorem ne_directory_of_file {l : Location} {id : FileId} {content : ByteArray}
    (h : d.node? l = some (.file id content)) : d.node? l ≠ some .directory := by
  rw [h]
  simp

theorem ne_directory_of_none {l : Location} (h : d.node? l = none) :
    d.node? l ≠ some .directory := by
  rw [h]
  simp

/-! ### Operations on files -/

/-- A name that is found or to be made, with no separator after it, leads to its place. -/
theorem leadsTo_of_spot {p : Path} {directory : Location} {name : String}
    (h : d.spot p = .ok ⟨directory, .name name, false⟩) (hsize : name.length ≤ 255) :
    IsShort p ∧ d.LeadsTo p (directory ++ [name]) := by
  obtain ⟨-, hshort, hwalk⟩ := spot_eq_ok_iff.mp h
  exact ⟨hshort, leadsTo_of_walk hwalk rfl rfl hsize⟩

theorem create_eq_ok {p : Path} {h : Handle} (hcreate : d.create p = .ok (h, d')) :
    IsShort p ∧ d.LeadsTo p h.location ∧
      ChangedAt d d' h.location (some (.file h.file .empty)) := by
  obtain ⟨⟨directory, last, slash⟩, hspot, hcreate⟩ := Except.bind_eq_ok_iff.mp hcreate
  cases last with
  | itself => cases hcreate
  | up => cases hcreate
  | name name =>
    cases slash with
    | true => cases hcreate
    | false =>
      obtain ⟨node, hchild, hcreate⟩ := Except.bind_eq_ok_iff.mp hcreate
      obtain ⟨hsize, rfl⟩ := child_eq_ok_iff.mp hchild
      obtain ⟨hshort, hleads⟩ := leadsTo_of_spot hspot hsize
      split at hcreate
      · cases hcreate
      · rename_i id content hnode
        obtain ⟨rfl, rfl⟩ := Prod.mk.inj (Except.ok.inj hcreate)
        exact ⟨hshort, hleads, changedAt_set hleads.ne_nil (ne_directory_of_file hnode) id .empty⟩
      · rename_i hnode
        obtain ⟨rfl, rfl⟩ := Prod.mk.inj (Except.ok.inj hcreate)
        have hset := changedAt_set hleads.ne_nil (ne_directory_of_none hnode) d.nextId .empty
        exact ⟨hshort, hleads, hset.here_eq, hset.before, hset.after, hset.node?_eq⟩

/-- An open file that was not moved is found where it was. -/
theorem locate_of_node? {h : Handle} {content : ByteArray} (hl : h.location ≠ [])
    (hnode : d.node? h.location = some (.file h.file content)) :
    d.locate h = some (h.location, content) := by
  have hget : d.nodes.get? h.location = some (.file h.file content) := by
    rwa [node?, if_neg hl] at hnode
  simp [locate, hget]

theorem writeAt_changedAt {h : Handle} {content : ByteArray} (hl : h.location ≠ [])
    (hnode : d.node? h.location = some (.file h.file content)) (offset : Nat) (bytes : ByteArray) :
    ChangedAt d (d.writeAt h offset bytes) h.location
      (some (.file h.file (overwrite content offset bytes))) := by
  unfold writeAt
  rw [locate_of_node? hl hnode]
  exact changedAt_set hl (ne_directory_of_file hnode) _ _

/-- Renaming a file moves what it holds. -/
theorem rename_eq_ok {p q : Path} {l m : Location} {id : FileId} {content : ByteArray}
    (h : d.rename p q = .ok d') (hp : d.LeadsTo p l) (hq : d.LeadsTo q m) (hne : m ≠ l)
    (hnode : d.node? l = some (.file id content)) :
    ∃ d₁, ChangedAt d d₁ l none ∧ ChangedAt d₁ d' m (some (.file id content)) := by
  obtain ⟨s, hs, h⟩ := Except.bind_eq_ok_iff.mp h
  obtain ⟨t, ht, h⟩ := Except.bind_eq_ok_iff.mp h
  obtain ⟨a, x, rfl, hxsize, hwalk⟩ := hp.exists_walk
  obtain ⟨b, y, rfl, hysize, hwalk'⟩ := hq.exists_walk
  obtain rfl := Except.ok.inj (hwalk.symm.trans (spot_eq_ok_iff.mp hs).2.2)
  obtain rfl := Except.ok.inj (hwalk'.symm.trans (spot_eq_ok_iff.mp ht).2.2)
  obtain ⟨n, hn, h⟩ := Except.bind_eq_ok_iff.mp h
  obtain ⟨-, rfl⟩ := child_eq_ok_iff.mp hn
  obtain ⟨n', hn', h⟩ := Except.bind_eq_ok_iff.mp h
  obtain ⟨-, rfl⟩ := child_eq_ok_iff.mp hn'
  simp only [hnode, Bool.or_self, Bool.false_eq_true, if_false, if_neg (Ne.symm hne)] at h
  have hunset := changedAt_unset hp.ne_nil (ne_directory_of_file hnode)
  refine ⟨d.unset (a ++ [x]), hunset, ?_⟩
  have hthere : d.node? (b ++ [y]) ≠ some .directory := by
    intro hthere
    rw [hthere] at h
    cases h
  have hd' : d' = (d.unset (a ++ [x])).set (b ++ [y]) (.file id content) := by
    cases hold : d.node? (b ++ [y]) with
    | none =>
      rw [hold] at h
      exact (Except.ok.inj h).symm
    | some n =>
      cases n with
      | directory => exact absurd hold hthere
      | file id' content' =>
        rw [hold] at h
        exact (Except.ok.inj h).symm
  rw [hd']
  refine changedAt_set hq.ne_nil ?_ _ _
  rw [hunset.node?_eq, if_neg hne]
  exact hthere

/-- A file is renamed to where a path leads. -/
theorem exists_leadsTo_of_rename {p q : Path} {l : Location} {id : FileId} {content : ByteArray}
    (h : d.rename p q = .ok d') (hp : d.LeadsTo p l) (hnode : d.node? l = some (.file id content)) :
    IsShort q ∧ ∃ m, d.LeadsTo q m := by
  obtain ⟨s, hs, h⟩ := Except.bind_eq_ok_iff.mp h
  obtain ⟨⟨directory, last, slash⟩, ht, h⟩ := Except.bind_eq_ok_iff.mp h
  obtain ⟨a, x, rfl, -, hwalk⟩ := hp.exists_walk
  obtain rfl := Except.ok.inj (hwalk.symm.trans (spot_eq_ok_iff.mp hs).2.2)
  cases last with
  | itself => cases h
  | up => cases h
  | name y =>
    obtain ⟨n, hn, h⟩ := Except.bind_eq_ok_iff.mp h
    obtain ⟨-, rfl⟩ := child_eq_ok_iff.mp hn
    obtain ⟨n', hn', h⟩ := Except.bind_eq_ok_iff.mp h
    have hsize := (child_eq_ok_iff.mp hn').1
    simp only [hnode] at h
    cases slash with
    | true => cases h
    | false =>
      obtain ⟨hshort, hleads⟩ := leadsTo_of_spot ht hsize
      exact ⟨hshort, _, hleads⟩

theorem remove_eq_ok {p : Path} {l : Location} (hleads : d.LeadsTo p l) (hshort : IsShort p)
    (hfile : (d.file? l).isSome) : ∃ d', d.remove p = .ok d' ∧ ChangedAt d d' l none := by
  obtain ⟨directory, name, rfl, hsize, hspot⟩ := hleads.exists_spot hshort
  obtain ⟨content, hcontent⟩ := Option.isSome_iff_exists.mp hfile
  obtain ⟨id, hnode⟩ := file?_eq_some_iff.mp hcontent
  refine ⟨d.unset (directory ++ [name]), ?_,
    changedAt_unset hleads.ne_nil (ne_directory_of_file hnode)⟩
  unfold remove
  rw [hspot]
  refine Except.bind_eq_ok_iff.mpr ⟨_, rfl, ?_⟩
  refine Except.bind_eq_ok_iff.mpr ⟨_, child_eq_ok_iff.mpr ⟨hsize, rfl⟩, ?_⟩
  rw [hnode]
  rfl

/-- What is removed is a file that the path leads to. -/
theorem exists_leadsTo_of_remove {p : Path} (h : d.remove p = .ok d') :
    ∃ l, d.LeadsTo p l ∧ IsShort p ∧ (d.file? l).isSome := by
  obtain ⟨⟨directory, last, slash⟩, hspot, h⟩ := Except.bind_eq_ok_iff.mp h
  cases last with
  | itself => cases h
  | up => cases h
  | name name =>
    obtain ⟨n, hchild, h⟩ := Except.bind_eq_ok_iff.mp h
    obtain ⟨hsize, rfl⟩ := child_eq_ok_iff.mp hchild
    split at h
    · cases h
    · cases h
    · rename_i id content hnode
      cases slash with
      | true => cases h
      | false =>
        obtain ⟨hshort, hleads⟩ := leadsTo_of_spot hspot hsize
        refine ⟨_, hleads, hshort, ?_⟩
        rw [file?_eq_some_iff.mpr ⟨id, hnode⟩]
        rfl

/-- **Removing** a file leaves its place empty; nothing else is removed. -/
theorem remove_cases (d : Disk) (p : Path) :
    (∃ l, d.LeadsTo p l ∧ IsShort p ∧ (d.file? l).isSome ∧
      ∃ d', d.remove p = .ok d' ∧ ChangedAt d d' l none) ∨
    ((∃ e, d.remove p = .error e) ∧ ∀ l, d.LeadsTo p l → IsShort p → d.file? l = none) := by
  cases hremove : d.remove p with
  | ok d' =>
    obtain ⟨l, hleads, hshort, hfile⟩ := exists_leadsTo_of_remove hremove
    refine Or.inl ⟨l, hleads, hshort, hfile, ?_⟩
    rw [← hremove]
    exact remove_eq_ok hleads hshort hfile
  | error e =>
    refine Or.inr ⟨⟨e, rfl⟩, fun l hleads hshort => ?_⟩
    rw [← Option.not_isSome_iff_eq_none]
    intro hfile
    obtain ⟨d', hok, -⟩ := remove_eq_ok hleads hshort hfile
    cases hremove.symm.trans hok

/-! ### Directories that are there -/

theorem makeDirectory_of_find {p : Path} {l : Location} (h : d.find p = .ok (l, .directory)) :
    d.makeDirectory p = .error .alreadyExists := by
  obtain ⟨⟨directory, last, slash⟩, hspot, hresolve⟩ := Except.bind_eq_ok_iff.mp h
  unfold makeDirectory
  rw [hspot]
  cases last with
  | itself => rfl
  | up => rfl
  | name name =>
    obtain ⟨n, hchild, hresolve⟩ := Except.bind_eq_ok_iff.mp hresolve
    simp only at hchild
    cases n with
    | none => cases hresolve
    | some n =>
      simp only [bind, Except.bind, hchild]
      rfl

theorem makeDirectories_of_find {p : Path} {l : Location} (hne : p.text.isEmpty = false)
    (h : d.find p = .ok (l, .directory)) : d.makeDirectories p = (.ok (), d) := by
  have hdirectory : d.isDirectory p = true := by
    unfold isDirectory
    rw [h]
  have hancestors : ∃ ps, p.ancestors = p :: ps := by
    unfold Path.ancestors Path.ancestors.go
    exact ⟨_, rfl⟩
  obtain ⟨ps, hps⟩ := hancestors
  rw [makeDirectories, hps, makeFirst, hne, makeDirectory_of_find h, hdirectory]
  rfl

theorem hasNul_eq_false_iff {p : Path} :
    hasNul p = false ↔ Char.ofNat 0 ∉ p.text.toList := by
  simp [hasNul]

/-- The directory that a path that ends in a name needs is there as soon as the path leads to a
place. -/
theorem LeadsTo.makeDirectories_parent {p q : Path} {l : Location} (h : d.LeadsTo p l)
    (hshort : IsShort p) (hparent : p.parent? = some q) (hne : q.text.isEmpty = false) :
    d.makeDirectories q = (.ok (), d) := by
  obtain ⟨before, name, directory, hends, hfollow, -⟩ := h.exists_name
  obtain ⟨q', hq', hstart, hmoves⟩ := hends.exists_parent
  obtain rfl := Option.some.inj (hparent.symm.trans hq')
  have hstarts : q.text.toList <+: p.text.toList := by
    rw [hends.toList_text]
    exact hstart.trans (List.prefix_append _ _)
  have hnul : hasNul q = false := by
    rw [hasNul_eq_false_iff]
    exact fun hc => hasNul_eq_false_iff.mp h.hasNul_eq (hstarts.subset hc)
  have hnil : q.text.toList ≠ [] := by simpa [String.isEmpty_iff] using hne
  have hshort' : IsShort q := by
    obtain ⟨rest, hrest⟩ := hstarts
    have htext : p.text = q.text ++ String.ofList rest := by
      rw [← String.toList_inj, String.toList_append, String.toList_ofList, hrest]
    unfold IsShort at hshort ⊢
    rw [htext, String.length_append] at hshort
    omega
  have hhead : q.text.toList.head? = before.head? := by
    obtain ⟨rest, hrest⟩ := hstart
    obtain ⟨c, cs, hcs⟩ := List.exists_cons_of_ne_nil hnil
    rw [← hrest, hcs]
    rfl
  have hq : d.follow q.text.toList = .ok directory := by
    rw [← hfollow, follow, follow, hmoves, hhead]
  exact makeDirectories_of_find hne (find_eq_directory_iff.mpr ⟨hnul, hshort', hnil, hq⟩)

end Ensemble.Disk
