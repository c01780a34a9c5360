import Ensemble.Membership.Store
import Ensemble.Proofs.Membership.Naming
import Ensemble.Proofs.Script.Atomicity

/-!
# The files around a static file

The files of a layout are in one directory, and what tells them apart is what stands after the name
of the static file (`Layout.Kind.suffix_inj`). No file of a layout is a temporary one for another
(`Layout.Kind.not_isTemporaryFor`). So, seen from a layout, a disk is a table of contents by the kind
of file (`Disk.contents`), and to replace a file is to update the table (`Layout.Rewrote`).
-/

namespace Ensemble

open Text Disk

/-! ### Kinds -/

namespace Layout

/-- The kinds of files around a static file. -/
inductive Kind
  | static
  | dynamic (v : Version)
  | next
  /-- The proposal beside a dynamic file whose name is no text, and states no version. -/
  | beside (v : Version)
  | backup
deriving DecidableEq

namespace Kind

/-- What stands after the name of the static file. -/
def suffix : Kind → String
  | static => ""
  | dynamic v => ".dynamic." ++ hex v.toNat
  | next => ".dynamic.next"
  | beside v => ".dynamic." ++ hex v.toNat ++ ".next"
  | backup => ".bak"

/-- A file that holds a proposal. -/
def IsNext : Kind → Prop
  | next => True
  | beside _ => True
  | _ => False

theorem IsNext.ne_static {k : Kind} (h : k.IsNext) : k ≠ static := by
  rintro rfl
  exact h

theorem IsNext.ne_dynamic {k : Kind} {v : Version} (h : k.IsNext) : k ≠ dynamic v := by
  rintro rfl
  exact h

theorem hex_inj {v w : Version} (h : (hex v.toNat).toList = (hex w.toNat).toList) : v = w := by
  have hread := hex64?_hex v
  rw [String.toList_inj.mp h, hex64?_hex] at hread
  exact (Option.some.inj hread).symm

/-- What stands after the last dot of a dynamic file is a version. -/
theorem suffix_dynamic_ne_append (v : Version) (stem : String) {ending : String}
    (h : hex64? ending = none) (hdot : '.' ∉ ending.toList) :
    (dynamic v).suffix ≠ stem ++ "." ++ ending := by
  intro heq
  have htext : ".dynamic".toList ++ '.' :: (hex v.toNat).toList =
      stem.toList ++ '.' :: ending.toList := by
    have htoList := congrArg String.toList heq
    simpa [suffix] using htoList
  have hcut := Path.cutLast_append (dot_not_mem_hex v.toNat) ".dynamic".toList
  rw [htext, Path.cutLast_append hdot stem.toList] at hcut
  have hending := (Prod.mk.inj (Option.some.inj hcut)).2
  rw [String.toList_inj.mp hending, hex64?_hex] at h
  cases h

variable {k k' : Kind}

theorem suffix_dynamic_ne (v : Version) (hk : ∀ w, k ≠ dynamic w) : (dynamic v).suffix ≠ k.suffix := by
  cases k with
  | static =>
    intro heq
    have hlen := congrArg String.length heq
    simp [suffix] at hlen
  | dynamic w => exact absurd rfl (hk w)
  | next => exact @suffix_dynamic_ne_append v ".dynamic" "next" (by decide) (by decide)
  | beside w =>
    have hne := @suffix_dynamic_ne_append v (".dynamic." ++ hex w.toNat) "next" (by decide) (by decide)
    intro heq
    refine hne (heq.trans ?_)
    rw [suffix, ← String.toList_inj]
    simp
  | backup => exact @suffix_dynamic_ne_append v "" "bak" (by decide) (by decide)

theorem suffix_beside_ne (v : Version) (hk : ∀ w, k ≠ beside w) : (beside v).suffix ≠ k.suffix := by
  cases k with
  | dynamic w => exact (suffix_dynamic_ne w (by simp)).symm
  | beside w => exact absurd rfl (hk w)
  | next =>
    -- a version has a digit
    intro heq
    have htoList := congrArg String.toList heq
    have hlen := congrArg List.length htoList
    simp [suffix] at hlen
  | static | backup =>
    intro heq
    have htoList := congrArg String.toList heq
    simp [suffix] at htoList

theorem suffix_inj (h : k.suffix = k'.suffix) : k = k' := by
  cases k <;> cases k'
  case dynamic.dynamic v w =>
    have htoList := congrArg String.toList h
    rw [hex_inj (v := v) (w := w) (by simpa [suffix] using htoList)]
  case beside.beside v w =>
    have htoList := congrArg String.toList h
    rw [hex_inj (v := v) (w := w) (by simpa [suffix] using htoList)]
  case static.static | next.next | backup.backup => rfl
  case dynamic.static v | dynamic.next v | dynamic.beside v _ | dynamic.backup v =>
    exact absurd h (suffix_dynamic_ne v (by simp))
  case static.dynamic v | next.dynamic v | beside.dynamic _ v | backup.dynamic v =>
    exact absurd h.symm (suffix_dynamic_ne v (by simp))
  case beside.static v | beside.next v | beside.backup v =>
    exact absurd h (suffix_beside_ne v (by simp))
  case static.beside v | next.beside v | backup.beside v =>
    exact absurd h.symm (suffix_beside_ne v (by simp))
  all_goals exact absurd h (by decide)

/-- No file has a name with `.tmp` at its end, as far as the layout gives the name. -/
theorem suffix_ne_temporary (k k' : Kind) : k.suffix ≠ k'.suffix ++ ".tmp" := by
  intro heq
  cases k with
  | dynamic v =>
    have htmp := @suffix_dynamic_ne_append v k'.suffix "tmp" (by decide) (by decide)
    refine htmp ?_
    rw [heq, String.append_assoc]
    rfl
  | _ =>
    have hlast := congrArg (fun s => s.toList.getLast?) heq
    simp [suffix, List.getLast?_cons, List.getLast?_append] at hlast

/-- Where the file of a kind is. -/
def place (directory : Location) (name : String) (k : Kind) : Location :=
  directory ++ [name ++ k.suffix]

variable {directory : Location} {name : String}

/-- Whatever the path of the static file ends in, every other file has a name. -/
theorem isName_append_suffix (hname : '/' ∉ name.toList) (hk : k ≠ static) :
    Path.IsName (name ++ k.suffix).toList := by
  have hsuffix : '/' ∉ k.suffix.toList ∧ 3 ≤ k.suffix.length := by
    cases k with
    | static => exact absurd rfl hk
    | dynamic v =>
      rw [suffix, String.toList_append, String.length_append, List.mem_append, not_or]
      exact ⟨⟨by decide, separator_not_mem_hex _⟩, Nat.le_add_right_of_le (by decide)⟩
    | next => exact ⟨by decide, by decide⟩
    | beside v =>
      refine ⟨by simp [suffix, separator_not_mem_hex], ?_⟩
      rw [suffix, String.append_assoc, String.length_append]
      exact Nat.le_add_right_of_le (by decide)
    | backup => exact ⟨by decide, by decide⟩
  refine Path.isName_of_length ?_ ?_
  · simp [hname, hsuffix.1]
  · rw [String.toList_append, List.length_append, String.length_toList, String.length_toList]
    omega

theorem place_inj (h : k.place directory name = k'.place directory name) : k = k' := by
  refine suffix_inj ?_
  have hname : name ++ k.suffix = name ++ k'.suffix := by simpa [place] using h
  have htoList := congrArg String.toList hname
  rw [String.toList_append, String.toList_append] at htoList
  exact String.toList_inj.mp (List.append_cancel_left htoList)

theorem not_isTemporaryFor :
    ¬ IsTemporaryFor (k.place directory name) (k'.place directory name) := by
  intro h
  obtain ⟨-, hname⟩ := List.append_inj' (isTemporaryFor_concat_iff.mp h) rfl
  have htoList := congrArg String.toList (List.singleton_inj.mp hname)
  rw [String.append_assoc] at htoList
  rw [String.toList_append, String.toList_append] at htoList
  exact suffix_ne_temporary k k' (String.toList_inj.mp (List.append_cancel_left htoList))

end Kind

/-- The file of a kind. -/
def file (l : Layout) : Kind → Path
  | .static => l.staticFile
  | .dynamic v => l.dynamicFile v
  | .next => l.nextFile
  | .beside v => (l.dynamicFile v).append ".next"
  | .backup => l.backupFile

theorem exists_endsInField_name (l : Layout) :
    ∃ before name, l.staticFile.EndsInField before (String.toList name) := by
  obtain ⟨before, field, hends⟩ := l.staticFile.exists_endsInField
  exact ⟨before, String.ofList field, by rwa [String.toList_ofList]⟩

theorem file_endsInField {l : Layout} {before : List Char} {name : String}
    (h : l.staticFile.EndsInField before name.toList) (k : Kind) :
    (l.file k).EndsInField before (name ++ k.suffix).toList := by
  cases k with
  | static => simpa [file, Kind.suffix] using h
  | dynamic v => simpa [file, Kind.suffix] using (dynamicFile_endsIn h v).endsInField
  | next => simpa [file, Kind.suffix] using (nextFile_endsIn h).endsInField
  | beside v => simpa [file, Kind.suffix] using (besideFile_endsIn h v).endsInField
  | backup => simpa [file, Kind.suffix] using (backupFile_endsIn h).endsInField

/-- The static file is in a directory, under what its path ends in. -/
def IsIn (l : Layout) (d : Disk) (directory : Location) (name : String) : Prop :=
  ∃ before, l.staticFile.EndsInField before name.toList ∧ d.follow before = .ok directory

/-- The path of a file can be opened, where its directory is there. -/
structure Opens (l : Layout) (name : String) (k : Kind) : Prop where
  isName : Path.IsName (name ++ k.suffix).toList
  isShort : IsShort (l.file k)
  hasNul_eq : hasNul (l.file k) = false
  size : (name ++ k.suffix).length ≤ 255

end Layout

/-- The contents of the files around a static file. -/
def Disk.contents (d : Disk) (directory : Location) (name : String) (k : Layout.Kind) :
    Option ByteArray :=
  d.file? (k.place directory name)

theorem Disk.isSome_node?_of_contents {d : Disk} {directory : Location} {name : String}
    {k : Layout.Kind} {bytes : ByteArray} (h : d.contents directory name k = some bytes) :
    (d.node? (k.place directory name)).isSome :=
  isSome_node?_iff.mpr (Or.inr (Option.isSome_iff_exists.mpr ⟨bytes, h⟩))

/-- Two disks have the same directories, and the same files of some kinds around a static file. -/
structure Disk.SameKinds (d d' : Disk) (directory : Location) (name : String)
    (P : Layout.Kind → Prop) : Prop where
  sameTree : SameTree d d'
  contents_eq : ∀ k, P k → d'.contents directory name k = d.contents directory name k

namespace Disk.SameKinds

variable {d d₁ d' : Disk} {directory : Location} {name : String} {P Q : Layout.Kind → Prop}

theorem refl (d : Disk) : d.SameKinds d directory name P := ⟨.refl d, fun _ _ => rfl⟩

theorem trans (h : d.SameKinds d₁ directory name P) (h' : d₁.SameKinds d' directory name P) :
    d.SameKinds d' directory name P :=
  ⟨h.sameTree.trans h'.sameTree, fun k hk => (h'.contents_eq k hk).trans (h.contents_eq k hk)⟩

theorem mono (h : d.SameKinds d' directory name P) (hQP : ∀ k, Q k → P k) :
    d.SameKinds d' directory name Q :=
  ⟨h.sameTree, fun k hk => h.contents_eq k (hQP k hk)⟩

theorem of_contents_eq (htree : SameTree d d')
    (h : d'.contents directory name = d.contents directory name) : d.SameKinds d' directory name P :=
  ⟨htree, fun k _ => congrFun h k⟩

end Disk.SameKinds

/-- The file of a kind holds new bytes, and the others stay. -/
structure Layout.Rewrote (l : Layout) (k : Layout.Kind) (bytes : ByteArray) (d d' : Disk)
    (directory : Location) (name : String) : Prop where
  sameTree : SameTree d d'
  opens : l.Opens name k
  contents_eq :
    d'.contents directory name = Function.update (d.contents directory name) k (some bytes)

namespace Layout.Rewrote

variable {l : Layout} {k : Kind} {bytes : ByteArray} {d d' : Disk} {directory : Location}
  {name : String}

theorem contents_self (h : l.Rewrote k bytes d d' directory name) :
    d'.contents directory name k = some bytes := by
  rw [h.contents_eq, Function.update_self]

theorem sameKinds (h : l.Rewrote k bytes d d' directory name) :
    d.SameKinds d' directory name (· ≠ k) := by
  refine ⟨h.sameTree, fun k' hk' => ?_⟩
  rw [h.contents_eq, Function.update_of_ne hk']

end Layout.Rewrote

namespace Layout.IsIn

variable {l : Layout} {d d' : Disk} {directory : Location} {name : String} {k : Kind}

theorem of_sameTree (h : l.IsIn d directory name) (htree : SameTree d d') :
    l.IsIn d' directory name := by
  obtain ⟨before, hends, hfollow⟩ := h
  exact ⟨before, hends, htree.follow_iff.mpr hfollow⟩

/-- Every file but the static one has a name. -/
theorem isName (h : l.IsIn d directory name) (hk : k ≠ .static) :
    Path.IsName (name ++ k.suffix).toList := by
  obtain ⟨before, hends, -⟩ := h
  exact Kind.isName_append_suffix hends.noSeparator hk

theorem unique {directory' : Location} (h : l.IsIn d directory name)
    (h' : l.IsIn d directory' name) : directory = directory' := by
  obtain ⟨before, hends, hfollow⟩ := h
  obtain ⟨before', hends', hfollow'⟩ := h'
  obtain ⟨rfl, -⟩ := hends.unique hends'
  exact Except.ok.inj (hfollow.symm.trans hfollow')

variable (h : l.IsIn d directory name)
include h

theorem leadsTo_iff {m : Location} : d.LeadsTo (l.file k) m ↔
    m = k.place directory name ∧ Path.IsName (name ++ k.suffix).toList ∧
      hasNul (l.file k) = false ∧ (name ++ k.suffix).length ≤ 255 := by
  obtain ⟨before, hends, hfollow⟩ := h
  have hfile := file_endsInField hends k
  constructor
  · intro hm
    obtain ⟨before', name', directory', hends', hfollow', rfl, hsize⟩ := hm.exists_name
    obtain ⟨rfl, rfl⟩ := hends'.endsInField.unique hfile
    rw [String.ofList_toList] at hsize ⊢
    rw [← Except.ok.inj (hfollow.symm.trans hfollow')]
    exact ⟨rfl, hends'.isName, hm.hasNul_eq, hsize⟩
  · rintro ⟨rfl, hname, hnul, hsize⟩
    refine ⟨hnul, before, _, directory, hfile.endsIn hname, hfollow, ?_, ?_⟩
    · rw [String.ofList_toList]
      rfl
    · rwa [String.ofList_toList]

theorem leadsTo (hopens : l.Opens name k) : d.LeadsTo (l.file k) (k.place directory name) :=
  h.leadsTo_iff.mpr ⟨rfl, hopens.isName, hopens.hasNul_eq, hopens.size⟩

theorem opens_iff : l.Opens name k ↔
    IsShort (l.file k) ∧ d.LeadsTo (l.file k) (k.place directory name) := by
  rw [h.leadsTo_iff]
  constructor
  · intro hopens
    exact ⟨hopens.isShort, rfl, hopens.isName, hopens.hasNul_eq, hopens.size⟩
  · rintro ⟨hshort, -, hname, hnul, hsize⟩
    exact ⟨hname, hshort, hnul, hsize⟩

/-- **What is read** at the path of a file is its content. -/
theorem read_eq_ok_iff {bytes : ByteArray} : d.read (l.file k) = .ok bytes ↔
    l.Opens name k ∧ d.contents directory name k = some bytes := by
  rw [Disk.read_eq_ok_iff, h.opens_iff]
  constructor
  · rintro ⟨hshort, m, hm, hbytes⟩
    obtain ⟨rfl, -⟩ := h.leadsTo_iff.mp hm
    exact ⟨⟨hshort, hm⟩, hbytes⟩
  · rintro ⟨⟨hshort, hm⟩, hbytes⟩
    exact ⟨hshort, _, hm, hbytes⟩

theorem isPresent_iff (hk : k ≠ .static) : d.isPresent (l.file k) ↔
    l.Opens name k ∧ (d.node? (k.place directory name)).isSome := by
  constructor
  · intro hpresent
    suffices hopens : l.Opens name k from
      ⟨hopens, ((h.leadsTo hopens).isPresent_iff hopens.isShort).mp hpresent⟩
    obtain ⟨before, hends, hfollow⟩ := h
    have hname := Kind.isName_append_suffix hends.noSeparator hk
    have hfound : (d.find (l.file k)).isOk := hpresent
    cases hfind : d.find (l.file k) with
    | error e =>
      rw [hfind] at hfound
      cases hfound
    | ok found =>
      obtain ⟨s, hspot, hresolve⟩ := Except.bind_eq_ok_iff.mp hfind
      obtain ⟨hnul, hshort, hwalk⟩ := spot_eq_ok_iff.mp hspot
      rw [walk_eq ((file_endsInField hends k).endsIn hname) hnul, hfollow,
        String.ofList_toList] at hwalk
      obtain rfl := Except.ok.inj hwalk
      obtain ⟨n, hchild, -⟩ := Except.bind_eq_ok_iff.mp hresolve
      exact ⟨hname, hshort, hnul, (child_eq_ok_iff.mp hchild).1⟩
  · rintro ⟨hopens, hsome⟩
    exact ((h.leadsTo hopens).isPresent_iff hopens.isShort).mpr hsome

/-- What is read is the same as before where the content is. -/
theorem read_eq_ok_congr {bytes : ByteArray} (htree : SameTree d d')
    (hk : d'.contents directory name k = d.contents directory name k) :
    d'.read (l.file k) = .ok bytes ↔ d.read (l.file k) = .ok bytes := by
  rw [(h.of_sameTree htree).read_eq_ok_iff, h.read_eq_ok_iff, hk]

theorem canonical_eq (hopens : l.Opens name k)
    (hsome : (d.contents directory name k).isSome) :
    d.canonical (l.file k) = .ok (pathOf (k.place directory name)) :=
  (h.leadsTo hopens).canonical_eq_ok_iff.mpr ⟨rfl, isSome_node?_iff.mpr (Or.inr hsome)⟩

end Layout.IsIn

/-! ### Replacing and removing -/

namespace Layout.IsIn

open Script

variable {l : Layout} {d d' : Disk} {directory : Location} {name : String} {k : Kind}
  {F : FileOp → Prop}

theorem contents_of_scratched (h : Scratched d d' (k.place directory name)) :
    d'.contents directory name = d.contents directory name :=
  funext fun _ => h.file?_eq _ Kind.not_isTemporaryFor

theorem contents_of_renewed {bytes : ByteArray} (h : Renewed d d' (k.place directory name) bytes) :
    d'.contents directory name = Function.update (d.contents directory name) k (some bytes) := by
  funext k'
  by_cases hk : k' = k
  · rw [hk, Function.update_self]
    exact h.file?_self
  · rw [Function.update_of_ne hk]
    refine h.file?_eq _ ?_
    rintro (hplace | htemporary)
    · exact hk (Kind.place_inj hplace)
    · exact Kind.not_isTemporaryFor htemporary

/-- **Replacing** a file changes its content, or nothing. -/
theorem replaceFile_guards (h : l.IsIn d directory name) {k : Kind}
    (hname : Path.IsName (name ++ k.suffix).toList) (bytes : ByteArray) :
    (replaceFile (l.file k) [bytes] none).run.Guards F d
      (fun d' => (d.SameKinds d' directory name fun _ => True) ∨
        l.Rewrote k bytes d d' directory name)
      fun r d' => match r with
        | .ok _ => l.Rewrote k bytes d d' directory name
        | .error _ => d.SameKinds d' directory name fun _ => True := by
  obtain ⟨before, hends, hfollow⟩ := id h
  have hfile := (file_endsInField hends k).endsIn hname
  have hattempted : ∀ {d'}, Attempted d d' (l.file k) before (name ++ k.suffix) →
      d.SameKinds d' directory name fun _ => True := by
    intro d' hd'
    have hscratched := hd'.scratched hfile hfollow
    exact .of_contents_eq hscratched.sameTree (contents_of_scratched hscratched)
  have hplaced : ∀ {d'}, Placed d d' (l.file k) before (name ++ k.suffix) (joinChunks [bytes]) →
      l.Rewrote k bytes d d' directory name := by
    intro d' hd'
    obtain ⟨hshort, hleads, hrenewed⟩ := hd'.renewed hfile hfollow
    rw [joinChunks_singleton] at hrenewed
    exact ⟨hrenewed.sameTree, h.opens_iff.mpr ⟨hshort, hleads⟩, contents_of_renewed hrenewed⟩
  refine (Ensemble.replaceFile_guards hfile [bytes]).mono ?_ ?_
  · rintro d' (hd' | hd')
    · exact Or.inl (hattempted hd')
    · exact Or.inr (hplaced hd')
  · intro r d' hr
    cases r with
    | ok u => exact hplaced hr
    | error e => exact hattempted hr

end Layout.IsIn

end Ensemble
