import Ensemble.Disk.Basic
import Ensemble.Proofs.Except
import Ensemble.Proofs.Path.Moves

/-!
# Places on a disk

A path that ends in a name leads to a place on a disk, whether or not something is there
(`Disk.LeadsTo`). Which place that is depends on the directories only (`SameTree.leadsTo_iff`), and
what is found, read or asked at the path is what is at the place (`find_eq_ok_iff`). A path at which
a file is found leads to its place (`exists_leadsTo_of_find`).
-/

namespace Ensemble.Disk

open Text

/-- The content of the file at a location, if there is one. -/
def file? (d : Disk) (l : Location) : Option ByteArray :=
  match d.node? l with
  | some (.file _ content) => some content
  | _ => none

/-- The directory that a text leads to, its empty last field aside. -/
def follow (d : Disk) (cs : List Char) : Except FileError Location :=
  (Path.moves cs).foldlM d.enter (if cs.head? = some '/' then [] else d.here)

/-- The path leads to the place: its text ends in a name, and what stands before it leads to the
directory that the place is in. -/
structure LeadsTo (d : Disk) (p : Path) (l : Location) : Prop where
  hasNul_eq : hasNul p = false
  exists_name : ∃ before name directory, p.EndsIn before name ∧ d.follow before = .ok directory ∧
    l = directory ++ [String.ofList name] ∧ (String.ofList name).length ≤ 255

/-- Whether a path is short enough for the operations that take a whole path. -/
def IsShort (p : Path) : Prop := p.text.length < 4096

/-! ### Steps -/

variable {d : Disk}

theorem enter_here (d : Disk) (l : Location) : d.enter l ['.'] = .ok l := rfl

theorem enter_up (d : Disk) (l : Location) : d.enter l ['.', '.'] = .ok l.dropLast := rfl

theorem child_eq_ok_iff {l : Location} {name : String} {n : Option Node} :
    d.child l name = .ok n ↔ name.length ≤ 255 ∧ n = d.node? (l ++ [name]) := by
  unfold child
  by_cases hsize : 255 < name.length
  · rw [if_pos hsize]
    constructor
    · rintro ⟨⟩
    · rintro ⟨hle, -⟩
      omega
  · rw [if_neg hsize]
    constructor
    · intro h
      exact ⟨by omega, (Except.ok.inj h).symm⟩
    · rintro ⟨-, rfl⟩
      rfl

theorem enter_eq_ok_iff {name : List Char} (hhere : name ≠ ['.']) (hup : name ≠ ['.', '.'])
    {l m : Location} :
    d.enter l name = .ok m ↔
      (String.ofList name).length ≤ 255 ∧ m = l ++ [String.ofList name] ∧
        d.node? m = some .directory := by
  unfold enter
  rw [if_neg hhere, if_neg hup]
  refine Except.bind_eq_ok_iff.trans ?_
  constructor
  · rintro ⟨n, hn, hm⟩
    obtain ⟨hsize, rfl⟩ := child_eq_ok_iff.mp hn
    split at hm
    · rename_i hdirectory
      cases hm
      exact ⟨hsize, rfl, hdirectory⟩
    · cases hm
    · cases hm
  · rintro ⟨hsize, rfl, hdirectory⟩
    refine ⟨_, child_eq_ok_iff.mpr ⟨hsize, rfl⟩, ?_⟩
    rw [hdirectory]
    rfl

/-- Fillers lead nowhere else. -/
theorem foldlM_enter_filter (d : Disk) (ss : List (List Char)) (l : Location) :
    (ss.filter (· ≠ [])).foldlM d.enter l =
      (ss.filter fun s => !Path.isFiller s).foldlM d.enter l := by
  induction ss generalizing l with
  | nil => rfl
  | cons s ss ih =>
    by_cases hnil : s = []
    · rw [hnil, List.filter_cons_of_neg (by simp), List.filter_cons_of_neg (by decide)]
      exact ih l
    · by_cases hhere : s = ['.']
      · rw [hhere, List.filter_cons_of_pos (by simp), List.filter_cons_of_neg (by decide),
          List.foldlM_cons, enter_here]
        exact ih l
      · have hfiller : Path.isFiller s = false := by simp [Path.isFiller, hnil, hhere]
        rw [List.filter_cons_of_pos (by simp [hnil]), List.filter_cons_of_pos (by simp [hfiller]),
          List.foldlM_cons, List.foldlM_cons]
        exact congrArg _ (funext ih)

/-! ### Walks -/

/-- What a step is at the end of a walk. -/
def Last.ofStep (step : List Char) : Last :=
  if step = ['.'] then .itself else if step = ['.', '.'] then .up else .name (String.ofList step)

theorem Last.ofStep_eq_name_iff {step : List Char} {name : String} :
    Last.ofStep step = .name name ↔
      name = String.ofList step ∧ step ≠ ['.'] ∧ step ≠ ['.', '.'] := by
  unfold ofStep
  by_cases hhere : step = ['.']
  · simp [hhere]
  · by_cases hup : step = ['.', '.']
    · simp [hup]
    · simp [hhere, hup, eq_comm]

/-- A walk takes all steps of its path but the last. -/
theorem walk_of_steps {p : Path} {ss : List (List Char)} {step : List Char}
    (hnul : hasNul p = false) (hne : p.text.toList ≠ []) (hsteps : steps p = ss ++ [step]) :
    d.walk p = (ss.foldlM d.enter (if p.isRelative then d.here else [])).map fun l =>
      ⟨l, .ofStep step, p.text.toList.getLast? == some '/'⟩ := by
  have hempty : p.text.isEmpty = false := by simpa [String.isEmpty_iff] using hne
  unfold walk Last.ofStep
  simp only [hnul, hempty, hsteps, List.getLast?_concat, List.dropLast_concat]
  cases ss.foldlM d.enter (if p.isRelative then d.here else []) with
  | error e => rfl
  | ok l =>
    by_cases hhere : step = ['.']
    · rw [if_pos hhere]
      simp only [if_pos hhere]
      rfl
    · rw [if_neg hhere]
      by_cases hup : step = ['.', '.']
      · simp only [if_neg hhere, if_pos hup]
        rfl
      · simp only [if_neg hhere, if_neg hup]
        rfl

theorem walk_of_steps_eq_nil {p : Path} (hnul : hasNul p = false) (hne : p.text.toList ≠ [])
    (hsteps : steps p = []) : d.walk p = .ok ⟨[], .itself, p.text.toList.getLast? == some '/'⟩ := by
  have hempty : p.text.isEmpty = false := by simpa [String.isEmpty_iff] using hne
  unfold walk
  rw [hnul, hempty, hsteps]
  rfl

theorem ne_of_walk_eq_ok {p : Path} {s : Spot} (h : d.walk p = .ok s) :
    hasNul p = false ∧ p.text.toList ≠ [] := by
  unfold walk at h
  cases hnul : hasNul p with
  | true =>
    rw [hnul] at h
    cases h
  | false =>
    refine ⟨rfl, fun hnil => ?_⟩
    rw [hnul, String.toList_eq_nil_iff.mp hnil] at h
    cases h

/-- The walk to a path that ends in a name. -/
theorem walk_eq {p : Path} {before name : List Char} (h : p.EndsIn before name)
    (hnul : hasNul p = false) :
    d.walk p = (d.follow before).map fun l => ⟨l, .name (String.ofList name), false⟩ := by
  have hne : p.text.toList ≠ [] := by simp [h.toList_text, h.isName.ne_nil]
  have hslash : (p.text.toList.getLast? == some '/') = false := by
    rw [beq_eq_false_iff_ne, h.toList_text, List.getLast?_append]
    intro hlast
    cases hname : name.getLast? with
    | none => exact h.isName.ne_nil (List.getLast?_eq_none_iff.mp hname)
    | some c =>
      rw [hname] at hlast
      have hc : c = '/' := by simpa using hlast
      exact h.isName.noSeparator (hc ▸ List.mem_of_getLast? hname)
  have hsteps : steps p = ((Text.fields '/' before).dropLast.filter (· ≠ [])) ++ [name] := by
    rw [steps, h.toList_text, Path.fields_append_name h.last h.isName.noSeparator,
      List.filter_append]
    simp [h.isName.ne_nil]
  have hmoves : Path.moves before =
      (Text.fields '/' before).dropLast.filter fun s => !Path.isFiller s := by
    rw [Path.moves, Path.fields_eq_dropLast_concat h.last, List.filter_append]
    simp [Path.isFiller]
  have hstart : (if p.isRelative then d.here else []) =
      if before.head? = some '/' then [] else d.here := by
    by_cases hhead : before.head? = some '/'
    · rw [if_pos hhead, if_neg (by rw [h.isRelative_iff]; simpa using hhead)]
    · rw [if_neg hhead, if_pos (h.isRelative_iff.mpr hhead)]
  have hlast := Last.ofStep_eq_name_iff.mpr ⟨rfl, h.isName.ne_here, h.isName.ne_up⟩
  rw [walk_of_steps hnul hne hsteps, hlast, hslash, hstart, foldlM_enter_filter, follow, hmoves]

/-- What a walk to a name says of the path. -/
theorem walk_name_eq_ok {p : Path} {s : Spot} {name : String} (h : d.walk p = .ok s)
    (hlast : s.last = .name name) :
    hasNul p = false ∧ s.slash = (p.text.toList.getLast? == some '/') ∧
      (steps p).dropLast.foldlM d.enter (if p.isRelative then d.here else []) = .ok s.directory ∧
        ∃ last, (steps p).getLast? = some last ∧ name = String.ofList last ∧
          last ≠ ['.'] ∧ last ≠ ['.', '.'] := by
  obtain ⟨hnul, hne⟩ := ne_of_walk_eq_ok h
  rcases List.eq_nil_or_concat (steps p) with hsteps | ⟨ss, step, hsteps⟩
  · rw [walk_of_steps_eq_nil hnul hne hsteps] at h
    obtain rfl := Except.ok.inj h
    cases hlast
  · rw [List.concat_eq_append] at hsteps
    rw [walk_of_steps hnul hne hsteps] at h
    obtain ⟨l, hl, rfl⟩ := Except.map_eq_ok_iff.mp h
    rw [hsteps, List.dropLast_concat]
    exact ⟨hnul, rfl, hl, step, List.getLast?_concat, Last.ofStep_eq_name_iff.mp hlast⟩

/-- A walk that ends before a name, with no separator after it. -/
theorem exists_endsIn_of_walk {p : Path} {s : Spot} {name : String} (h : d.walk p = .ok s)
    (hlast : s.last = .name name) (hslash : s.slash = false) :
    ∃ before, p.EndsIn before name.toList := by
  obtain ⟨-, hsep, -, last, hsteps, rfl, hhere, hup⟩ := walk_name_eq_ok h hlast
  obtain ⟨before, field, htext, hseparator, hbefore⟩ := exists_last_field '/' p.text.toList
  rw [hslash, eq_comm, beq_eq_false_iff_ne] at hsep
  rw [steps, htext, Path.fields_append_name hbefore hseparator, List.filter_append] at hsteps
  have hfield : field ≠ [] := by
    rintro rfl
    rw [htext, List.append_nil] at hsep
    rcases List.eq_nil_or_concat before with rfl | ⟨ds, c, rfl⟩
    · simp [Text.fields] at hsteps
    · have hc : c = '/' := hbefore c (by simp)
      simp [hc] at hsep
  have hlastfield : last = field := by
    rw [List.filter_cons_of_pos (by simpa using hfield)] at hsteps
    simpa [eq_comm] using hsteps
  subst hlastfield
  rw [String.toList_ofList]
  exact ⟨before, ⟨htext, hbefore, ⟨hfield, hseparator, hhere⟩⟩, hup⟩

theorem spot_eq_ok_iff {p : Path} {s : Spot} :
    d.spot p = .ok s ↔ hasNul p = false ∧ IsShort p ∧ d.walk p = .ok s := by
  unfold spot IsShort
  cases hnul : hasNul p with
  | true =>
    constructor
    · rintro ⟨⟩
    · rintro ⟨⟨⟩, -⟩
  | false =>
    by_cases hsize : 4096 ≤ p.text.length
    · rw [if_pos hsize]
      constructor
      · rintro ⟨⟩
      · rintro ⟨-, hlt, -⟩
        omega
    · rw [if_neg hsize]
      constructor
      · intro h
        exact ⟨rfl, by omega, h⟩
      · rintro ⟨-, -, h⟩
        exact h

/-! ### Places -/

namespace LeadsTo

variable {p : Path} {l m : Location}

theorem exists_walk (h : d.LeadsTo p l) : ∃ directory name,
    l = directory ++ [name] ∧ name.length ≤ 255 ∧
      d.walk p = .ok ⟨directory, .name name, false⟩ := by
  obtain ⟨before, name, directory, hends, hfollow, rfl, hsize⟩ := h.exists_name
  refine ⟨directory, String.ofList name, rfl, hsize, ?_⟩
  rw [walk_eq hends h.hasNul_eq, hfollow]
  rfl

theorem unique (h : d.LeadsTo p l) (h' : d.LeadsTo p m) : l = m := by
  obtain ⟨directory, name, rfl, -, hwalk⟩ := h.exists_walk
  obtain ⟨directory', name', rfl, -, hwalk'⟩ := h'.exists_walk
  rw [hwalk] at hwalk'
  obtain ⟨rfl, hname, -⟩ := Spot.mk.inj (Except.ok.inj hwalk')
  rw [Last.name.inj hname]

theorem ne_nil (h : d.LeadsTo p l) : l ≠ [] := by
  obtain ⟨directory, name, rfl, -⟩ := h.exists_walk
  simp

/-- Whatever way a path is known to end, this is the way to its place. -/
theorem exists_directory (h : d.LeadsTo p l) {before name : List Char} (hp : p.EndsIn before name) :
    ∃ directory, d.follow before = .ok directory ∧ l = directory ++ [String.ofList name] ∧
      (String.ofList name).length ≤ 255 := by
  obtain ⟨before', name', directory, hends, hfollow, rfl, hsize⟩ := h.exists_name
  obtain rfl : name' = name := Option.some.inj (hends.fileName?_eq.symm.trans hp.fileName?_eq)
  obtain rfl : before' = before :=
    List.append_cancel_right (hends.toList_text.symm.trans hp.toList_text)
  exact ⟨directory, hfollow, rfl, hsize⟩

theorem getLast?_eq (h : d.LeadsTo p l) {before name : List Char} (hp : p.EndsIn before name) :
    l.getLast? = some (String.ofList name) := by
  obtain ⟨directory, -, rfl, -⟩ := h.exists_directory hp
  exact List.getLast?_concat

theorem exists_spot (h : d.LeadsTo p l) (hshort : IsShort p) : ∃ directory name,
    l = directory ++ [name] ∧ name.length ≤ 255 ∧
      d.spot p = .ok ⟨directory, .name name, false⟩ := by
  obtain ⟨directory, name, hl, hsize, hwalk⟩ := h.exists_walk
  exact ⟨directory, name, hl, hsize, spot_eq_ok_iff.mpr ⟨h.hasNul_eq, hshort, hwalk⟩⟩

end LeadsTo

theorem leadsTo_of_walk {p : Path} {s : Spot} {name : String} (h : d.walk p = .ok s)
    (hlast : s.last = .name name) (hslash : s.slash = false) (hsize : name.length ≤ 255) :
    d.LeadsTo p (s.directory ++ [name]) := by
  obtain ⟨hnul, -⟩ := walk_name_eq_ok h hlast
  obtain ⟨before, hends⟩ := exists_endsIn_of_walk h hlast hslash
  rw [walk_eq hends hnul] at h
  obtain ⟨directory, hfollow, rfl⟩ := Except.map_eq_ok_iff.mp h
  refine ⟨hnul, before, name.toList, directory, hends, hfollow, ?_, ?_⟩
  · rw [String.ofList_toList]
  · rwa [String.ofList_toList]

theorem resolve_name_eq_ok_iff {directory : Location} {name : String} {l : Location} {n : Node}
    (hsize : name.length ≤ 255) :
    d.resolve ⟨directory, .name name, false⟩ = .ok (l, n) ↔
      l = directory ++ [name] ∧ d.node? l = some n := by
  have hchild : d.child directory name = .ok (d.node? (directory ++ [name])) :=
    child_eq_ok_iff.mpr ⟨hsize, rfl⟩
  cases hnode : d.node? (directory ++ [name]) with
  | none =>
    have herror : d.resolve ⟨directory, .name name, false⟩ = .error .notFound := by
      simp only [resolve, hchild, hnode]
      rfl
    rw [herror]
    constructor
    · rintro ⟨⟩
    · rintro ⟨rfl, h⟩
      rw [hnode] at h
      cases h
  | some n' =>
    have hok : d.resolve ⟨directory, .name name, false⟩ = .ok (directory ++ [name], n') := by
      simp only [resolve, hchild, hnode]
      cases n' <;> rfl
    constructor
    · intro h
      obtain ⟨rfl, rfl⟩ := Prod.mk.inj (Except.ok.inj (hok.symm.trans h))
      exact ⟨rfl, hnode⟩
    · rintro ⟨rfl, h⟩
      rw [hnode] at h
      rw [hok, Option.some.inj h]

/-- What is found at a path that leads to a place is what is at the place. -/
theorem LeadsTo.find_eq_ok_iff {p : Path} {l m : Location} {n : Node} (h : d.LeadsTo p l)
    (hshort : IsShort p) : d.find p = .ok (m, n) ↔ m = l ∧ d.node? l = some n := by
  obtain ⟨directory, name, rfl, hsize, hspot⟩ := h.exists_spot hshort
  unfold find
  rw [hspot]
  refine (resolve_name_eq_ok_iff hsize).trans ?_
  constructor
  · rintro ⟨rfl, hnode⟩
    exact ⟨rfl, hnode⟩
  · rintro ⟨rfl, hnode⟩
    exact ⟨rfl, hnode⟩

theorem resolve_file_eq_ok {s : Spot} {l : Location} {id : FileId} {content : ByteArray}
    (h : d.resolve s = .ok (l, .file id content)) :
    ∃ name, s.last = .name name ∧ s.slash = false ∧ name.length ≤ 255 := by
  obtain ⟨directory, last, slash⟩ := s
  cases last with
  | itself => cases h
  | up => cases h
  | name name =>
    obtain ⟨node, hchild, h⟩ := Except.bind_eq_ok_iff.mp h
    obtain ⟨hsize, rfl⟩ := child_eq_ok_iff.mp hchild
    refine ⟨name, rfl, ?_, hsize⟩
    cases slash with
    | false => rfl
    | true =>
      exfalso
      split at h <;> cases h

/-- A file is found at a path that leads to its place. -/
theorem exists_leadsTo_of_find {p : Path} {l : Location} {id : FileId} {content : ByteArray}
    (h : d.find p = .ok (l, .file id content)) :
    d.LeadsTo p l ∧ IsShort p ∧ d.node? l = some (.file id content) := by
  obtain ⟨s, hspot, hresolve⟩ := Except.bind_eq_ok_iff.mp h
  obtain ⟨-, hshort, hwalk⟩ := spot_eq_ok_iff.mp hspot
  obtain ⟨name, hlast, hslash, hsize⟩ := resolve_file_eq_ok hresolve
  have hleads := leadsTo_of_walk hwalk hlast hslash hsize
  obtain ⟨directory, last, slash⟩ := s
  subst hlast hslash
  obtain ⟨rfl, hnode⟩ := (resolve_name_eq_ok_iff hsize).mp hresolve
  exact ⟨hleads, hshort, hnode⟩

/-! ### Questions -/

theorem file?_eq_some_iff {l : Location} {content : ByteArray} :
    d.file? l = some content ↔ ∃ id, d.node? l = some (.file id content) := by
  unfold file?
  split
  · rename_i id content' hnode
    simp [hnode]
  · rename_i hnode
    simp only [reduceCtorEq, false_iff, not_exists]
    exact fun id h => hnode id content h

theorem read_eq_ok_iff {p : Path} {content : ByteArray} :
    d.read p = .ok content ↔ IsShort p ∧ ∃ l, d.LeadsTo p l ∧ d.file? l = some content := by
  have hread : d.read p = .ok content ↔ ∃ l id, d.find p = .ok (l, .file id content) := by
    unfold read
    rw [Except.bind_eq_ok_iff]
    constructor
    · rintro ⟨⟨l, n⟩, hfind, h⟩
      cases n with
      | directory => cases h
      | file id content' =>
        obtain rfl := Except.ok.inj h
        exact ⟨l, id, hfind⟩
    · rintro ⟨l, id, hfind⟩
      exact ⟨_, hfind, rfl⟩
  rw [hread]
  constructor
  · rintro ⟨l, id, hfind⟩
    obtain ⟨hleads, hshort, hnode⟩ := exists_leadsTo_of_find hfind
    exact ⟨hshort, l, hleads, file?_eq_some_iff.mpr ⟨id, hnode⟩⟩
  · rintro ⟨hshort, l, hleads, hfile⟩
    obtain ⟨id, hnode⟩ := file?_eq_some_iff.mp hfile
    exact ⟨l, id, (hleads.find_eq_ok_iff hshort).mpr ⟨rfl, hnode⟩⟩

theorem isFile_iff {p : Path} :
    d.isFile p ↔ IsShort p ∧ ∃ l, d.LeadsTo p l ∧ (d.file? l).isSome := by
  have hfile : d.isFile p ↔ ∃ l id content, d.find p = .ok (l, .file id content) := by
    unfold isFile
    split
    · rename_i l id content hfind
      simp [hfind]
    · rename_i hfind
      simp only [Bool.false_eq_true, false_iff, not_exists]
      exact fun l id content h => hfind l id content h
  rw [hfile]
  constructor
  · rintro ⟨l, id, content, hfind⟩
    obtain ⟨hleads, hshort, hnode⟩ := exists_leadsTo_of_find hfind
    exact ⟨hshort, l, hleads, by rw [file?_eq_some_iff.mpr ⟨id, hnode⟩]; rfl⟩
  · rintro ⟨hshort, l, hleads, hsome⟩
    obtain ⟨content, hcontent⟩ := Option.isSome_iff_exists.mp hsome
    obtain ⟨id, hnode⟩ := file?_eq_some_iff.mp hcontent
    exact ⟨l, id, content, (hleads.find_eq_ok_iff hshort).mpr ⟨rfl, hnode⟩⟩

theorem LeadsTo.isPresent_iff {p : Path} {l : Location} (h : d.LeadsTo p l) (hshort : IsShort p) :
    d.isPresent p ↔ (d.node? l).isSome := by
  unfold isPresent
  constructor
  · intro hok
    cases hfind : d.find p with
    | error e =>
      rw [hfind] at hok
      cases hok
    | ok found =>
      obtain ⟨m, n⟩ := found
      rw [((h.find_eq_ok_iff hshort).mp hfind).2]
      rfl
  · intro hsome
    obtain ⟨n, hn⟩ := Option.isSome_iff_exists.mp hsome
    rw [(h.find_eq_ok_iff hshort).mpr ⟨rfl, hn⟩]
    rfl

theorem LeadsTo.canonical_eq_ok_iff {p q : Path} {l : Location} (h : d.LeadsTo p l) :
    d.canonical p = .ok q ↔ q = pathOf l ∧ (d.node? l).isSome := by
  obtain ⟨directory, name, rfl, hsize, hwalk⟩ := h.exists_walk
  unfold canonical
  rw [hwalk]
  constructor
  · intro hq
    obtain ⟨s, hs, hq⟩ := Except.bind_eq_ok_iff.mp hq
    obtain rfl := Except.ok.inj hs
    obtain ⟨⟨m, n⟩, hresolve, hq⟩ := Except.bind_eq_ok_iff.mp hq
    obtain ⟨rfl, hnode⟩ := (resolve_name_eq_ok_iff hsize).mp hresolve
    rw [hnode]
    exact ⟨(Except.ok.inj hq).symm, rfl⟩
  · rintro ⟨rfl, hsome⟩
    obtain ⟨n, hn⟩ := Option.isSome_iff_exists.mp hsome
    have hresolve := (resolve_name_eq_ok_iff hsize).mpr ⟨rfl, hn⟩
    exact Except.bind_eq_ok_iff.mpr ⟨_, rfl, Except.bind_eq_ok_iff.mpr ⟨_, hresolve, rfl⟩⟩

/-! ### Directories -/

theorem follow_eq_foldlM_steps (d : Disk) (p : Path) :
    d.follow p.text.toList = (steps p).foldlM d.enter (if p.isRelative then d.here else []) := by
  have hstart : (if p.text.toList.head? = some '/' then ([] : Location) else d.here) =
      if p.isRelative then d.here else [] := by
    by_cases hhead : p.text.toList.head? = some '/'
    · rw [if_pos hhead, if_neg (by rw [Path.isRelative_iff]; simpa using hhead)]
    · rw [if_neg hhead, if_pos (Path.isRelative_iff.mpr hhead)]
  rw [follow, hstart, steps, foldlM_enter_filter, Path.moves]

theorem steps_ne_nil {p : Path} (hne : p.text.toList ≠ []) (h : p.isRelative) : steps p ≠ [] := by
  obtain ⟨c, cs, hcs⟩ := List.exists_cons_of_ne_nil hne
  rw [Path.isRelative_iff, hcs] at h
  have hc : c ≠ '/' := by simpa using h
  obtain ⟨q, qs, hq⟩ := List.exists_cons_of_ne_nil (fields_ne_nil '/' cs)
  simp [steps, hcs, Text.fields, hc, hq, consFirst]

/-- A directory is found at the end of a walk if the last step leads there. -/
theorem resolve_ofStep_eq_directory_iff {l m : Location} {step : List Char} {slash : Bool} :
    d.resolve ⟨m, .ofStep step, slash⟩ = .ok (l, .directory) ↔ d.enter m step = .ok l := by
  by_cases hhere : step = ['.']
  · have hresolve : d.resolve ⟨m, .ofStep step, slash⟩ = .ok (m, .directory) := by
      rw [hhere]
      rfl
    rw [hresolve, hhere, enter_here]
    simp
  · by_cases hup : step = ['.', '.']
    · have hresolve : d.resolve ⟨m, .ofStep step, slash⟩ = .ok (m.dropLast, .directory) := by
        rw [hup]
        rfl
      rw [hresolve, hup, enter_up]
      simp
    · rw [enter_eq_ok_iff hhere hup, Last.ofStep_eq_name_iff.mpr ⟨rfl, hhere, hup⟩]
      refine Except.bind_eq_ok_iff.trans ?_
      constructor
      · rintro ⟨n, hchild, hresolve⟩
        obtain ⟨hsize, rfl⟩ := child_eq_ok_iff.mp hchild
        split at hresolve
        · cases hresolve
        · rename_i hdirectory
          obtain ⟨rfl, -⟩ := Prod.mk.inj (Except.ok.inj hresolve)
          exact ⟨hsize, rfl, hdirectory⟩
        · cases slash <;> cases hresolve
      · rintro ⟨hsize, rfl, hdirectory⟩
        refine ⟨_, child_eq_ok_iff.mpr ⟨hsize, rfl⟩, ?_⟩
        rw [hdirectory]
        rfl

/-- A directory is found at a path if the text of the path leads there. -/
theorem find_eq_directory_iff {p : Path} {l : Location} :
    d.find p = .ok (l, .directory) ↔ hasNul p = false ∧ IsShort p ∧ p.text.toList ≠ [] ∧
      d.follow p.text.toList = .ok l := by
  suffices hwalk : hasNul p = false → p.text.toList ≠ [] →
      ((∃ s, d.walk p = .ok s ∧ d.resolve s = .ok (l, .directory)) ↔
        d.follow p.text.toList = .ok l) by
    refine Except.bind_eq_ok_iff.trans ?_
    constructor
    · rintro ⟨s, hspot, hresolve⟩
      obtain ⟨hnul, hshort, hs⟩ := spot_eq_ok_iff.mp hspot
      obtain ⟨-, hne⟩ := ne_of_walk_eq_ok hs
      exact ⟨hnul, hshort, hne, (hwalk hnul hne).mp ⟨s, hs, hresolve⟩⟩
    · rintro ⟨hnul, hshort, hne, hfollow⟩
      obtain ⟨s, hs, hresolve⟩ := (hwalk hnul hne).mpr hfollow
      exact ⟨s, spot_eq_ok_iff.mpr ⟨hnul, hshort, hs⟩, hresolve⟩
  intro hnul hne
  rw [follow_eq_foldlM_steps]
  rcases List.eq_nil_or_concat (steps p) with hsteps | ⟨ss, step, hsteps⟩
  · have hrelative : p.isRelative = false := by
      cases hrelative : p.isRelative with
      | false => rfl
      | true => exact absurd hsteps (steps_ne_nil hne hrelative)
    simp [walk_of_steps_eq_nil hnul hne hsteps, hsteps, hrelative, resolve, pure, Except.pure]
  · rw [List.concat_eq_append] at hsteps
    simp only [walk_of_steps hnul hne hsteps, hsteps, List.foldlM_append, List.foldlM_cons,
      List.foldlM_nil, bind_pure]
    constructor
    · rintro ⟨s, hs, hresolve⟩
      obtain ⟨m, hm, rfl⟩ := Except.map_eq_ok_iff.mp hs
      exact Except.bind_eq_ok_iff.mpr ⟨m, hm, resolve_ofStep_eq_directory_iff.mp hresolve⟩
    · intro h
      obtain ⟨m, hm, henter⟩ := Except.bind_eq_ok_iff.mp h
      exact ⟨_, Except.map_eq_ok_iff.mpr ⟨m, hm, rfl⟩, resolve_ofStep_eq_directory_iff.mpr henter⟩

end Ensemble.Disk
