import Ensemble.Proofs.Disk.Files

/-!
# Paths from the top

The path of a location in a directory that is reachable from the top (`Disk.IsReachable`) leads to
that location (`IsReachable.leadsTo_pathOf`), so a canonical path leads where the path leads that it
is made of. Directories that a path leads to are reachable as soon as the working directory is
(`IsReachable.follow`).
-/

namespace Ensemble.Disk

open Text

variable {d : Disk}

/-- A name that can stand in a directory: short enough, and no text that paths give a meaning. -/
structure IsEntryName (name : String) : Prop where
  isName : Path.IsName name.toList
  noNul : Char.ofNat 0 ∉ name.toList
  size : name.length ≤ 255

/-- The way from the top to a location goes through directories only. -/
structure IsReachable (d : Disk) (l : Location) : Prop where
  name : ∀ n ∈ l, IsEntryName n
  directory : ∀ m, m <+: l → d.node? m = some .directory

/-! ### The way to a directory -/

theorem isReachable_nil (d : Disk) : d.IsReachable [] := by
  refine ⟨by simp, fun m hm => ?_⟩
  rw [List.prefix_nil.mp hm]
  rfl

namespace IsReachable

variable {l m : Location}

theorem dropLast (h : d.IsReachable l) : d.IsReachable l.dropLast :=
  ⟨fun n hn => h.name n (List.dropLast_subset l hn),
    fun m hm => h.directory m (hm.trans (List.dropLast_prefix l))⟩

theorem append {n : String} (h : d.IsReachable l) (hn : IsEntryName n)
    (hdirectory : d.node? (l ++ [n]) = some .directory) : d.IsReachable (l ++ [n]) := by
  constructor
  · intro n' hn'
    rcases List.mem_append.mp hn' with hn' | hn'
    · exact h.name n' hn'
    · rw [List.mem_singleton.mp hn']
      exact hn
  · intro m hm
    rcases List.prefix_concat_iff.mp hm with rfl | hm
    · exact hdirectory
    · exact h.directory m hm

theorem enter {s : List Char} (h : d.IsReachable l) (hs : Path.IsStep s) (hnul : Char.ofNat 0 ∉ s)
    (henter : d.enter l s = .ok m) : d.IsReachable m := by
  by_cases hup : s = ['.', '.']
  · rw [hup, enter_up] at henter
    rw [← Except.ok.inj henter]
    exact h.dropLast
  · obtain ⟨hsize, rfl, hdirectory⟩ := (enter_eq_ok_iff hs.ne_here hup).mp henter
    refine h.append ⟨⟨by simpa using hs, by simpa using hup⟩, by simpa using hnul, hsize⟩ hdirectory

/-- Directories that a text leads to are reachable. -/
theorem follow {cs : List Char} (hhere : d.IsReachable d.here) (hnul : Char.ofNat 0 ∉ cs)
    (h : d.follow cs = .ok l) : d.IsReachable l := by
  have hstart : d.IsReachable (if cs.head? = some '/' then [] else d.here) := by
    split
    · exact isReachable_nil d
    · exact hhere
  have hmoves : ∀ s ∈ Path.moves cs, Path.IsStep s ∧ Char.ofNat 0 ∉ s := by
    intro s hs
    obtain ⟨hfields, hfiller⟩ := List.mem_filter.mp hs
    have hne : s ≠ [] ∧ s ≠ ['.'] := by simpa [Path.isFiller] using hfiller
    refine ⟨⟨hne.1, not_mem_of_mem_fields hfields, hne.2⟩, fun hc => hnul ?_⟩
    have hsub := flatten_sublist_intercalate '/' (Text.fields '/' cs)
    rw [intercalate_fields] at hsub
    exact hsub.subset (List.mem_flatten.mpr ⟨s, hfields, hc⟩)
  have hfold : ∀ (ss : List (List Char)) (a : Location), (∀ s ∈ ss, Path.IsStep s ∧ Char.ofNat 0 ∉ s) →
      d.IsReachable a → ss.foldlM d.enter a = .ok l → d.IsReachable l := by
    intro ss
    induction ss with
    | nil =>
      intro a _ ha hl
      rwa [← Except.ok.inj hl]
    | cons s ss ih =>
      intro a hss ha hl
      rw [List.foldlM_cons] at hl
      obtain ⟨b, hb, hl⟩ := Except.bind_eq_ok_iff.mp hl
      obtain ⟨hstep, hs⟩ := hss s (by simp)
      exact ih b (fun t ht => hss t (by simp [ht])) (ha.enter hstep hs hb) hl
  exact hfold _ _ hmoves hstart h

end IsReachable

/-- The place that a path leads to is a name in a reachable directory. -/
theorem LeadsTo.exists_reachable {p : Path} {l : Location} (h : d.LeadsTo p l)
    (hhere : d.IsReachable d.here) : ∃ before name directory, p.EndsIn before name ∧
      d.follow before = .ok directory ∧ l = directory ++ [String.ofList name] ∧
        IsEntryName (String.ofList name) ∧ d.IsReachable directory := by
  obtain ⟨before, name, directory, hends, hfollow, hl, hsize⟩ := h.exists_name
  have hnul := hasNul_eq_false_iff.mp h.hasNul_eq
  rw [hends.toList_text, List.mem_append, not_or] at hnul
  refine ⟨before, name, directory, hends, hfollow, hl, ⟨?_, ?_, hsize⟩, ?_⟩
  · rw [String.toList_ofList]
    exact hends.isName
  · rw [String.toList_ofList]
    exact hnul.2
  · exact IsReachable.follow hhere hnul.1 hfollow

/-! ### The path of a location -/

/-- The text of the path of a directory, with a separator at its end. -/
def directoryText (l : Location) : List Char := '/' :: l.flatMap fun n => n.toList ++ ['/']

theorem last_directoryText (l : Location) : ∀ c ∈ (directoryText l).getLast?, c = '/' := by
  intro c hc
  rcases List.eq_nil_or_concat l with rfl | ⟨l', n, rfl⟩
  · simpa [directoryText, eq_comm] using hc
  · have hlast : (directoryText (l' ++ [n])).getLast? = some '/' := by
      simp only [directoryText, List.flatMap_append, List.flatMap_singleton]
      rw [← List.append_assoc, ← List.cons_append, List.getLast?_concat]
    rw [List.concat_eq_append, hlast] at hc
    exact (Option.some.inj hc).symm

theorem toList_pathOf_concat (l : Location) (n : String) :
    (pathOf (l ++ [n])).text.toList = directoryText l ++ n.toList := by
  have hjoined : ['/'].intercalate ((l ++ [n]).map String.toList) =
      (l.flatMap fun n => n.toList ++ ['/']) ++ n.toList := by
    induction l with
    | nil => simp
    | cons m l ih =>
      obtain ⟨m', ms, hms⟩ := List.exists_cons_of_ne_nil (l := (l ++ [n]).map String.toList) (by simp)
      rw [List.cons_append, List.map_cons, hms, List.intercalate_cons_cons, ← hms, ih]
      simp
  have htext : (pathOf (l ++ [n])).text.toList =
      '/' :: ['/'].intercalate ((l ++ [n]).map String.toList) := by
    simp [pathOf, String.toList_intercalate]
  rw [htext, hjoined]
  rfl

theorem append_pathOf_concat (l : Location) (n suffix : String) :
    (pathOf (l ++ [n])).append suffix = pathOf (l ++ [n ++ suffix]) := by
  have htext : ((pathOf (l ++ [n])).append suffix).text = (pathOf (l ++ [n ++ suffix])).text := by
    rw [← String.toList_inj, toList_pathOf_concat]
    simp [Path.append, toList_pathOf_concat]
  exact congrArg Path.mk htext

theorem pathOf_endsIn (l : Location) {n : String} (h : Path.IsName n.toList) :
    (pathOf (l ++ [n])).EndsIn (directoryText l) n.toList :=
  ⟨⟨toList_pathOf_concat l n, last_directoryText l, h.toIsStep⟩, h.ne_up⟩

theorem moves_directoryText {l : Location} (h : ∀ n ∈ l, Path.IsName n.toList) :
    Path.moves (directoryText l) = l.map String.toList := by
  rw [directoryText, Path.moves_cons_sep]
  induction l with
  | nil => exact Path.moves_nil
  | cons n l ih =>
    have hn := h n (by simp)
    rw [List.flatMap_cons, List.append_assoc, List.singleton_append, Path.moves_append_sep,
      Path.moves_name hn, ih fun m hm => h m (by simp [hm])]
    rfl

namespace IsReachable

variable {l : Location}

/-- The names of a reachable directory lead to it, from the directory that some of them lead to. -/
theorem foldlM_enter {a b : Location} (h : d.IsReachable (a ++ b)) :
    (b.map String.toList).foldlM d.enter a = .ok (a ++ b) := by
  induction b generalizing a with
  | nil =>
    rw [List.append_nil]
    rfl
  | cons n b ih =>
    have hn := h.name n (by simp)
    have hassoc : a ++ n :: b = (a ++ [n]) ++ b := by simp
    rw [hassoc] at h
    have henter : d.enter a n.toList = .ok (a ++ [n]) := by
      rw [enter_eq_ok_iff hn.isName.ne_here hn.isName.ne_up, String.ofList_toList]
      exact ⟨hn.size, rfl, h.directory _ (List.prefix_append _ _)⟩
    rw [List.map_cons, List.foldlM_cons, henter, hassoc]
    exact ih h

theorem follow_directoryText (h : d.IsReachable l) : d.follow (directoryText l) = .ok l := by
  unfold Disk.follow
  rw [moves_directoryText fun n hn => (h.name n hn).isName]
  exact foldlM_enter (a := []) h

/-- **The path of a location** in a reachable directory leads there. -/
theorem leadsTo_pathOf (h : d.IsReachable l) {n : String} (hn : IsEntryName n) :
    d.LeadsTo (pathOf (l ++ [n])) (l ++ [n]) := by
  refine ⟨?_, directoryText l, n.toList, l, pathOf_endsIn l hn.isName, h.follow_directoryText, ?_, ?_⟩
  · rw [hasNul_eq_false_iff, toList_pathOf_concat]
    intro hc
    rcases List.mem_append.mp hc with hc | hc
    · rcases List.mem_cons.mp hc with hc | hc
      · exact absurd hc (by decide)
      · obtain ⟨m, hm, hc⟩ := List.mem_flatMap.mp hc
        rcases List.mem_append.mp hc with hc | hc
        · exact (h.name m hm).noNul hc
        · exact absurd (List.mem_singleton.mp hc) (by decide)
    · exact hn.noNul hc
  · rw [String.ofList_toList]
  · rw [String.ofList_toList]
    exact hn.size

/-- It leads nowhere else, however long its name is. -/
theorem eq_of_leadsTo_pathOf (h : d.IsReachable l) {n : String} (hn : Path.IsName n.toList)
    {m : Location} (hm : d.LeadsTo (pathOf (l ++ [n])) m) : m = l ++ [n] := by
  obtain ⟨directory, name, rfl, -, hwalk⟩ := hm.exists_walk
  rw [walk_eq (pathOf_endsIn l hn) hm.hasNul_eq, h.follow_directoryText] at hwalk
  obtain ⟨rfl, hname, -⟩ := Spot.mk.inj (Except.ok.inj hwalk)
  rw [← Last.name.inj hname, String.ofList_toList]

end IsReachable

/-- Paths to files from the top are told apart by where they lead. -/
theorem LeadsTo.eq_of_pathOf_eq {p : Path} {l m : Location} (hhere : d.IsReachable d.here)
    (hp : d.LeadsTo p m) (h : d.LeadsTo (pathOf l) l) (heq : pathOf l = pathOf m) : m = l := by
  obtain ⟨-, name, directory, -, -, rfl, hname, hdirectory⟩ := hp.exists_reachable hhere
  have hm := hdirectory.leadsTo_pathOf hname
  rw [← heq] at hm
  exact hm.unique h

end Ensemble.Disk
