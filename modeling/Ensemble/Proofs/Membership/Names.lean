import Ensemble.Proofs.Membership.Kinds
import Ensemble.Proofs.Path.Moves

/-!
# The paths around a static file are apart

Around a static file stand the files of its layout and, while one of them gets new content, the
temporary file that takes it. Their names (`Layout.Name`) differ in what is put at the end of the
name of the static file (`Layout.Name.ending_inj`). Whatever that name is, the paths then take
different steps, and the name of a dynamic file tells its version and the proposal beside it
(`Layout.names_readBack_and_apart`).

A path that ends in no name, such as `a/..` or `a/.`, is a case of its own: `.tmp` then comes after
its last step and not in place of it (`Path.moves_temporary`).
-/

namespace Ensemble

open Text

namespace Path

/-- The temporary file has a name of its own after the steps of its target, in place of the last
step where that is a name. -/
theorem moves_temporary (p : Path) :
    (∃ front x, x ≠ ['.', '.'] ∧ moves p.text.toList = front ++ [x] ∧
      moves p.temporary.text.toList = front ++ [x ++ ".tmp".toList]) ∨
    p.fileName? = none ∧ moves p.temporary.text.toList = moves p.text.toList ++ [".tmp".toList] := by
  have hname : ∀ {x : List Char}, '/' ∉ x → IsName (x ++ ".tmp".toList) := fun hx =>
    isName_of_length (by simp [hx]) (by simp)
  unfold temporary
  cases hp : p.fileName? with
  | none => exact Or.inr ⟨rfl, moves_withFileName (hname (by simp)) hp⟩
  | some x =>
    have hup : x ≠ ['.', '.'] := by simpa using (Option.filter_eq_some_iff.mp hp).2
    obtain ⟨front, hmoves, htemporary⟩ :=
      exists_moves_withFileName (hname (separator_not_mem_of_fileName? hp)) hp
    exact Or.inl ⟨front, x, hup, hmoves, htemporary⟩

/-- No file is its own temporary file. -/
theorem moves_temporary_ne (p : Path) : moves p.temporary.text.toList ≠ moves p.text.toList := by
  intro heq
  rcases p.moves_temporary with ⟨front, x, -, hmoves, htemporary⟩ | ⟨-, htemporary⟩
  · rw [htemporary, hmoves] at heq
    have hlast := List.singleton_inj.mp (List.append_cancel_left heq)
    simp at hlast
  · rw [htemporary] at heq
    simp at heq

end Path

namespace Layout

/-! ### Names -/

/-- What a path around a static file is the name of: a file of the layout, or the temporary file that
takes new content for one. -/
inductive Name
  | file (k : Kind)
  | temporary (k : Kind)
deriving DecidableEq

namespace Name

def kind : Name → Kind
  | file k => k
  | temporary k => k

/-- What stands after the name of the static file. -/
def ending : Name → String
  | file k => k.suffix
  | temporary k => k.suffix ++ ".tmp"

theorem ending_inj {n n' : Name} (h : n.ending = n'.ending) : n = n' := by
  cases n with
  | file k =>
    cases n' with
    | file k' => rw [Kind.suffix_inj h]
    | temporary k' => exact absurd h (Kind.suffix_ne_temporary k k')
  | temporary k =>
    cases n' with
    | file k' => exact absurd h.symm (Kind.suffix_ne_temporary k' k)
    | temporary k' =>
      have hsuffix := congrArg String.toList h
      simp only [ending, String.toList_append] at hsuffix
      rw [Kind.suffix_inj (String.toList_inj.mp (List.append_cancel_right hsuffix))]

/-- The endings of the other files start with a dot and a letter, which is not that of `.tmp`. -/
theorem exists_ending {n : Name} (h : n.kind ≠ .static) :
    ∃ c cs, n.ending.toList = '.' :: c :: cs ∧ c ≠ 't' := by
  have hsuffix : ∃ c cs, n.kind.suffix.toList = '.' :: c :: cs ∧ c ≠ 't' := by
    cases hk : n.kind with
    | static => exact absurd hk h
    | dynamic v =>
      exact ⟨'d', "ynamic.".toList ++ (hex v.toNat).toList, by simp [Kind.suffix], by decide⟩
    | next => exact ⟨'d', "ynamic.next".toList, rfl, by decide⟩
    | beside v =>
      exact ⟨'d', ("ynamic." ++ hex v.toNat ++ ".next").toList, by simp [Kind.suffix], by decide⟩
    | backup => exact ⟨'b', "ak".toList, rfl, by decide⟩
  obtain ⟨c, cs, hcs, hc⟩ := hsuffix
  cases n with
  | file k => exact ⟨c, cs, hcs, hc⟩
  | temporary k =>
    refine ⟨c, cs ++ ".tmp".toList, ?_, hc⟩
    rw [kind] at hcs
    rw [ending, String.toList_append, hcs]
    rfl

end Name

/-! ### Paths -/

/-- The path of a name. -/
def path (l : Layout) : Name → Path
  | .file k => l.file k
  | .temporary k => (l.file k).temporary

variable {l : Layout} {before : List Char} {name : String} {n n' : Name}

/-- Where a name is made from that of the static file, it is the last step of its path. -/
theorem moves_path (hends : l.staticFile.EndsInField before name.toList)
    (hn : n.kind ≠ .static ∨ Path.IsName name.toList) :
    Path.moves (l.path n).text.toList = Path.moves before ++ [(name ++ n.ending).toList] := by
  have hname : Path.IsName (name ++ n.kind.suffix).toList := by
    by_cases hk : n.kind = .static
    · rw [hk]
      simpa [Kind.suffix] using hn.resolve_left (not_not_intro hk)
    · exact Kind.isName_append_suffix hends.noSeparator hk
  cases n with
  | file k => exact ((file_endsInField hends k).endsIn hname).moves_eq
  | temporary k =>
    have hfile := (file_endsInField hends k).endsIn hname
    rcases (l.file k).moves_temporary with ⟨front, x, -, hmoves, htemporary⟩ | ⟨hnone, -⟩
    · rw [hfile.moves_eq] at hmoves
      obtain ⟨rfl, hx⟩ := List.append_inj' hmoves rfl
      rw [path, htemporary, ← List.singleton_inj.mp hx]
      simp [Name.ending]
    · rw [hfile.fileName?_eq] at hnone
      cases hnone

/-- Where the static path ends in no name, its last field is no step or one back. -/
theorem moves_staticFile (hends : l.staticFile.EndsInField before name.toList)
    (hname : ¬ Path.IsName name.toList) :
    Path.moves l.staticFile.text.toList = Path.moves before ∧
      (name.toList = [] ∨ name.toList = ['.']) ∨
    Path.moves l.staticFile.text.toList = Path.moves before ++ [['.', '.']] ∧
      name.toList = ['.', '.'] := by
  have hfield : name.toList = [] ∨ name.toList = ['.'] ∨ name.toList = ['.', '.'] := by
    by_contra hfield
    simp only [not_or] at hfield
    exact hname ⟨⟨hfield.1, hends.noSeparator, hfield.2.1⟩, hfield.2.2⟩
  rw [hends.toList_text, Path.moves_append_field hends.last hends.noSeparator]
  rcases hfield with hfield | hfield | hfield <;> simp [hfield, Path.isFiller]

/-- Where the static path ends in no name, the other names are not taken for it or for its temporary
file. -/
theorem moves_path_ne (hends : l.staticFile.EndsInField before name.toList)
    (hname : ¬ Path.IsName name.toList) (hn : n.kind ≠ .static) (hn' : n'.kind = .static) :
    Path.moves (l.path n).text.toList ≠ Path.moves (l.path n').text.toList := by
  obtain ⟨c, cs, hending, hc⟩ := Name.exists_ending hn
  have hstatic := moves_staticFile hends hname
  rw [moves_path hends (Or.inl hn), String.toList_append, hending]
  cases n' with
  | file k =>
    obtain rfl : k = .static := hn'
    change _ ≠ Path.moves l.staticFile.text.toList
    rcases hstatic with ⟨hstatic, -⟩ | ⟨hstatic, hup⟩
    · simp [hstatic]
    · simp [hstatic, hup]
  | temporary k =>
    obtain rfl : k = .static := hn'
    change _ ≠ Path.moves l.staticFile.temporary.text.toList
    rcases l.staticFile.moves_temporary with ⟨front, x, hx, hmoves, htemporary⟩ | ⟨-, htemporary⟩
    · -- The target ends in a name that is not its last field, so that field is a filler.
      intro heq
      rw [htemporary] at heq
      obtain ⟨rfl, -⟩ := List.append_inj' heq rfl
      rcases hstatic with ⟨hstatic, -⟩ | ⟨hstatic, -⟩
      · simp [hstatic] at hmoves
      · rw [hstatic] at hmoves
        exact hx (List.singleton_inj.mp (List.append_cancel_left hmoves)).symm
    · rw [htemporary]
      rcases hstatic with ⟨hstatic, hfield | hfield⟩ | ⟨hstatic, -⟩
      · simp [hstatic, hfield, hc]
      · simp [hstatic, hfield]
      · simp [hstatic]

/-- The static file and its temporary file are apart. -/
theorem eq_of_kind_eq_static (hn : n.kind = .static) (hn' : n'.kind = .static)
    (h : Path.moves (l.path n).text.toList = Path.moves (l.path n').text.toList) : n = n' := by
  cases n with
  | file k =>
    obtain rfl : k = .static := hn
    cases n' with
    | file k' => rw [show k' = .static from hn']
    | temporary k' =>
      obtain rfl : k' = .static := hn'
      exact absurd h.symm (Path.moves_temporary_ne _)
  | temporary k =>
    obtain rfl : k = .static := hn
    cases n' with
    | file k' =>
      obtain rfl : k' = .static := hn'
      exact absurd h (Path.moves_temporary_ne _)
    | temporary k' => rw [show k' = .static from hn']

/-- **The paths of a layout are apart**: no two of them take the same steps. -/
theorem path_inj (h : (l.path n).sameSteps (l.path n')) : n = n' := by
  obtain ⟨before, name, hends⟩ := l.exists_endsInField_name
  have hmoves := Path.moves_eq_of_sameSteps h
  by_cases hname : Path.IsName name.toList ∨ (n.kind ≠ .static ∧ n'.kind ≠ .static)
  · rw [moves_path hends (hname.symm.imp_left And.left),
      moves_path hends (hname.symm.imp_left And.right)] at hmoves
    have hlast := List.singleton_inj.mp (List.append_cancel_left hmoves)
    rw [String.toList_append, String.toList_append] at hlast
    exact Name.ending_inj (String.toList_inj.mp (List.append_cancel_left hlast))
  · rw [not_or] at hname
    by_cases hn : n.kind = .static
    · by_cases hn' : n'.kind = .static
      · exact eq_of_kind_eq_static hn hn' hmoves
      · exact absurd hmoves.symm (moves_path_ne hends hname.1 hn' hn)
    · have hn' : n'.kind = .static := by
        by_contra hn'
        exact hname.2 ⟨hn, hn'⟩
      exact absurd hmoves (moves_path_ne hends hname.1 hn hn')

theorem path_sameSteps_iff : (l.path n).sameSteps (l.path n') ↔ n = n' := by
  refine ⟨path_inj, ?_⟩
  rintro rfl
  exact beq_self_eq_true _

/-- **The names of a layout** can be told apart, if the name of the static file is a text: a dynamic
file states its version and the proposal beside it, files of different versions are different, and so
are all files of the layout and their temporary files. -/
theorem names_readBack_and_apart (l : Layout) (htext : l.staticFile.IsNamedByText) :
    (∀ v, (l.dynamicFile v).version? = some v) ∧
    (∀ v, (l.dynamicFile v).nextFile = l.nextFile) ∧
    (∀ v u, (l.dynamicFile v).sameSteps (l.dynamicFile u) ↔ v = u) ∧
    ∀ n n', (l.path n).sameSteps (l.path n') ↔ n = n' := by
  have hdynamic : ∀ v u, (l.dynamicFile v).sameSteps (l.dynamicFile u) ↔ v = u := by
    intro v u
    have hname := @path_sameSteps_iff l (.file (.dynamic v)) (.file (.dynamic u))
    simpa [path, file] using hname
  exact ⟨version?_dynamicFile htext, nextFile_dynamicFile htext, hdynamic,
    fun _ _ => path_sameSteps_iff⟩

/-- The name need not be made of letters that are one byte each. -/
theorem names_readBack_and_apart_accented :
    ((Layout.mk (.ofText "/zoé.cfg")).dynamicFile 31).version? = some 31 ∧
      ((Layout.mk (.ofText "/zoé.cfg")).dynamicFile 31).nextFile = .ofText "/zoé.cfg.dynamic.next" := by
  obtain ⟨hversion, hnext, -, -⟩ := names_readBack_and_apart ⟨.ofText "/zoé.cfg"⟩
    (Path.IsText.isNamedByText ⟨_, rfl⟩)
  refine ⟨hversion 31, ?_⟩
  rw [hnext]
  decide +kernel

end Layout

end Ensemble
