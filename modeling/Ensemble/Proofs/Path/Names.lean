import Ensemble.Path
import Ensemble.Proofs.Text.Fields

/-!
# Paths that end in a name

A path to a file is a text that is empty or ends in a separator, and then a name
(`Path.EndsIn`). Its last step is the name (`EndsIn.fileName?_eq`), and its parent is made of the parts
of the text before the name (`EndsIn.exists_parent?`).
-/

namespace Ensemble.Path

open Text

/-- A step that is neither empty nor `.`. -/
structure IsStep (step : List Char) : Prop where
  ne_nil : step ≠ []
  noSeparator : '/' ∉ step
  ne_here : step ≠ ['.']

/-- A step that is not `..` either. -/
structure IsName (name : List Char) : Prop extends IsStep name where
  ne_up : name ≠ ['.', '.']

/-- The text of a path is `before`, which is empty or ends in a separator, and then a step. -/
structure EndsInStep (p : Path) (before step : List Char) : Prop where
  toList_text : p.text.toList = before ++ step
  last : ∀ c ∈ before.getLast?, c = '/'
  isStep : IsStep step

/-- The path ends in a step that is a name. -/
structure EndsIn (p : Path) (before name : List Char) : Prop extends EndsInStep p before name where
  ne_up : name ≠ ['.', '.']

/-! ### Names -/

/-- A step of three characters or more is no `.` and no `..`. -/
theorem isName_of_length {name : List Char} (hname : '/' ∉ name) (hlen : 3 ≤ name.length) :
    IsName name := by
  refine ⟨⟨?_, hname, ?_⟩, ?_⟩ <;> rintro rfl <;> simp at hlen

theorem IsName.append {name suffix : List Char} (h : IsName name) (hsuffix : '/' ∉ suffix) :
    IsName (name ++ suffix) := by
  obtain ⟨c, cs, rfl⟩ := List.exists_cons_of_ne_nil h.ne_nil
  refine ⟨⟨by simp, ?_, ?_⟩, ?_⟩
  · simp only [List.mem_append, not_or]
    exact ⟨h.noSeparator, hsuffix⟩
  · intro heq
    obtain ⟨rfl, hrest⟩ := List.cons.inj heq
    obtain ⟨rfl, -⟩ := List.append_eq_nil_iff.mp hrest
    exact h.ne_here rfl
  · intro heq
    obtain ⟨rfl, hrest⟩ := List.cons.inj heq
    rcases List.append_eq_singleton_iff.mp hrest with ⟨rfl, -⟩ | ⟨rfl, -⟩
    · exact h.ne_here rfl
    · exact h.ne_up rfl

theorem IsStep.isFiller_eq {step : List Char} (h : IsStep step) : isFiller step = false := by
  simp [isFiller, h.ne_nil, h.ne_here]

theorem IsStep.head?_ne {step : List Char} (h : IsStep step) : step.head? ≠ some '/' := fun hc =>
  h.noSeparator (List.mem_of_head? hc)

/-! ### Fields before a name -/

/-- A text that is empty or ends in a separator has an empty last field. -/
theorem fields_eq_dropLast_concat {cs : List Char} (h : ∀ c ∈ cs.getLast?, c = '/') :
    fields '/' cs = (fields '/' cs).dropLast ++ [[]] := by
  rcases List.eq_nil_or_concat cs with rfl | ⟨ds, c, rfl⟩
  · rfl
  · have hc : c = '/' := h c (by simp)
    rw [hc, List.concat_eq_append, fields_append_sep]
    simp [fields]

theorem fields_append_name {cs name : List Char} (h : ∀ c ∈ cs.getLast?, c = '/')
    (hname : '/' ∉ name) : fields '/' (cs ++ name) = (fields '/' cs).dropLast ++ [name] := by
  rcases List.eq_nil_or_concat cs with rfl | ⟨ds, c, rfl⟩
  · exact fields_of_not_mem hname
  · have hc : c = '/' := h c (by simp)
    rw [hc, List.concat_eq_append, List.append_assoc, List.singleton_append, fields_append_sep,
      fields_append_sep, fields_of_not_mem hname]
    simp [fields]

theorem intercalate_dropLast_fields {cs name : List Char} (h : ∀ c ∈ cs.getLast?, c = '/')
    (hname : '/' ∉ name) :
    ['/'].intercalate ((fields '/' cs).dropLast ++ [name]) = cs ++ name := by
  rw [← fields_append_name h hname, intercalate_fields]

theorem getLast?_of_suffix {cs ds : List Char} (h : ds <:+ cs) (hcs : ∀ c ∈ cs.getLast?, c = '/') :
    ∀ c ∈ ds.getLast?, c = '/' := by
  obtain ⟨before, rfl⟩ := h
  intro c hc
  refine hcs c ?_
  rw [List.getLast?_append, Option.mem_def.mp hc]
  rfl

/-! ### Anchors -/

theorem cutAnchor_cases (cs : List Char) :
    (∃ ds, cs = '/' :: ds ∧ cutAnchor cs = (.top, ds)) ∨
    (cs = ['.'] ∧ cutAnchor cs = (.here, [])) ∨
    (∃ ds, cs = '.' :: '/' :: ds ∧ cutAnchor cs = (.here, '/' :: ds)) ∨
    (cs.head? ≠ some '/' ∧ cs ≠ ['.'] ∧ ¬ ['.', '/'] <+: cs ∧ cutAnchor cs = (.bare, cs)) := by
  rw [cutAnchor.eq_def]
  split
  · exact Or.inl ⟨_, rfl, rfl⟩
  · exact Or.inr (Or.inl ⟨rfl, rfl⟩)
  · exact Or.inr (Or.inr (Or.inl ⟨_, rfl, rfl⟩))
  · rename_i htop hhere hlocal
    refine Or.inr (Or.inr (Or.inr ⟨?_, hhere, ?_, rfl⟩))
    · intro h
      cases cs with
      | nil => cases h
      | cons c ds => exact htop ds (by rw [Option.some.inj h])
    · rintro ⟨ds, rfl⟩
      exact hlocal ds rfl

theorem isRelative_iff {p : Path} : p.isRelative ↔ p.text.toList.head? ≠ some '/' := by
  unfold isRelative anchor
  rcases cutAnchor_cases p.text.toList with ⟨ds, hcs, hcut⟩ | ⟨hcs, hcut⟩ | ⟨ds, hcs, hcut⟩ |
    ⟨hhead, -, -, hcut⟩
  · rw [hcut, hcs]
    simp
  · rw [hcut, hcs]
    simp
  · rw [hcut, hcs]
    simp
  · rw [hcut]
    simp [hhead]

namespace EndsInStep

variable {p : Path} {before step : List Char}

theorem isRelative_iff (h : p.EndsInStep before step) : p.isRelative ↔ before.head? ≠ some '/' := by
  rw [Path.isRelative_iff, h.toList_text]
  cases before with
  | nil => simpa using h.isStep.head?_ne
  | cons c before => simp

/-- What stands between the anchor and the step. -/
theorem exists_cutAnchor (h : p.EndsInStep before step) :
    ∃ rest, before = p.anchor.chars ++ rest ∧ (cutAnchor p.text.toList).2 = rest ++ step ∧
      (∀ c ∈ rest.getLast?, c = '/') ∧ (p.anchor = .here → rest.head? = some '/') := by
  unfold anchor
  rcases cutAnchor_cases p.text.toList with ⟨ds, hcs, hcut⟩ | ⟨hcs, hcut⟩ | ⟨ds, hcs, hcut⟩ |
    ⟨-, -, -, hcut⟩
  · rw [h.toList_text] at hcs
    cases before with
    | nil => exact absurd (congrArg List.head? hcs) h.isStep.head?_ne
    | cons c before =>
      obtain ⟨rfl, rfl⟩ := List.cons.inj hcs
      rw [hcut]
      exact ⟨before, rfl, rfl, getLast?_of_suffix (List.suffix_cons _ _) h.last, by simp⟩
  · rw [h.toList_text] at hcs
    cases before with
    | nil => exact absurd hcs h.isStep.ne_here
    | cons c before =>
      obtain ⟨rfl, hrest⟩ := List.cons.inj hcs
      exact absurd (List.append_eq_nil_iff.mp hrest).2 h.isStep.ne_nil
  · rw [h.toList_text] at hcs
    cases before with
    | nil =>
      refine absurd ?_ h.isStep.noSeparator
      rw [List.nil_append] at hcs
      simp [hcs]
    | cons c before =>
      obtain ⟨rfl, hrest⟩ := List.cons.inj hcs
      cases before with
      | nil => exact absurd (h.last '.' (by simp)) (by decide)
      | cons c' before =>
        obtain ⟨rfl, rfl⟩ := List.cons.inj hrest
        rw [hcut]
        exact ⟨'/' :: before, rfl, rfl, getLast?_of_suffix (List.suffix_cons _ _) h.last, by simp⟩
  · rw [hcut]
    exact ⟨before, rfl, h.toList_text, h.last, by simp⟩

/-! ### Parts -/

theorem dropFillers_concat {ps : List (List Char)} (h : IsStep step) :
    dropFillers (ps ++ [step]) = ps ++ [step] := by
  simp [dropFillers, h.isFiller_eq]

/-- The parts of the text between the anchor and the step. -/
theorem exists_parts (h : p.EndsInStep before step) :
    ∃ rest, before = p.anchor.chars ++ rest ∧ p.parts = (fields '/' rest).dropLast ++ [step] ∧
      (∀ c ∈ rest.getLast?, c = '/') ∧ (p.anchor = .here → rest.head? = some '/') := by
  obtain ⟨rest, hbefore, hcut, hlast, hhere⟩ := h.exists_cutAnchor
  refine ⟨rest, hbefore, ?_, hlast, hhere⟩
  rw [parts, hcut, fields_append_name hlast h.isStep.noSeparator]
  exact dropFillers_concat h.isStep

end EndsInStep

namespace EndsIn

variable {p : Path} {before name : List Char}

theorem isName (h : p.EndsIn before name) : IsName name := ⟨h.isStep, h.ne_up⟩

theorem fileName?_eq (h : p.EndsIn before name) : p.fileName? = some name := by
  obtain ⟨rest, -, hparts, -⟩ := h.exists_parts
  simp [fileName?, hparts, h.isName.ne_up]

/-! ### Longer names -/

theorem append (h : p.EndsIn before name) {suffix : String} (hsuffix : '/' ∉ suffix.toList) :
    (p.append suffix).EndsIn before (name ++ suffix.toList) := by
  have hname := h.isName.append hsuffix
  refine ⟨⟨?_, h.last, hname.toIsStep⟩, hname.ne_up⟩
  simp [Path.append, h.toList_text]

end EndsIn

/-- A path that leads from a base to a name ends in that name. -/
theorem exists_endsIn_join (base : Path) {name : List Char} (h : IsName name) :
    ∃ before, (base.join ⟨String.ofList name⟩).EndsIn before name := by
  have hrelative : Path.isRelative ⟨String.ofList name⟩ = true := by
    rw [isRelative_iff]
    simpa using h.head?_ne
  unfold join
  rw [hrelative]
  simp only [Bool.not_true, Bool.false_eq_true, if_false]
  split
  · rename_i hlast
    refine ⟨base.text.toList, ⟨by simp, ?_, h.toIsStep⟩, h.ne_up⟩
    simpa [Option.all_eq_true] using hlast
  · refine ⟨base.text.toList ++ ['/'], ⟨by simp, ?_, h.toIsStep⟩, h.ne_up⟩
    simp

namespace EndsIn

variable {p : Path} {before name : List Char}

/-! ### Parents -/

/-- The parent, as parts. -/
theorem exists_parent? (h : p.EndsIn before name) :
    ∃ rest, before = p.anchor.chars ++ rest ∧ (∀ c ∈ rest.getLast?, c = '/') ∧
      (p.anchor = .here → rest.head? = some '/') ∧
      p.parent? = some (ofParts p.anchor (dropFillers (fields '/' rest).dropLast)) := by
  obtain ⟨rest, hbefore, hparts, hlast, hhere⟩ := h.exists_parts
  refine ⟨rest, hbefore, hlast, hhere, ?_⟩
  have hne : p.parts ≠ [] := by simp [hparts]
  unfold parent?
  split
  · contradiction
  · contradiction
  · rw [hparts, List.dropLast_concat]

end EndsIn

end Ensemble.Path
