import Ensemble.Proofs.Path.Names

/-!
# Where a path goes

The steps of a text that go somewhere (`Path.moves`) are its fields without the fillers. The parent
of a path that ends in a name is a start of the text before the name and makes the same moves
(`EndsIn.exists_parent`). Another name stands in place of the last move, where that is a name
(`exists_moves_withFileName`), and else after all of them (`moves_withFileName`). Paths of the same
steps make the same moves (`moves_eq_of_sameSteps`).
-/

namespace Ensemble.Path

open Text

/-- The steps of a text that are no fillers. -/
def moves (cs : List Char) : List (List Char) := (fields '/' cs).filter fun s => !isFiller s

/-! ### Texts -/

theorem moves_append_sep (cs ds : List Char) : moves (cs ++ '/' :: ds) = moves cs ++ moves ds := by
  simp only [moves, fields_append_sep, List.filter_append]

theorem moves_nil : moves [] = [] := by decide

theorem moves_cons_sep (cs : List Char) : moves ('/' :: cs) = moves cs := by
  have h := moves_append_sep [] cs
  rwa [moves_nil, List.nil_append, List.nil_append] at h

theorem moves_concat_sep (cs : List Char) : moves (cs ++ ['/']) = moves cs := by
  rw [moves_append_sep, moves_nil, List.append_nil]

theorem moves_name {name : List Char} (h : IsName name) : moves name = [name] := by
  simp [moves, fields_of_not_mem h.noSeparator, h.isFiller_eq]

/-- A text goes where it goes before its last field, and then takes that field, unless it is a
filler. -/
theorem moves_append_field {before field : List Char} (hlast : ∀ c ∈ before.getLast?, c = '/')
    (hfield : '/' ∉ field) :
    moves (before ++ field) = moves before ++ [field].filter fun s => !isFiller s := by
  rw [moves, fields_append_name hlast hfield, moves, fields_eq_dropLast_concat hlast]
  simp [isFiller]

/-- A path that ends in a name makes one move more than the text before the name. -/
theorem EndsIn.moves_eq {p : Path} {before name : List Char} (h : p.EndsIn before name) :
    moves p.text.toList = moves before ++ [name] := by
  rw [h.toList_text, moves_append_field h.last h.isName.noSeparator]
  simp [h.isName.isFiller_eq]

/-- An anchor makes no move. -/
theorem moves_anchor {a : Anchor} {cs : List Char}
    (h : a = .here → cs = [] ∨ cs.head? = some '/') : moves (a.chars ++ cs) = moves cs := by
  cases a with
  | top => exact moves_cons_sep cs
  | bare => rfl
  | here =>
    rcases h rfl with rfl | hcs
    · decide
    · obtain ⟨ds, rfl⟩ := List.head?_eq_some_iff.mp hcs
      have hdot : moves ['.'] = [] := by decide
      rw [moves_cons_sep]
      change moves (['.'] ++ '/' :: ds) = _
      rw [moves_append_sep, hdot, List.nil_append]

/-! ### Fillers -/

theorem dropFillers_prefix_self (ps : List (List Char)) : dropFillers ps <+: ps := by
  have h : (ps.reverse.dropWhile isFiller).reverse <+: ps.reverse.reverse :=
    List.reverse_prefix.mpr (List.dropWhile_suffix _)
  rwa [List.reverse_reverse] at h

/-- The last step of a path is a field of its text. -/
theorem separator_not_mem_of_fileName? {p : Path} {x : List Char} (h : p.fileName? = some x) :
    '/' ∉ x := by
  have hlast := (Option.filter_eq_some_iff.mp h).1
  exact not_mem_of_mem_fields ((dropFillers_prefix_self _).subset (List.mem_of_getLast? hlast))

theorem filter_dropFillers (ps : List (List Char)) :
    (dropFillers ps).filter (fun s => !isFiller s) = ps.filter fun s => !isFiller s := by
  have hdrop : ∀ qs : List (List Char), (qs.dropWhile isFiller).filter (fun s => !isFiller s) =
      qs.filter fun s => !isFiller s := by
    intro qs
    induction qs with
    | nil => rfl
    | cons q qs ih =>
      cases hq : isFiller q with
      | true => simp [hq, ih]
      | false => simp [hq]
  rw [dropFillers, List.filter_reverse, hdrop, List.filter_reverse, List.reverse_reverse]

theorem moves_intercalate {ps : List (List Char)} (h : ∀ p ∈ ps, '/' ∉ p) :
    moves (['/'].intercalate ps) = ps.filter fun s => !isFiller s := by
  cases ps with
  | nil => exact moves_nil
  | cons p ps => rw [moves, fields_intercalate (by simp) h]

/-! ### Parents -/

theorem toList_ofParts (a : Anchor) (ps : List (List Char)) :
    (ofParts a ps).text.toList = a.chars ++ ['/'].intercalate ps := by simp [ofParts]

theorem head?_eq_of_isPrefix {cs ds : List Char} (h : cs <+: ds) (hne : cs ≠ []) :
    ds.head? = cs.head? := by
  obtain ⟨tail, rfl⟩ := h
  cases cs with
  | nil => exact absurd rfl hne
  | cons c cs => rfl

section
variable {a : Anchor} {rest : List Char} {ps : List (List Char)} (h : ps <+: fields '/' rest)
include h

theorem intercalate_isPrefix : ['/'].intercalate ps <+: rest := by
  have hjoined := @isPrefix_intercalate '/' _ _ h
  rwa [intercalate_fields] at hjoined

/-- First fields of a text, after an anchor, are a start of the text after that anchor. -/
theorem ofParts_isPrefix : (ofParts a ps).text.toList <+: a.chars ++ rest := by
  rw [toList_ofParts]
  exact (List.prefix_append_right_inj _).mpr (intercalate_isPrefix h)

/-- First fields of a text, after an anchor, make their own moves. -/
theorem moves_ofParts (hhere : a = .here → rest = [] ∨ rest.head? = some '/') :
    moves (ofParts a ps).text.toList = ps.filter fun s => !isFiller s := by
  have hseparator : ∀ s ∈ ps, '/' ∉ s := fun s hs => not_mem_of_mem_fields (h.subset hs)
  have hjoined := intercalate_isPrefix h
  rw [toList_ofParts, moves_anchor ?_, moves_intercalate hseparator]
  intro ha
  by_cases hnil : ['/'].intercalate ps = []
  · exact Or.inl hnil
  · refine (hhere ha).imp (fun hrest => ?_) fun hhead => ?_
    · exact List.prefix_nil.mp (hrest ▸ hjoined)
    · rwa [← head?_eq_of_isPrefix hjoined hnil]

end

/-- **The parent** of a path that ends in a name goes where the text before the name goes. -/
theorem EndsIn.exists_parent {p : Path} {before name : List Char} (h : p.EndsIn before name) :
    ∃ q, p.parent? = some q ∧ q.text.toList <+: before ∧
      moves q.text.toList = moves before := by
  obtain ⟨rest, hbefore, hlast, hhere, hparent⟩ := h.exists_parent?
  have hinit : dropFillers (fields '/' rest).dropLast <+: fields '/' rest :=
    (dropFillers_prefix_self _).trans (List.dropLast_prefix _)
  have hmoves : moves rest = (fields '/' rest).dropLast.filter fun s => !isFiller s := by
    rw [moves, fields_eq_dropLast_concat hlast, List.filter_append]
    simp [isFiller]
  have hhere' : p.anchor = .here → rest = [] ∨ rest.head? = some '/' := fun ha => Or.inr (hhere ha)
  rw [hbefore]
  refine ⟨_, hparent, ofParts_isPrefix hinit, ?_⟩
  rw [moves_ofParts hinit hhere', moves_anchor hhere', hmoves, filter_dropFillers]

/-- The anchor of a path stands before the rest of its text. -/
theorem anchor_chars_append (p : Path) : p.text.toList = p.anchor.chars ++ (cutAnchor p.text.toList).2 ∧
    (p.anchor = .here → (cutAnchor p.text.toList).2 = [] ∨
      (cutAnchor p.text.toList).2.head? = some '/') ∧
    (p.anchor = .bare → (cutAnchor p.text.toList).2.head? ≠ some '/') := by
  unfold anchor
  rcases cutAnchor_cases p.text.toList with ⟨ds, hcs, hcut⟩ | ⟨hcs, hcut⟩ | ⟨ds, hcs, hcut⟩ |
    ⟨hhead, -, -, hcut⟩
  · rw [hcut, hcs]
    simp [Anchor.chars]
  · rw [hcut, hcs]
    simp [Anchor.chars]
  · rw [hcut, hcs]
    simp [Anchor.chars]
  · rw [hcut]
    exact ⟨rfl, by simp, fun _ => hhead⟩

theorem moves_eq_filter_parts (p : Path) :
    moves p.text.toList = p.parts.filter fun s => !isFiller s := by
  obtain ⟨htext, hhere, -⟩ := p.anchor_chars_append
  rw [congrArg moves htext, moves_anchor hhere, parts, filter_dropFillers, moves]

/-- The last part of a path is no filler. -/
theorem isFiller_getLast_parts {p : Path} {s : List Char} (h : p.parts.getLast? = some s) :
    isFiller s = false := by
  unfold parts dropFillers at h
  rw [List.getLast?_reverse] at h
  have hlast := List.head?_dropWhile_not isFiller (fields '/' (cutAnchor p.text.toList).2).reverse
  rwa [h] at hlast

/-- First fields of what a path has after its anchor, after that anchor, start as the path does. -/
theorem head?_ofParts_anchor_iff {p : Path} {ps : List (List Char)}
    (h : ps <+: fields '/' (cutAnchor p.text.toList).2) :
    (ofParts p.anchor ps).text.toList.head? = some '/' ↔ p.text.toList.head? = some '/' := by
  obtain ⟨htext, -, hbare⟩ := p.anchor_chars_append
  have hstarts := ofParts_isPrefix (a := p.anchor) h
  rw [← htext] at hstarts
  by_cases hnil : (ofParts p.anchor ps).text.toList = []
  · have ha : p.anchor = .bare := by
      rw [toList_ofParts] at hnil
      cases ha : p.anchor <;> simp [ha, Anchor.chars] at hnil ⊢
    rw [hnil, htext, ha]
    simp [Anchor.chars, hbare ha]
  · rw [head?_eq_of_isPrefix hstarts hnil]

/-- The parent of a path is empty, or makes the moves of the parts before the last one. -/
theorem parent?_cases {p q : Path} (h : p.parent? = some q) :
    (p.anchor = .here ∧ p.parts = [] ∧ q.text = "") ∨
      p.parts ≠ [] ∧ (moves q.text.toList = p.parts.dropLast.filter fun s => !isFiller s) ∧
        (q.text.toList.head? = some '/' ↔ p.text.toList.head? = some '/') := by
  unfold parent? at h
  split at h
  · rename_i hnil hanchor
    obtain rfl := Option.some.inj h
    exact Or.inl ⟨hanchor, hnil, rfl⟩
  · cases h
  · rename_i hne _
    obtain rfl := Option.some.inj h
    have hparts : dropFillers p.parts.dropLast <+: p.parts :=
      (dropFillers_prefix_self _).trans (List.dropLast_prefix _)
    have hfields := hparts.trans (dropFillers_prefix_self _)
    refine Or.inr ⟨hne, ?_, head?_ofParts_anchor_iff hfields⟩
    rw [moves_ofParts hfields p.anchor_chars_append.2.1, filter_dropFillers]

/-- The parent of a path starts as the path does, and makes some of its moves. -/
theorem parent?_eq_some {p q : Path} (h : p.parent? = some q) :
    moves q.text.toList <+: moves p.text.toList ∧
      (q.text.toList.head? = some '/' ↔ p.text.toList.head? = some '/') := by
  rcases parent?_cases h with ⟨hanchor, -, hq⟩ | ⟨-, hmoves, hhead⟩
  · obtain ⟨htext, -⟩ := p.anchor_chars_append
    rw [hq, htext, hanchor]
    simp [Anchor.chars, moves_nil]
  · rw [moves_eq_filter_parts p, hmoves]
    exact ⟨(List.dropLast_prefix _).filter _, hhead⟩

/-- The parent of a path makes all of its moves but the last. -/
theorem exists_moves_eq_concat {p q : Path} (h : p.parent? = some q)
    (hne : q.text.isEmpty = false) : ∃ s, moves p.text.toList = moves q.text.toList ++ [s] := by
  rcases parent?_cases h with ⟨-, -, hq⟩ | ⟨hparts, hmoves, -⟩
  · rw [hq] at hne
    cases hne
  · refine ⟨p.parts.getLast hparts, ?_⟩
    have hlast := isFiller_getLast_parts (List.getLast?_eq_some_getLast hparts)
    have hfilter := congrArg (List.filter fun s => !isFiller s)
      (List.dropLast_concat_getLast hparts).symm
    rw [moves_eq_filter_parts p, hmoves, hfilter, List.filter_append]
    simp [hlast]

/-! ### Other names -/

/-- A path that ends in another name goes where it went before that. -/
theorem EndsIn.exists_withFileName_moves {p : Path} {before name other : List Char}
    (h : p.EndsIn before name) (hother : IsName other) :
    ∃ before', (p.withFileName other).EndsIn before' other ∧ moves before' = moves before ∧
      (before'.head? = some '/' ↔ before.head? = some '/') := by
  obtain ⟨q, hparent, -, hmoves⟩ := h.exists_parent
  have hhead : q.text.toList.head? = some '/' ↔ before.head? = some '/' := by
    rw [(parent?_eq_some hparent).2]
    exact Decidable.not_iff_not.mp (Path.isRelative_iff.symm.trans h.isRelative_iff)
  have hrelative : Path.isRelative ⟨String.ofList other⟩ = true := by
    rw [Path.isRelative_iff]
    simpa using hother.head?_ne
  unfold withFileName join
  rw [h.fileName?_eq, hparent, hrelative]
  simp only [Option.isSome_some, if_true, Option.getD_some, Bool.not_true, Bool.false_eq_true,
    if_false]
  split
  · rename_i hlast
    refine ⟨q.text.toList, ⟨⟨by simp, ?_, hother.toIsStep⟩, hother.ne_up⟩, hmoves, hhead⟩
    simpa [Option.all_eq_true] using hlast
  · rename_i hlast
    refine ⟨q.text.toList ++ ['/'], ⟨⟨by simp, by simp, hother.toIsStep⟩, hother.ne_up⟩, ?_, ?_⟩
    · rw [moves_concat_sep, hmoves]
    · rw [← hhead]
      cases hq : q.text.toList with
      | nil => simp [hq] at hlast
      | cons c cs => simp

/-- A name seen from a base is one move more. -/
theorem moves_join_name (base : Path) {name : List Char} (h : IsName name) :
    moves (base.join ⟨String.ofList name⟩).text.toList = moves base.text.toList ++ [name] := by
  have hrelative : Path.isRelative ⟨String.ofList name⟩ = true := by
    rw [isRelative_iff]
    simpa using h.head?_ne
  unfold join
  rw [hrelative]
  simp only [Bool.not_true, Bool.false_eq_true, if_false]
  split
  · rename_i hlast
    rcases List.eq_nil_or_concat base.text.toList with hnil | ⟨cs, c, hcs⟩
    · simp [hnil, moves_nil, moves_name h]
    · obtain rfl : c = '/' := by simpa [hcs] using hlast
      rw [String.toList_append, hcs, List.concat_eq_append, moves_concat_sep, List.append_assoc,
        List.singleton_append, moves_append_sep, String.toList_ofList, moves_name h]
  · simp [moves_append_sep, moves_name h]

/-- Another name stands in place of the last one. -/
theorem exists_moves_withFileName {p : Path} {x name : List Char} (h : IsName name)
    (hp : p.fileName? = some x) : ∃ front, moves p.text.toList = front ++ [x] ∧
      moves (p.withFileName name).text.toList = front ++ [name] := by
  have hlast := (Option.filter_eq_some_iff.mp hp).1
  obtain ⟨init, hparts⟩ := List.getLast?_eq_some_iff.mp hlast
  have hne : p.parts ≠ [] := by simp [hparts]
  obtain ⟨q, hparent⟩ : ∃ q, p.parent? = some q := by
    unfold parent?
    split
    · contradiction
    · contradiction
    · exact ⟨_, rfl⟩
  rcases parent?_cases hparent with ⟨-, hnil, -⟩ | ⟨-, hmoves, -⟩
  · contradiction
  · refine ⟨moves q.text.toList, ?_, ?_⟩
    · rw [moves_eq_filter_parts p, hmoves, hparts, List.filter_append, List.dropLast_concat]
      simp [isFiller_getLast_parts hlast]
    · unfold withFileName
      rw [hp, hparent]
      exact moves_join_name q h

/-- Where a path ends in no name, a name comes after its steps. -/
theorem moves_withFileName {p : Path} {name : List Char} (h : IsName name)
    (hp : p.fileName? = none) :
    moves (p.withFileName name).text.toList = moves p.text.toList ++ [name] := by
  unfold withFileName
  rw [hp]
  exact moves_join_name p h

/-! ### Steps -/

/-- The move that a step of a path is. -/
def Component.move? : Component → Option (List Char)
  | .up => some ['.', '.']
  | .name s => some s
  | _ => none

theorem filterMap_components (p : Path) :
    p.components.filterMap Component.move? = moves p.text.toList := by
  have hstep : ∀ s : List Char,
      Component.move? (if s = ['.', '.'] then .up else .name s) = some s := by
    intro s
    split
    · rename_i hs
      rw [hs]
      rfl
    · rfl
  have hmap : Component.move? ∘ (fun s => if s = ['.', '.'] then Component.up else .name s) = some :=
    funext hstep
  unfold components
  rw [moves_eq_filter_parts, List.filterMap_append, List.filterMap_map, hmap, List.filterMap_some]
  cases p.anchor <;> rfl

theorem moves_eq_of_sameSteps {p q : Path} (h : p.sameSteps q) :
    moves p.text.toList = moves q.text.toList := by
  rw [← filterMap_components, ← filterMap_components, beq_iff_eq.mp h]

end Ensemble.Path
