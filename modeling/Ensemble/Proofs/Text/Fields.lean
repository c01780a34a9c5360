import Ensemble.Text.Lines
import Mathlib.Algebra.GroupWithZero.Nat

/-!
# Fields of written texts

Texts joined by a separator are the fields of the joined text, as long as they hold none
(`fields_intercalate`), and a text is cut at each separator it holds (`fields_append_sep`).
-/

namespace Ensemble.Text

variable {sep : Char}

/-! ### Cutting -/

theorem fields_append_sep (sep : Char) (cs ds : List Char) :
    fields sep (cs ++ sep :: ds) = fields sep cs ++ fields sep ds := by
  induction cs with
  | nil => simp [fields]
  | cons c cs ih =>
    rw [List.cons_append, fields, fields, ih]
    by_cases hc : c = sep
    · rw [if_pos hc, if_pos hc, List.cons_append]
    · obtain ⟨p, ps, hp⟩ := List.exists_cons_of_ne_nil (fields_ne_nil sep cs)
      rw [if_neg hc, if_neg hc, hp]
      rfl

theorem fields_of_not_mem {p : List Char} (hp : sep ∉ p) : fields sep p = [p] := by
  induction p with
  | nil => rfl
  | cons c p ih =>
    rw [List.mem_cons, not_or] at hp
    rw [fields, if_neg (Ne.symm hp.1), ih hp.2]
    rfl

theorem fields_append {p : List Char} (hp : sep ∉ p) (cs : List Char) :
    fields sep (p ++ sep :: cs) = p :: fields sep cs := by
  rw [fields_append_sep, fields_of_not_mem hp, List.singleton_append]

/-- A text is what comes up to its last separator, and a last field. -/
theorem exists_last_field (sep : Char) (cs : List Char) :
    ∃ before last, cs = before ++ last ∧ sep ∉ last ∧ ∀ c ∈ before.getLast?, c = sep := by
  induction cs with
  | nil => exact ⟨[], [], by simp⟩
  | cons c cs ih =>
    obtain ⟨before, last, hcs, hlast, hbefore⟩ := ih
    cases before with
    | nil =>
      by_cases hc : c = sep
      · exact ⟨[c], last, by simp [hcs], hlast, by simp [hc]⟩
      · refine ⟨[], c :: last, by simp [hcs], ?_, by simp⟩
        rw [List.mem_cons, not_or]
        exact ⟨Ne.symm hc, hlast⟩
    | cons b before =>
      refine ⟨c :: b :: before, last, by simp [hcs], hlast, ?_⟩
      rw [List.getLast?_cons_cons]
      exact hbefore

theorem consFirst_mem {c : Char} {p : List Char} {ps : List (List Char)}
    (h : p ∈ consFirst c ps) : p ∈ ps ∨ ∃ q, p = c :: q ∧ (q ∈ ps ∨ q = []) := by
  cases ps with
  | nil => exact Or.inr ⟨[], List.mem_singleton.mp h, Or.inr rfl⟩
  | cons q ps =>
    rcases List.mem_cons.mp h with rfl | h
    · exact Or.inr ⟨q, rfl, Or.inl (by simp)⟩
    · exact Or.inl (by simp [h])

theorem not_mem_of_mem_fields {cs p : List Char} (h : p ∈ fields sep cs) : sep ∉ p := by
  induction cs generalizing p with
  | nil => simp_all [fields]
  | cons c cs ih =>
    unfold fields at h
    split at h
    · rcases List.mem_cons.mp h with rfl | h
      · simp
      · exact ih h
    · rename_i hc
      rcases consFirst_mem h with h | ⟨q, rfl, hq | rfl⟩
      · exact ih h
      · rw [List.mem_cons, not_or]
        exact ⟨Ne.symm hc, ih hq⟩
      · simpa using Ne.symm hc

/-! ### Joining -/

theorem fields_intercalate {ps : List (List Char)} (hne : ps ≠ []) (h : ∀ p ∈ ps, sep ∉ p) :
    fields sep ([sep].intercalate ps) = ps := by
  induction ps with
  | nil => contradiction
  | cons p ps ih =>
    have hp := h p (by simp)
    cases ps with
    | nil => rw [List.intercalate_singleton, fields_of_not_mem hp]
    | cons q ps =>
      rw [List.intercalate_cons_cons, List.append_assoc, List.singleton_append,
        fields_append hp, ih (by simp) fun r hr => h r (by simp [hr])]

theorem isPrefix_intercalate {ps qs : List (List Char)} (h : ps <+: qs) :
    [sep].intercalate ps <+: [sep].intercalate qs := by
  induction ps generalizing qs with
  | nil => exact List.nil_prefix
  | cons p ps ih =>
    obtain ⟨rest, rfl⟩ := h
    cases ps with
    | nil =>
      cases rest with
      | nil => exact List.prefix_rfl
      | cons q rest =>
        rw [List.intercalate_singleton, List.singleton_append, List.intercalate_cons_cons,
          List.append_assoc]
        exact List.prefix_append _ _
    | cons p' ps =>
      have hrest := ih (List.prefix_append (p' :: ps) rest)
      rw [List.cons_append, List.cons_append, List.intercalate_cons_cons,
        List.intercalate_cons_cons]
      exact (List.prefix_append_right_inj _).mpr hrest

theorem intercalate_append_sep {ps : List (List Char)} (hne : ps ≠ []) :
    [sep].intercalate ps ++ [sep] = ps.flatMap fun p => p ++ [sep] := by
  induction ps with
  | nil => contradiction
  | cons p ps ih =>
    cases ps with
    | nil => simp
    | cons q ps =>
      rw [List.intercalate_cons_cons, List.append_assoc, ih (by simp)]
      rfl

theorem mem_intercalate {c : Char} {ps : List (List Char)} (h : c ∈ [sep].intercalate ps) :
    c = sep ∨ ∃ p ∈ ps, c ∈ p := by
  induction ps with
  | nil => cases h
  | cons p ps ih =>
    cases ps with
    | nil => exact Or.inr ⟨p, by simp, by simpa using h⟩
    | cons q ps =>
      rw [List.intercalate_cons_cons, List.append_assoc, List.mem_append] at h
      rcases h with h | h
      · exact Or.inr ⟨p, by simp, h⟩
      · rcases List.mem_append.mp h with h | h
        · exact Or.inl (List.mem_singleton.mp h)
        · rcases ih h with h | ⟨r, hr, hc⟩
          · exact Or.inl h
          · exact Or.inr ⟨r, by simp [hr], hc⟩

theorem flatten_sublist_intercalate (sep : Char) (ps : List (List Char)) :
    ps.flatten.Sublist ([sep].intercalate ps) := by
  induction ps with
  | nil => simp
  | cons p ps ih =>
    cases ps with
    | nil => simp
    | cons q ps =>
      rw [List.intercalate_cons_cons, List.flatten_cons, List.append_assoc]
      exact (ih.trans (List.sublist_append_right _ _)).append_left p

theorem count_intercalate {c : Char} (h : c ≠ sep) (ps : List (List Char)) :
    ([sep].intercalate ps).count c = (ps.map (List.count c)).sum := by
  induction ps with
  | nil => simp
  | cons p ps ih =>
    cases ps with
    | nil => simp
    | cons q ps =>
      rw [List.intercalate_cons_cons, List.count_append, List.count_append, ih]
      simp [Ne.symm h]

end Ensemble.Text
