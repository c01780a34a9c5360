import Ensemble.Path
import Ensemble.Proofs.Text.Utf8

/-!
# Paths that are texts

A text states a path, and is shown of it (`Path.display_ofText`). Other paths are made of bytes that
are those of no text; there `Path.toText?` gives none (`Path.toText?_eq_some_iff`), and what is shown
states another path (`Path.ofText_display_iff`).
-/

namespace Ensemble.Path

open Text

variable {p : Path} {s : String}

/-- A text states the path. -/
def IsText (p : Path) : Prop := ∃ s, p = ofText s

@[simp]
theorem display_ofText (s : String) : (ofText s).display = s := ofUtf8Lossy_utf8 s

/-- **What is shown** of a path states it exactly if it is a text. -/
theorem ofText_display_iff : ofText p.display = p ↔ p.IsText := by
  constructor
  · exact fun h => ⟨_, h.symm⟩
  · rintro ⟨s, rfl⟩
    rw [display_ofText]

theorem toText?_eq_some_iff : p.toText? = some s ↔ p = ofText s := by
  unfold toText?
  constructor
  · intro h
    split at h
    · rename_i htext
      rw [← htext, Option.some.inj h]
    · cases h
  · rintro rfl
    rw [display_ofText, if_pos rfl]

theorem toText?_eq_none_iff : p.toText? = none ↔ ¬ p.IsText := by
  rw [Option.eq_none_iff_forall_ne_some]
  simp only [ne_eq, toText?_eq_some_iff, IsText, not_exists]

theorem append_ofText {suffix : String} (h : IsAscii suffix.toList) :
    (ofText s).append suffix = ofText (s ++ suffix) := by
  rw [append, ofText, ofText, utf8_append, utf8_eq_self h]

theorem IsText.append (hp : p.IsText) {suffix : String} (h : IsAscii suffix.toList) :
    (p.append suffix).IsText := by
  obtain ⟨s, rfl⟩ := hp
  exact ⟨_, append_ofText h⟩

/-- What follows the last separator of a text is a text. -/
theorem IsText.exists_utf8 (h : p.IsText) {before field : List Char}
    (hp : p.text.toList = before ++ field) (hlast : ∀ c ∈ before.getLast?, c = '/') :
    ∃ t : String, field = (utf8 t).toList := by
  obtain ⟨s, rfl⟩ := h
  rcases List.eq_nil_or_concat before with rfl | ⟨front, c, rfl⟩
  · exact ⟨s, hp.symm⟩
  · obtain rfl : c = '/' := hlast c (by simp)
    have hcut : (utf8 s).toList = front ++ '/' :: field := by
      have hcut := hp
      rw [List.concat_eq_append, List.append_assoc, List.singleton_append] at hcut
      exact hcut
    obtain ⟨x, y, -, -, hy⟩ := exists_append_of_utf8 (by decide) hcut
    exact ⟨_, hy⟩

end Ensemble.Path
