/-!
# Lines and fields

A text is cut at line feeds into lines, or at a separator into fields. Main statement:
`intercalate_fields` (fields joined by the separator give the text back).
-/

namespace Ensemble.Text

/-- Puts a character before the first part. -/
def consFirst (c : Char) : List (List Char) → List (List Char)
  | [] => [[c]]
  | p :: ps => (c :: p) :: ps

theorem consFirst_ne_nil (c : Char) (ps : List (List Char)) : consFirst c ps ≠ [] := by
  cases ps <;> simp [consFirst]

/-- The lines of a text. A line feed ends a line, together with one carriage return before it; what
follows the last line feed is a line unless it is empty. -/
def lines : List Char → List (List Char)
  | [] => []
  | '\n' :: cs => [] :: lines cs
  | '\r' :: '\n' :: cs => [] :: lines cs
  | c :: cs => consFirst c (lines cs)

/-- The fields between separators, one more than there are separators. -/
def fields (sep : Char) : List Char → List (List Char)
  | [] => [[]]
  | c :: cs => if c = sep then [] :: fields sep cs else consFirst c (fields sep cs)

theorem fields_ne_nil (sep : Char) (cs : List Char) : fields sep cs ≠ [] := by
  cases cs with
  | nil => simp [fields]
  | cons c cs =>
    unfold fields
    split
    · simp
    · exact consFirst_ne_nil _ _

theorem intercalate_fields (sep : Char) (cs : List Char) :
    [sep].intercalate (fields sep cs) = cs := by
  induction cs with
  | nil => rfl
  | cons c cs ih =>
    obtain ⟨p, ps, hp⟩ := List.exists_cons_of_ne_nil (fields_ne_nil sep cs)
    unfold fields
    split
    · subst c
      rw [hp] at ih ⊢
      simpa [List.intercalate, List.intersperse] using ih
    · rw [hp] at ih ⊢
      cases ps <;> simpa [consFirst, List.intercalate, List.intersperse] using ih

end Ensemble.Text
