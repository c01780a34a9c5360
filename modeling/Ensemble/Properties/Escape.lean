/-!
# Escapes

A backslash takes the next character literally, except that `t`, `n`, `r` and `f` after it stand for
controls. Main statement: `unescape_escape` (what is escaped reads back).
-/

namespace Ensemble.Properties

/-- What a character after a backslash stands for. -/
def escapedChar (c : Char) : Char :=
  if c = 't' then '\t'
  else if c = 'n' then '\n'
  else if c = 'r' then '\r'
  else if c = 'f' then '\x0c'
  else c

/-- Resolves escapes. A backslash at the end stands for nothing. -/
def unescape : List Char → List Char
  | [] => []
  | '\\' :: c :: cs => escapedChar c :: unescape cs
  | ['\\'] => []
  | c :: cs => c :: unescape cs

/-- The two characters for a backslash or a control that has an escape, else the character. -/
def escapeChar (c : Char) : List Char :=
  if c = '\\' then ['\\', '\\']
  else if c = '\t' then ['\\', 't']
  else if c = '\n' then ['\\', 'n']
  else if c = '\r' then ['\\', 'r']
  else if c = '\x0c' then ['\\', 'f']
  else [c]

/-- Escapes the backslashes and the controls that have an escape. -/
def escape (cs : List Char) : List Char := cs.flatMap escapeChar

theorem unescape_cons_of_ne {c : Char} (h : c ≠ '\\') (cs : List Char) :
    unescape (c :: cs) = c :: unescape cs := by
  rw [unescape.eq_def]
  split <;> simp_all

theorem unescape_escape (cs : List Char) : unescape (escape cs) = cs := by
  induction cs with
  | nil => rfl
  | cons c cs ih =>
    simp only [escape, List.flatMap_cons, escapeChar] at ih ⊢
    split
    · subst c; simp [unescape, escapedChar, ih]
    · split
      · subst c; simp [unescape, escapedChar, ih]
      · split
        · subst c; simp [unescape, escapedChar, ih]
        · split
          · subst c; simp [unescape, escapedChar, ih]
          · split
            · subst c; simp [unescape, escapedChar, ih]
            · rw [List.singleton_append, unescape_cons_of_ne (by assumption), ih]

end Ensemble.Properties
