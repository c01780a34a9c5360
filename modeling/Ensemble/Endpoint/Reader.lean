import Ensemble.ConfigError
import Ensemble.Text.Blank

/-!
# Reading endpoints

A text is cut at colons into tokens; a token that starts with `[` runs to the next `]`, colons
included, and must end there. Main statement: `intercalate_of_tokens?` (the tokens joined by colons
give the text back).
-/

namespace Ensemble.Endpoint

open Text

/-- Where the scan stands in a token. -/
inductive Scan
  | start
  | plain
  /-- After `[`, up to the next `]`. -/
  | bracketed
  /-- After that `]`. -/
  | closed
deriving DecidableEq

/-- The tokens of a text from inside one; the first is its remainder. `none` where a bracket is not
closed, or is followed by anything but a colon. -/
def scan : Scan → List Char → Option (List (List Char))
  | .bracketed, [] => none
  | .start, [] => some [[]]
  | .plain, [] => some [[]]
  | .closed, [] => some [[]]
  | .start, c :: cs =>
    if c = ':' then (scan .start cs).map ([] :: ·)
    else if c = '[' then (scan .bracketed cs).map (consFirst c)
    else (scan .plain cs).map (consFirst c)
  | .plain, c :: cs =>
    if c = ':' then (scan .start cs).map ([] :: ·) else (scan .plain cs).map (consFirst c)
  | .bracketed, c :: cs =>
    if c = ']' then (scan .closed cs).map (consFirst c) else (scan .bracketed cs).map (consFirst c)
  | .closed, c :: cs => if c = ':' then (scan .start cs).map ([] :: ·) else none

/-- The tokens between colons. -/
def tokens? (text : List Char) : Option (List (List Char)) := scan .start text

theorem ne_nil_of_scan {s : Scan} {cs : List Char} {ts : List (List Char)}
    (h : scan s cs = some ts) : ts ≠ [] := by
  cases s <;> cases cs <;>
    grind [scan, Option.map_eq_some_iff, consFirst_ne_nil]

theorem intercalate_consFirst (c : Char) {ts : List (List Char)} (h : ts ≠ []) :
    [':'].intercalate (consFirst c ts) = c :: [':'].intercalate ts := by
  obtain ⟨t, ts, rfl⟩ := List.exists_cons_of_ne_nil h
  cases ts <;> simp [consFirst, List.intercalate, List.intersperse]

theorem intercalate_nil_cons {ts : List (List Char)} (h : ts ≠ []) :
    [':'].intercalate ([] :: ts) = ':' :: [':'].intercalate ts := by
  obtain ⟨t, ts, rfl⟩ := List.exists_cons_of_ne_nil h
  simp [List.intercalate, List.intersperse]

theorem intercalate_of_scan {s : Scan} {cs : List Char} {ts : List (List Char)}
    (h : scan s cs = some ts) : [':'].intercalate ts = cs := by
  induction cs generalizing s ts with
  | nil => cases s <;> simp_all [scan] <;> subst h <;> rfl
  | cons c cs ih =>
    have key : ∀ s' ts', scan s' cs = some ts' →
        [':'].intercalate (consFirst c ts') = c :: cs ∧
          [':'].intercalate ([] :: ts') = ':' :: cs := fun s' ts' h' =>
      ⟨by rw [intercalate_consFirst c (ne_nil_of_scan h'), ih h'],
        by rw [intercalate_nil_cons (ne_nil_of_scan h'), ih h']⟩
    have colon : (scan .start cs).map ([] :: ·) = some ts →
        [':'].intercalate ts = ':' :: cs := fun h => by
      obtain ⟨ts', h', rfl⟩ := Option.map_eq_some_iff.mp h
      exact (key .start ts' h').2
    have other : ∀ s', (scan s' cs).map (consFirst c) = some ts →
        [':'].intercalate ts = c :: cs := fun s' h => by
      obtain ⟨ts', h', rfl⟩ := Option.map_eq_some_iff.mp h
      exact (key s' ts' h').1
    cases s <;> simp only [scan] at h <;> grind

theorem intercalate_of_tokens? {text : List Char} {ts : List (List Char)}
    (h : tokens? text = some ts) : [':'].intercalate ts = text := intercalate_of_scan h

/-- The tokens of a text, or the error that a bracket is not closed. -/
def splitHostAndPort (text : String) : Except ConfigError (List (List Char)) :=
  match tokens? text.toList with
  | some ts => pure ts
  | none => throw (.invalidValue "endpoint" text .unclosedBracket)

/-- Reads a port with blanks around it. -/
def port? (cs : List Char) : Option UInt16 := uint16? (String.ofList (trim cs))

/-- Reads `host:port` or `[host]:port`. -/
def ofText (text : String) : Except ConfigError Endpoint := do
  match ← splitHostAndPort text with
  | [host, port] => match port? port with
    | some n => return ofHost (trim host) n
    | none => throw (.invalidValue "endpoint" text .portNotNumber)
  | _ => throw (.invalidValue "endpoint" text .notHostPort)

end Ensemble.Endpoint
