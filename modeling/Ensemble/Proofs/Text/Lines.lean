import Ensemble.Text.Lines

/-!
# Lines of written texts

A text made of lines is cut into those lines again, whether a line feed stands between them
(`lines_intercalate`) or after each (`lines_flatMap`), as long as they are lines (`IsLine`). The
lines of any text keep its characters in order (`flatten_lines_sublist`), the line feeds left out
(`not_mem_flatten_lines`).
-/

namespace Ensemble.Text

/-- A text that stays one line: no line feed stands in it, and no carriage return at its end, where
it would join a line feed after it. -/
def IsLine (l : List Char) : Prop := '\n' ∉ l ∧ l.getLast? ≠ some '\r'

/-! ### One line -/

theorem lines_cons {c : Char} {cs : List Char} (hc : c ≠ '\n')
    (hcs : c = '\r' → cs.head? ≠ some '\n') : lines (c :: cs) = consFirst c (lines cs) := by
  rw [lines.eq_def]
  split
  · contradiction
  · simp_all
  · simp_all
  · rename_i heq
    cases heq
    rfl

theorem lines_of_not_mem {l : List Char} (hne : l ≠ []) (hl : '\n' ∉ l) : lines l = [l] := by
  induction l with
  | nil => contradiction
  | cons c l ih =>
    rw [List.mem_cons, not_or] at hl
    have hhead : l.head? ≠ some '\n' := fun h => hl.2 (List.mem_of_head? h)
    rw [lines_cons (Ne.symm hl.1) fun _ => hhead]
    cases l with
    | nil => rfl
    | cons d l => rw [ih (by simp) hl.2]; rfl

theorem lines_append_lineFeed {l : List Char} (hl : IsLine l) (cs : List Char) :
    lines (l ++ '\n' :: cs) = l :: lines cs := by
  obtain ⟨hn, hr⟩ := hl
  induction l with
  | nil => simp [lines]
  | cons c l ih =>
    rw [List.mem_cons, not_or] at hn
    have hhead : c = '\r' → (l ++ '\n' :: cs).head? ≠ some '\n' := by
      rintro rfl h
      cases l with
      | nil => simp at hr
      | cons d l =>
        have hd : d = '\n' := by simpa using h
        exact hn.2 (by simp [hd])
    have hlast : l.getLast? ≠ some '\r' := by
      intro h
      cases l with
      | nil => cases h
      | cons d l => exact hr (by rw [List.getLast?_cons_cons]; exact h)
    rw [List.cons_append, lines_cons (Ne.symm hn.1) hhead, ih hn.2 hlast]
    rfl

/-! ### Many lines -/

theorem lines_flatMap {ls : List (List Char)} (h : ∀ l ∈ ls, IsLine l) :
    lines (ls.flatMap fun l => l ++ ['\n']) = ls := by
  induction ls with
  | nil => rfl
  | cons l ls ih =>
    have hcons : ((l :: ls).flatMap fun l => l ++ ['\n']) =
        l ++ '\n' :: ls.flatMap fun l => l ++ ['\n'] := by simp
    rw [hcons, lines_append_lineFeed (h l (by simp)), ih fun k hk => h k (by simp [hk])]

theorem lines_intercalate {ls : List (List Char)} (h : ∀ l ∈ ls, IsLine l)
    (hne : ∀ l ∈ ls, l ≠ []) : lines (['\n'].intercalate ls) = ls := by
  induction ls with
  | nil => rfl
  | cons l ls ih =>
    have hl := h l (by simp)
    cases ls with
    | nil =>
      have hone : ['\n'].intercalate [l] = l := by simp [List.intercalate]
      rw [hone, lines_of_not_mem (hne l (by simp)) hl.1]
    | cons k ls =>
      have hcons : ['\n'].intercalate (l :: k :: ls) = l ++ '\n' :: ['\n'].intercalate (k :: ls) := by
        simp [List.intercalate, List.intersperse]
      rw [hcons, lines_append_lineFeed hl, ih (fun l' hl' => h l' (by simp [hl']))
        fun l' hl' => hne l' (by simp [hl'])]

/-! ### Lines of any text -/

theorem lines_ne_nil {cs : List Char} (h : cs ≠ []) : lines cs ≠ [] := by
  rw [lines.eq_def]
  split
  · contradiction
  · simp
  · simp
  · exact consFirst_ne_nil _ _

/-- A text that ends a line is cut apart from what follows. -/
theorem lines_append {cs : List Char} (h : cs = [] ∨ cs.getLast? = some '\n') (ds : List Char) :
    lines (cs ++ ds) = lines cs ++ lines ds := by
  have htail : ∀ {c : Char} {cs : List Char}, c :: cs = [] ∨ (c :: cs).getLast? = some '\n' →
      cs = [] ∨ cs.getLast? = some '\n' := by
    intro c cs h
    cases cs with
    | nil => exact Or.inl rfl
    | cons d cs => simpa using h
  induction cs using lines.induct with
  | case1 => simp [lines]
  | case2 cs ih => simp [lines, ih (htail h)]
  | case3 cs ih => simp [lines, ih (htail (htail h))]
  | case4 c cs h1 h2 ih =>
    have hne : cs ≠ [] := by
      rintro rfl
      simp only [List.cons_ne_nil, false_or, List.getLast?_singleton, Option.some.injEq] at h
      exact h1 h
    have hc : c = '\r' → cs.head? ≠ some '\n' := by
      rintro rfl hhead
      obtain ⟨es, rfl⟩ := List.head?_eq_some_iff.mp hhead
      exact h2 es rfl rfl
    have hc' : c = '\r' → (cs ++ ds).head? ≠ some '\n' := by
      intro hr
      obtain ⟨e, es, rfl⟩ := List.exists_cons_of_ne_nil hne
      exact hc hr
    obtain ⟨p, ps, hp⟩ := List.exists_cons_of_ne_nil (lines_ne_nil hne)
    rw [List.cons_append, lines_cons h1 hc', lines_cons h1 hc, ih (htail h), hp]
    rfl

theorem flatten_consFirst (c : Char) (ps : List (List Char)) :
    (consFirst c ps).flatten = c :: ps.flatten := by
  cases ps <;> simp [consFirst]

/-- The cases of `lines`, with its last equation in the form of `lines_cons`. -/
theorem lines_induction {P : List Char → List (List Char) → Prop} (nil : P [] [])
    (lineFeed : ∀ cs, P cs (lines cs) → P ('\n' :: cs) ([] :: lines cs))
    (carriageReturn : ∀ cs, P cs (lines cs) → P ('\r' :: '\n' :: cs) ([] :: lines cs))
    (char : ∀ c cs, c ≠ '\n' → P cs (lines cs) → P (c :: cs) (consFirst c (lines cs)))
    (cs : List Char) : P cs (lines cs) := by
  induction cs using lines.induct with
  | case1 => simpa [lines] using nil
  | case2 cs ih => simpa [lines] using lineFeed cs ih
  | case3 cs ih => simpa [lines] using carriageReturn cs ih
  | case4 c cs h1 h2 ih =>
    rw [lines_cons h1]
    · exact char c cs h1 ih
    · intro hc hcs
      cases cs with
      | nil => cases hcs
      | cons d ds => exact h2 ds hc (by simpa using hcs)

theorem flatten_lines_sublist (cs : List Char) : (lines cs).flatten.Sublist cs := by
  refine lines_induction (P := fun cs ls => ls.flatten.Sublist cs) (.refl _) ?_ ?_ ?_ cs
  · intro cs ih
    simpa using ih.cons '\n'
  · intro cs ih
    simpa using (ih.cons '\n').cons '\r'
  · intro c cs _ ih
    rw [flatten_consFirst]
    exact ih.cons_cons c

theorem not_mem_flatten_lines (cs : List Char) : '\n' ∉ (lines cs).flatten := by
  refine lines_induction (P := fun _ ls => '\n' ∉ ls.flatten) (by simp) ?_ ?_ ?_ cs
  · intro cs ih
    simpa using ih
  · intro cs ih
    simpa using ih
  · intro c cs hc ih
    rw [flatten_consFirst, List.mem_cons, not_or]
    exact ⟨Ne.symm hc, ih⟩

end Ensemble.Text
