import Ensemble.Proofs.Properties.Appending

/-!
# Lines in parts

A line may be cut before any of its characters that is no blank, as long as what stands before the cut
ends in pairs of backslashes (`IsCut`): a backslash and a line feed are put there, and blanks after them
(`cutLine`). What is open after some of the parts is those parts, one after another, so the last of them
closes the line that was cut (`joinLines_cutLine`), and the text with the cuts is read as the one without
them.

Main statement: `ofText_cutLine`.
-/

namespace Ensemble.Properties

open Text

/-! ### Cuts -/

/-- A text in parts: a backslash ends a part and its line, and the next part may be indented. -/
def cutLine (first : List Char) : List (List Char × List Char) → List Char
  | [] => first
  | (indent, part) :: cuts => first ++ '\\' :: '\n' :: cutLine (indent ++ part) cuts

/-- The text without the cuts. -/
def uncut (first : List Char) (cuts : List (List Char × List Char)) : List Char :=
  first ++ (cuts.map Prod.snd).flatten

/-- A line that goes on in indented parts. All of them but the last end in pairs of backslashes, so that
the one that is put after each of them is single. -/
structure AreParts (cuts : List (List Char × List Char)) : Prop where
  isBlank_indent : ∀ cut ∈ cuts, ∀ c ∈ cut.1, isBlank c
  noLineFeed : ∀ cut ∈ cuts, '\n' ∉ cut.1 ∧ '\n' ∉ cut.2
  isBlank_head? : ∀ cut ∈ cuts, ∀ c ∈ cut.2.head?, isBlank c = false
  paired : ∀ cut ∈ cuts.dropLast, endBackslashes cut.2 % 2 = 0

/-- The cuts leave a line as it is: its first part is neither blank nor a comment. -/
structure IsCut (first : List Char) (cuts : List (List Char × List Char)) : Prop
    extends AreParts cuts where
  start : ∃ c ∈ (trimStart first).head?, c ≠ '#' ∧ c ≠ '!'
  first_noLineFeed : '\n' ∉ first
  first_paired : cuts ≠ [] → endBackslashes first % 2 = 0

/-! ### Backslashes at the end -/

theorem endBackslashes_append_mod {l : List Char} (h : endBackslashes l % 2 = 0) (cs : List Char) :
    endBackslashes (l ++ cs) % 2 = endBackslashes cs % 2 := by
  unfold endBackslashes at h ⊢
  rw [List.reverse_append, List.takeWhile_append]
  split
  · rename_i hall
    rw [List.length_append, hall]
    omega
  · rfl

/-- What ends in pairs of backslashes may stand before a line. -/
theorem continued?_append {l : List Char} (h : endBackslashes l % 2 = 0) (cs : List Char) :
    continued? (l ++ cs) = (continued? cs).map (l ++ ·) := by
  have hmod := endBackslashes_append_mod h cs
  unfold endBackslashes at hmod
  unfold continued?
  rw [hmod]
  split
  · rename_i hodd
    have hne : cs ≠ [] := by
      rintro rfl
      cases hodd
    rw [List.dropLast_append_of_ne_nil hne]
    rfl
  · rfl

theorem continued?_concat {l : List Char} (h : endBackslashes l % 2 = 0) :
    continued? (l ++ ['\\']) = some l := by
  rw [continued?_append h]
  exact congrArg some (List.append_nil l)

/-- A line, or what a last line leaves open. -/
def closed (l : List Char) : List Char := (continued? l).getD l

theorem closed_append {l : List Char} (h : endBackslashes l % 2 = 0) (cs : List Char) :
    closed (l ++ cs) = l ++ closed cs := by
  unfold closed
  rw [continued?_append h]
  cases continued? cs <;> rfl

/-! ### Logical lines -/

theorem trimStart_append_of_isBlank {indent : List Char} (h : ∀ c ∈ indent, isBlank c)
    (cs : List Char) : trimStart (indent ++ cs) = trimStart cs :=
  List.dropWhile_append_of_pos h

theorem trimStart_append_of_ne_nil {l : List Char} (h : trimStart l ≠ []) (cs : List Char) :
    trimStart (l ++ cs) = trimStart l ++ cs := by
  unfold trimStart at h ⊢
  rw [List.dropWhile_append, if_neg (by simpa [List.isEmpty_iff] using h)]

/-- A part stands on a line of its own, up to the backslash. -/
theorem lines_cutLine_cons {first indent part : List Char} (h : '\n' ∉ first)
    (cuts : List (List Char × List Char)) :
    lines (cutLine first ((indent, part) :: cuts)) =
      (first ++ ['\\']) :: lines (cutLine (indent ++ part) cuts) := by
  have hline : IsLine (first ++ ['\\']) := ⟨by simp [h], by simp⟩
  rw [cutLine, List.append_cons, lines_append_lineFeed hline]

theorem AreParts.tail {cut : List Char × List Char} {cuts : List (List Char × List Char)}
    (h : AreParts (cut :: cuts)) : AreParts cuts := by
  refine ⟨fun c hc => h.isBlank_indent c (List.mem_cons_of_mem _ hc),
    fun c hc => h.noLineFeed c (List.mem_cons_of_mem _ hc),
    fun c hc => h.isBlank_head? c (List.mem_cons_of_mem _ hc), fun c hc => h.paired c ?_⟩
  cases cuts with
  | nil => cases hc
  | cons next cuts => exact List.mem_cons_of_mem _ hc

section
variable {indent part pending : List Char} (hindent : ∀ c ∈ indent, isBlank c)
  (hhead : ∀ c ∈ part.head?, isBlank c = false) (hne : pending ≠ [])
include hindent hhead hne

/-- **A part** before another one goes on with what is open. -/
theorem joinLines_openPart (heven : endBackslashes part % 2 = 0) (n start : Nat)
    (ls : List (List Char)) :
    joinLines n start pending ((indent ++ part ++ ['\\']) :: ls) =
      joinLines (n + 1) start (pending ++ part) ls := by
  have htrim : trimStart (indent ++ part ++ ['\\']) = part ++ ['\\'] := by
    rw [List.append_assoc, trimStart_append_of_isBlank hindent]
    refine trimStart_eq_self fun c hc => ?_
    cases part with
    | nil =>
      obtain rfl : '\\' = c := by simpa using hc
      decide
    | cons d part => exact hhead c hc
  simp only [joinLines, if_neg hne, htrim, continued?_concat heven]

/-- **The last part** closes what is open. -/
theorem joinLines_lastPart (hline : '\n' ∉ indent ++ part) (n start : Nat) :
    joinLines n start pending (lines (indent ++ part)) = [(start, pending ++ closed part)] := by
  have htrim : trimStart (indent ++ part) = part := by
    rw [trimStart_append_of_isBlank hindent]
    exact trimStart_eq_self hhead
  -- The last part makes no line if it is empty and not indented.
  by_cases hnil : indent ++ part = []
  · obtain ⟨-, rfl⟩ := List.append_eq_nil_iff.mp hnil
    have hclosed : closed [] = [] := rfl
    rw [hnil, hclosed, List.append_nil]
    exact if_neg hne
  · rw [lines_of_not_mem hnil hline]
    simp only [joinLines, if_neg hne, htrim, closed]
    cases continued? part with
    | none => rfl
    | some head => exact if_neg (by simp [hne])

end

/-- Parts go on with what is open, and the last of them closes it. -/
theorem joinLines_cutLine {indent part : List Char} {cuts : List (List Char × List Char)}
    {pending : List Char} (hparts : AreParts ((indent, part) :: cuts)) (hne : pending ≠ [])
    (hpaired : endBackslashes pending % 2 = 0) (n start : Nat) :
    joinLines n start pending (lines (cutLine (indent ++ part) cuts)) =
      [(start, pending ++ closed (uncut part cuts))] := by
  induction cuts generalizing indent part pending n with
  | nil =>
    have hindent := hparts.isBlank_indent _ List.mem_cons_self
    have hhead := hparts.isBlank_head? _ List.mem_cons_self
    have huncut : uncut part [] = part := List.append_nil part
    rw [cutLine, huncut]
    exact joinLines_lastPart hindent hhead hne
      (by simpa using hparts.noLineFeed _ List.mem_cons_self) n start
  | cons cut cuts ih =>
    obtain ⟨indent', part'⟩ := cut
    have hindent := hparts.isBlank_indent _ List.mem_cons_self
    have hhead := hparts.isBlank_head? _ List.mem_cons_self
    have heven : endBackslashes part % 2 = 0 := hparts.paired _ List.mem_cons_self
    have hopen : endBackslashes (pending ++ part) % 2 = 0 := by
      rw [endBackslashes_append_mod hpaired, heven]
    have huncut : uncut part ((indent', part') :: cuts) = part ++ uncut part' cuts := rfl
    rw [lines_cutLine_cons (by simpa using hparts.noLineFeed _ List.mem_cons_self),
      joinLines_openPart hindent hhead hne heven, ih hparts.tail (by simp [hne]) hopen, huncut,
      closed_append heven, List.append_assoc]

/-- A single line of which something is left once it is closed. -/
theorem logicalLines_of_not_mem {l : List Char} (hl : '\n' ∉ l)
    (hstart : ∃ c ∈ (trimStart l).head?, c ≠ '#' ∧ c ≠ '!') (hclosed : closed (trimStart l) ≠ []) :
    logicalLines l = [(1, closed (trimStart l))] := by
  obtain ⟨c, hc, hmark⟩ := hstart
  obtain ⟨cs, htrim⟩ := List.head?_eq_some_iff.mp hc
  have hne : l ≠ [] := by
    rintro rfl
    cases htrim
  have hidle : isIdle (trimStart l) = false := by simp [htrim, isIdle, hmark]
  unfold closed at hclosed ⊢
  rw [logicalLines, lines_of_not_mem hne hl]
  simp only [joinLines, if_true, hidle]
  cases hopen : continued? (trimStart l) with
  | none => rfl
  | some head =>
    rw [hopen] at hclosed
    exact if_neg hclosed

/-- **The logical line** of a line that was cut is that of the line. -/
theorem logicalLines_cutLine {first : List Char} {cuts : List (List Char × List Char)}
    (h : IsCut first cuts) : logicalLines (cutLine first cuts) = logicalLines (uncut first cuts) := by
  cases cuts with
  | nil => exact congrArg logicalLines (List.append_nil first).symm
  | cons cut cuts =>
    obtain ⟨indent, part⟩ := cut
    obtain ⟨c, hc, hmark⟩ := id h.start
    have hne : trimStart first ≠ [] := List.ne_nil_of_mem (List.mem_of_head? hc)
    have hidle : isIdle (trimStart first ++ ['\\']) = false := by
      obtain ⟨cs, hcs⟩ := List.head?_eq_some_iff.mp hc
      simp [hcs, isIdle, hmark]
    have hpaired : endBackslashes (trimStart first) % 2 = 0 := by
      rw [endBackslashes_trimStart]
      exact h.first_paired (by simp)
    have hrest : trimStart (uncut first ((indent, part) :: cuts)) =
        trimStart first ++ uncut part cuts := trimStart_append_of_ne_nil hne _
    have hclosed := closed_append hpaired (uncut part cuts)
    have hnot : '\n' ∉ uncut first ((indent, part) :: cuts) := by
      simp only [uncut, List.mem_append, List.mem_flatten, List.mem_map, not_or, not_exists, not_and]
      refine ⟨h.first_noLineFeed, ?_⟩
      rintro _ ⟨cut, hcut, rfl⟩
      exact (h.noLineFeed cut hcut).2
    rw [logicalLines_of_not_mem hnot ⟨c, by rw [hrest]; simp [Option.mem_def.mp hc], hmark⟩
      (by rw [hrest, hclosed]; simp [hne]), hrest, hclosed, logicalLines,
      lines_cutLine_cons h.first_noLineFeed]
    simp only [joinLines, if_true, trimStart_append_of_ne_nil hne, hidle, continued?_concat hpaired]
    exact joinLines_cutLine h.toAreParts hne hpaired 2 1

/-! ### Main result -/

/-- **Cuts do not count.** A line in parts is read as the line is: as the same entry, or refused for
the same reason at the same line. -/
theorem ofText_cutLine {first : List Char} {cuts : List (List Char × List Char)}
    (h : IsCut first cuts) : ofText (String.ofList (cutLine first cuts)) =
      ofText (String.ofList (uncut first cuts)) := by
  unfold ofText
  rw [String.toList_ofList, String.toList_ofList, logicalLines_cutLine h]

/-- Parts that end in a pair of backslashes, start with the mark of a comment, are empty and start with
a separator; and parts of a line without a key. -/
theorem ofText_cutLine_fourParts :
    IsCut "\tk \\\\".toList [(" ".toList, "#1".toList), ([], []), ("\x0b".toList, "= \\".toList)] ∧
      IsCut "=".toList [([], "a".toList)] ∧
      ofText "\tk \\\\\\\n #1\\\n\\\n\x0b= \\" = .ok (.ofList [("k", "\\#1=")]) ∧
      ofText "=\\\na" = .error (.malformed 1 "=a") := by
  have hparts : AreParts [(" ".toList, "#1".toList), ([], []), ("\x0b".toList, "= \\".toList)] :=
    ⟨by simp; decide, by decide, by simp; decide, by decide⟩
  have hcut : IsCut "\tk \\\\".toList
      [(" ".toList, "#1".toList), ([], []), ("\x0b".toList, "= \\".toList)] :=
    ⟨hparts, ⟨'k', rfl, by decide⟩, by decide, by decide⟩
  have hparts' : AreParts [([], "a".toList)] := ⟨by simp, by decide, by simp; decide, by decide⟩
  have hcut' : IsCut "=".toList [([], "a".toList)] :=
    ⟨hparts', ⟨'=', rfl, by decide⟩, by decide, by decide⟩
  exact ⟨hcut, hcut', (ofText_cutLine hcut).trans (by rfl), (ofText_cutLine hcut').trans (by rfl)⟩

end Ensemble.Properties
