import Ensemble.Membership.Layout
import Ensemble.Proofs.Path.Names
import Ensemble.Proofs.Path.Texts
import Ensemble.Proofs.Text.Numeral

/-!
# Names of the files of a membership

Around a static file, every other file is named by the last field of its path and an ending of its
own: a dynamic file by its version, which is read back from the name (`Layout.version?_dynamicFile`),
the proposal beside it by `next` (`Layout.nextFile_dynamicFile`). The proposal beside any dynamic file
has a name that ends in `next` (`EndsIn.exists_nextFile`).
-/

namespace Ensemble

open Text

namespace Path

/-! ### Extensions -/

theorem cutLast_eq_none {sep : Char} {cs : List Char} (h : sep ∉ cs) : cutLast sep cs = none := by
  induction cs with
  | nil => rfl
  | cons c cs ih =>
    rw [List.mem_cons, not_or] at h
    rw [cutLast, ih h.2]
    simp [Ne.symm h.1]

theorem cutLast_append {sep : Char} {ending : List Char} (h : sep ∉ ending) (before : List Char) :
    cutLast sep (before ++ sep :: ending) = some (before, ending) := by
  induction before with
  | nil => simp [cutLast, cutLast_eq_none h]
  | cons c before ih => rw [List.cons_append, cutLast, ih]

theorem cutExtension_append {stem ext : List Char} (hne : stem ≠ []) (h : '.' ∉ ext) :
    cutExtension (stem ++ '.' :: ext) = (stem, some ext) := by
  obtain ⟨c, cs, rfl⟩ := List.exists_cons_of_ne_nil hne
  rw [cutExtension, cutLast_append h]

theorem cutLast_eq_some {sep : Char} {cs before ending : List Char}
    (h : cutLast sep cs = some (before, ending)) : cs = before ++ sep :: ending := by
  induction cs generalizing before with
  | nil => cases h
  | cons c cs ih =>
    unfold cutLast at h
    split at h
    · rename_i before' ending' hcut
      obtain ⟨rfl, rfl⟩ := Prod.mk.inj (Option.some.inj h)
      rw [ih hcut, List.cons_append]
    · split at h
      · rename_i hc
        obtain ⟨rfl, rfl⟩ := Prod.mk.inj (Option.some.inj h)
        rw [hc, List.nil_append]
      · cases h

/-- A name is its stem and what its extension adds. -/
theorem cutExtension_cases (name : List Char) :
    cutExtension name = (name, none) ∨ ∃ stem ext, cutExtension name = (stem, some ext) ∧
      stem ≠ [] ∧ name = stem ++ '.' :: ext := by
  unfold cutExtension
  split
  · rename_i c before after hcut
    exact Or.inr ⟨c :: before, after, rfl, by simp, cutLast_eq_some hcut⟩
  · exact Or.inl rfl

namespace EndsIn

variable {p : Path} {before name : List Char}

theorem upToStem (h : p.EndsIn before name) :
    p.upToStem.text.toList = before ++ (cutExtension name).1 := by
  obtain ⟨rest, hbefore, hparts, hlast, -⟩ := h.exists_parts
  have hstem : '/' ∉ (cutExtension name).1 := by
    rcases cutExtension_cases name with hcut | ⟨stem, ext, hcut, -, hname⟩
    · rw [hcut]
      exact h.isName.noSeparator
    · rw [hcut]
      intro hc
      exact h.isName.noSeparator (by simp [hname, hc])
  have hjoined := intercalate_dropLast_fields hlast hstem
  unfold Path.upToStem
  rw [h.fileName?_eq, hparts, List.dropLast_concat]
  simp only [ofParts, String.toList_ofList]
  rw [hjoined, hbefore, List.append_assoc]

/-- A name that ends in a dot is cut off at the dot. With `..`, which is no name, nothing is. -/
theorem upToStem_of_dot {stem : List Char} (htext : p.text.toList = before ++ (stem ++ ['.']))
    (hlast : ∀ c ∈ before.getLast?, c = '/') (hsep : '/' ∉ stem) (hne : stem ≠ []) :
    p.upToStem.text.toList = before ++ if stem = ['.'] then ['.', '.'] else stem := by
  split
  · rename_i hhere
    have hup : EndsInStep p before ['.', '.'] :=
      ⟨by rw [htext, hhere]; rfl, hlast, by simp, by simp, by simp⟩
    obtain ⟨rest, -, hparts, -⟩ := hup.exists_parts
    unfold Path.upToStem
    rw [fileName?, hparts, List.getLast?_concat]
    exact hup.toList_text
  · rename_i hhere
    have hends : EndsIn p before (stem ++ ['.']) := by
      refine ⟨⟨htext, hlast, by simp, by simp [hsep], ?_⟩, ?_⟩
      · intro heq
        obtain ⟨c, cs, rfl⟩ := List.exists_cons_of_ne_nil hne
        simp at heq
      · intro heq
        exact hhere (List.append_inj_left' heq rfl)
    rw [hends.upToStem, cutExtension_append hne (by simp)]

theorem take_length_sub {stem ext : List Char} (h : p.EndsIn before (stem ++ '.' :: ext)) :
    p.text.toList.take (p.text.length - ext.length) = before ++ (stem ++ ['.']) := by
  have htext : p.text.toList = (before ++ (stem ++ ['.'])) ++ ext := by
    simp [h.toList_text]
  have hlen : p.text.length - ext.length = (before ++ (stem ++ ['.'])).length := by
    rw [← String.length_toList, htext, List.length_append]
    omega
  rw [hlen, htext, List.take_left]

/-- The path without its extension stays in its directory. -/
theorem exists_dropExtension (h : p.EndsIn before name) : ∃ stem, '/' ∉ stem ∧
    p.dropExtension.text.toList = before ++ stem ∧
      ∀ base ext, name = base ++ '.' :: ext → '.' ∉ ext → base ≠ [] → base ≠ ['.'] →
        stem = base := by
  unfold dropExtension
  rw [h.fileName?_eq, Option.bind_some]
  rcases cutExtension_cases name with hcut | ⟨stem, ext, hcut, hne, rfl⟩
  · refine ⟨name, h.isName.noSeparator, ?_, ?_⟩
    · rw [hcut]
      simp only
      rw [h.upToStem, hcut]
    · intro base ext hbase hext hne
      rw [hbase, cutExtension_append hne hext] at hcut
      simp at hcut
  · have hsep : '/' ∉ stem := fun hc => h.isName.noSeparator (by simp [hc])
    rw [hcut]
    refine ⟨if stem = ['.'] then ['.', '.'] else stem, ?_, ?_, ?_⟩
    · split
      · decide
      · exact hsep
    · exact upToStem_of_dot (by rw [String.toList_ofList, h.take_length_sub]) h.last hsep hne
    · intro base ext' hbase hext' hbasene hhere
      rw [hbase, cutExtension_append hbasene hext'] at hcut
      obtain rfl : base = stem := (Prod.mk.inj hcut).1
      rw [if_neg hhere]

/-- A name that is a text states the version after its last dot. -/
theorem version?_eq {t : String} {stem ending : List Char} (h : p.EndsIn before (utf8 t).toList)
    (ht : t.toList = stem ++ '.' :: ending) (hdot : '.' ∉ ending) :
    p.version? = hex64? (String.ofList ending) := by
  have htext : toText? ⟨String.ofList (utf8 t).toList⟩ = some t := by
    rw [toText?_eq_some_iff, String.ofList_toList]
    rfl
  unfold version?
  rw [h.fileName?_eq]
  simp only [Option.bind_eq_bind, Option.bind_some, htext]
  rw [ht, cutLast_append hdot, Option.bind_some]

/-- A name that ends in no number after its last dot states no version. -/
theorem version?_eq_none {stem ending : List Char} (h : p.EndsIn before (stem ++ '.' :: ending))
    (hdot : '.' ∉ ending) (hascii : IsAscii ending)
    (hhex : hex64? (String.ofList ending) = none) : p.version? = none := by
  by_cases htext : ∃ t : String, (utf8 t).toList = stem ++ '.' :: ending
  · obtain ⟨t, ht⟩ := htext
    obtain ⟨x, y, hcut, -, hy⟩ := exists_append_of_utf8 (by decide) ht
    have hy' : String.ofList y = String.ofList ending := by
      have hself : utf8 (String.ofList ending) = String.ofList ending :=
        utf8_eq_self (by rwa [String.toList_ofList])
      refine utf8_injective ?_
      rw [hself, hy, String.ofList_toList]
    obtain rfl := String.ofList_injective hy'
    rw [← ht] at h
    rw [h.version?_eq hcut hdot, hhex]
  · have hnone : toText? ⟨String.ofList (stem ++ '.' :: ending)⟩ = none := by
      rw [toText?_eq_none_iff]
      rintro ⟨t, ht⟩
      refine htext ⟨t, ?_⟩
      rw [← String.toList_ofList (l := stem ++ '.' :: ending)]
      exact congrArg (fun q : Path => q.text.toList) ht.symm
    unfold version?
    rw [h.fileName?_eq]
    simp only [Option.bind_eq_bind, Option.bind_some, hnone, Option.bind_none]

/-- **The proposal beside a dynamic file** stays in its directory, and its name ends in `.next`. That
is another name, also with `.tmp` at its end. -/
theorem exists_nextFile (h : p.EndsIn before name) :
    ∃ stem, p.nextFile.EndsIn before (stem ++ ".next".toList) ∧
      name ≠ stem ++ ".next".toList ∧ name ≠ stem ++ ".next.tmp".toList := by
  have hnext : ∀ {q : Path} {stem : List Char}, '/' ∉ stem → q.text.toList = before ++ stem →
      (q.append ".next").EndsIn before (stem ++ ".next".toList) := by
    intro q stem hstem hq
    have hname : IsName (stem ++ ".next".toList) := by
      refine isName_of_length (by simp [hstem]) ?_
      rw [List.length_append]
      exact Nat.le_trans (by decide) (Nat.le_add_left _ _)
    exact ⟨⟨by simp [Path.append, hq], h.last, hname.toIsStep⟩, hname.ne_up⟩
  unfold nextFile
  split
  · rename_i hversion
    obtain ⟨stem, hstem, htext, -⟩ := h.exists_dropExtension
    refine ⟨stem, hnext hstem htext, ?_, ?_⟩
    · intro hname
      have hsplit : name = stem ++ '.' :: "next".toList := by simp [hname]
      rw [hsplit] at h
      rw [version?_eq_none h (by decide) (by decide) (by decide)] at hversion
      cases hversion
    · intro hname
      have hsplit : name = (stem ++ ".next".toList) ++ '.' :: "tmp".toList := by simp [hname]
      rw [hsplit] at h
      rw [version?_eq_none h (by decide) (by decide) (by decide)] at hversion
      cases hversion
  · exact ⟨name, hnext h.isName.noSeparator h.toList_text, by simp, by simp⟩

end EndsIn

end Path

/-! ### Files of a layout -/

theorem dot_not_mem_hex (n : Nat) : '.' ∉ (hex n).toList := fun h =>
  absurd (isAlphanum_of_mem_hex h) (by decide)

theorem isAscii_hex (n : Nat) : IsAscii (hex n).toList := fun _ hc =>
  lt_of_isAlphanum (isAlphanum_of_mem_hex hc)

theorem separator_not_mem_hex (n : Nat) : '/' ∉ (hex n).toList := fun h =>
  absurd (isAlphanum_of_mem_hex h) (by decide)

namespace Path

/-- The text of a path is `before`, which is empty or ends in a separator, and a last field, whatever
that is. -/
structure EndsInField (p : Path) (before field : List Char) : Prop where
  toList_text : p.text.toList = before ++ field
  last : ∀ c ∈ before.getLast?, c = '/'
  noSeparator : '/' ∉ field

variable {p : Path} {before field : List Char}

theorem exists_endsInField (p : Path) : ∃ before field, p.EndsInField before field := by
  obtain ⟨before, field, htext, hfield, hlast⟩ := exists_last_field '/' p.text.toList
  exact ⟨before, field, htext, hlast, hfield⟩

theorem EndsInField.unique {before' field' : List Char} (h : p.EndsInField before field)
    (h' : p.EndsInField before' field') : before = before' ∧ field = field' := by
  have hfields := (fields_append_name h.last h.noSeparator).symm.trans
    ((congrArg (fields '/') (h.toList_text.symm.trans h'.toList_text)).trans
      (fields_append_name h'.last h'.noSeparator))
  have hfield : field = field' := List.singleton_inj.mp (List.append_inj' hfields rfl).2
  rw [hfield] at h
  exact ⟨List.append_cancel_right (h.toList_text.symm.trans h'.toList_text), hfield⟩

theorem EndsIn.endsInField (h : p.EndsIn before field) : p.EndsInField before field :=
  ⟨h.toList_text, h.last, h.isName.noSeparator⟩

theorem EndsInField.endsIn (h : p.EndsInField before field) (hname : IsName field) :
    p.EndsIn before field :=
  ⟨⟨h.toList_text, h.last, hname.toIsStep⟩, hname.ne_up⟩

/-- A field with a long ending is a name. -/
theorem EndsInField.append (h : p.EndsInField before field) {suffix : String}
    (hsuffix : '/' ∉ suffix.toList) (hlen : 3 ≤ suffix.length) :
    (p.append suffix).EndsIn before (field ++ suffix.toList) := by
  have hname : IsName (field ++ suffix.toList) := by
    refine isName_of_length (by simp [h.noSeparator, hsuffix]) ?_
    rw [List.length_append, String.length_toList]
    omega
  refine ⟨⟨?_, h.last, hname.toIsStep⟩, hname.ne_up⟩
  simp [Path.append, h.toList_text]

/-- The last field of the path is a text. -/
def IsNamedByText (p : Path) : Prop :=
  ∃ (before : List Char) (t : String), p.EndsInField before (utf8 t).toList

theorem EndsInField.isNamedByText_iff (h : p.EndsInField before field) :
    p.IsNamedByText ↔ ∃ t : String, field = (utf8 t).toList := by
  constructor
  · rintro ⟨before', t, h'⟩
    exact ⟨t, (h.unique h').2⟩
  · rintro ⟨t, rfl⟩
    exact ⟨before, t, h⟩

theorem IsText.isNamedByText (h : p.IsText) : p.IsNamedByText := by
  obtain ⟨before, field, hends⟩ := p.exists_endsInField
  exact hends.isNamedByText_iff.mpr (h.exists_utf8 hends.toList_text hends.last)

end Path

namespace Layout

variable {l : Layout} {before name : List Char}

variable (h : l.staticFile.EndsInField before name)
include h

theorem dynamicBase_endsIn : l.dynamicBase.EndsIn before (name ++ ".dynamic".toList) :=
  h.append (by decide) (by decide)

theorem dynamicFile_endsIn (v : Version) : (l.dynamicFile v).EndsIn before
    ((name ++ ".dynamic".toList) ++ '.' :: (hex v.toNat).toList) := by
  have hending : '/' ∉ ("." ++ hex v.toNat).toList := by simp [separator_not_mem_hex]
  have hfile := (dynamicBase_endsIn h).append hending
  simpa [dynamicFile] using hfile

theorem nextFile_endsIn : l.nextFile.EndsIn before (name ++ ".dynamic.next".toList) := by
  have hnext : '/' ∉ ".next".toList := by decide
  have hfile := (dynamicBase_endsIn h).append hnext
  simpa [nextFile] using hfile

theorem besideFile_endsIn (v : Version) : ((l.dynamicFile v).append ".next").EndsIn before
    (name ++ (".dynamic." ++ hex v.toNat ++ ".next").toList) := by
  have hnext : '/' ∉ ".next".toList := by decide
  have hfile := (dynamicFile_endsIn h v).endsInField.append hnext (by decide)
  simpa using hfile

theorem backupFile_endsIn : l.backupFile.EndsIn before (name ++ ".bak".toList) :=
  h.append (by decide) (by decide)

/-- Without its extension, a dynamic file is what all of them start with. -/
theorem dropExtension_dynamicFile (v : Version) :
    (l.dynamicFile v).dropExtension = l.dynamicBase := by
  have hfile := dynamicFile_endsIn h v
  obtain ⟨stem, -, htext, hstem⟩ := hfile.exists_dropExtension
  have hbase : stem = name ++ ".dynamic".toList := by
    refine hstem _ _ rfl (dot_not_mem_hex _) (by simp) ?_
    intro heq
    have hlen := congrArg List.length heq
    simp at hlen
  have htexts : (l.dynamicFile v).dropExtension.text = l.dynamicBase.text := by
    rw [← String.toList_inj, htext, hbase]
    simp [dynamicBase, Path.append, h.toList_text]
  cases hd : (l.dynamicFile v).dropExtension with
  | mk text =>
    rw [hd] at htexts
    exact congrArg Path.mk htexts

omit h in
theorem dynamicFile_ofText (t : String) (v : Version) :
    (Layout.mk (.ofText t)).dynamicFile v = .ofText (t ++ ".dynamic." ++ hex v.toNat) := by
  have htext : t ++ ".dynamic" ++ ("." ++ hex v.toNat) = t ++ ".dynamic." ++ hex v.toNat := by
    rw [← String.toList_inj]
    simp
  have hsuffix : IsAscii ("." ++ hex v.toNat).toList := by
    rw [String.toList_append]
    exact IsAscii.append (by decide) (isAscii_hex _)
  rw [dynamicFile, dynamicBase, Path.append_ofText (by decide), Path.append_ofText hsuffix, htext]

omit h in
/-- **The version** of a dynamic file is read back from its name, if that is a text. -/
theorem version?_dynamicFile (htext : l.staticFile.IsNamedByText) (v : Version) :
    (l.dynamicFile v).version? = some v := by
  obtain ⟨before, t, h⟩ := htext
  have hname : (utf8 (t ++ ".dynamic." ++ hex v.toNat)).toList =
      (utf8 t).toList ++ ".dynamic".toList ++ '.' :: (hex v.toNat).toList := by
    rw [utf8_append, utf8_append, utf8_eq_self (s := ".dynamic.") (by decide),
      utf8_eq_self (isAscii_hex _)]
    simp
  have hfile := dynamicFile_endsIn h v
  rw [← hname] at hfile
  have hcut : (t ++ ".dynamic." ++ hex v.toNat).toList =
      (t ++ ".dynamic").toList ++ '.' :: (hex v.toNat).toList := by simp
  rw [hfile.version?_eq hcut (dot_not_mem_hex _), String.ofList_toList, hex64?_hex]

omit h in
/-- **The proposal** beside a dynamic file of a layout is that of the layout, if the names are
texts. Where they are not, it has the version in its name. -/
theorem nextFile_dynamicFile_cases (v : Version) : (l.dynamicFile v).nextFile = l.nextFile ∨
    (l.dynamicFile v).version? = none ∧
      (l.dynamicFile v).nextFile = (l.dynamicFile v).append ".next" := by
  obtain ⟨before, name, h⟩ := l.staticFile.exists_endsInField
  unfold Path.nextFile
  rw [dropExtension_dynamicFile h]
  cases (l.dynamicFile v).version? with
  | none => exact Or.inr ⟨rfl, rfl⟩
  | some w => exact Or.inl rfl

omit h in
theorem nextFile_dynamicFile (htext : l.staticFile.IsNamedByText) (v : Version) :
    (l.dynamicFile v).nextFile = l.nextFile := by
  rcases nextFile_dynamicFile_cases (l := l) v with hnext | ⟨hnone, -⟩
  · exact hnext
  · rw [version?_dynamicFile htext] at hnone
    cases hnone

end Layout

end Ensemble
