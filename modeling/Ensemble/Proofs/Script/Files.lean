import Ensemble.Proofs.Disk.Files
import Ensemble.Proofs.Script.Leaves

/-!
# Files by path, on a disk

What reading a text, reading properties and removing a file come to, by the place that the path
leads to: `readText_leaves_iff`, `Properties.ofFile_leaves_iff` and `removeFile_leaves`.
-/

namespace Ensemble

open Script Disk

/-- The text of the file at a location, if there is one. -/
def Disk.text? (d : Disk) (l : Location) : Option String := (d.file? l).bind String.fromUTF8?

variable {d d' : Disk} {p : Path}

theorem fromUTF8?_toUTF8 (text : String) : String.fromUTF8? text.toUTF8 = some text := by
  unfold String.fromUTF8?
  exact dif_pos text.isValidUTF8

theorem toUTF8_eq_of_fromUTF8? {bytes : ByteArray} {text : String}
    (h : String.fromUTF8? bytes = some text) : text.toUTF8 = bytes := by
  unfold String.fromUTF8? at h
  split at h
  · rw [← Option.some.inj h]
    rfl
  · cases h

theorem Disk.text?_of_file? {l : Location} {text : String} (h : d.file? l = some text.toUTF8) :
    d.text? l = some text := by
  rw [text?, h, Option.bind_some, fromUTF8?_toUTF8]

theorem Disk.text?_congr {l : Location} (h : d'.file? l = d.file? l) : d'.text? l = d.text? l := by
  rw [text?, text?, h]

theorem Disk.isPresent_of_text? {l : Location} {text : String} (hshort : IsShort p)
    (hleads : d.LeadsTo p l) (htext : d.text? l = some text) : d.isPresent p = true := by
  obtain ⟨content, hcontent, -⟩ := Option.bind_eq_some_iff.mp htext
  rw [hleads.isPresent_iff hshort, isSome_node?_iff, hcontent]
  exact Or.inr rfl

/-! ### Questions -/

theorem leaves_read_iff {r : Except FileError ByteArray} :
    (Script.perform (.read p)).Leaves d r d' ↔ d.read p = r ∧ d = d' :=
  leaves_perform_iff.trans (Prod.ext_iff)

theorem leaves_canonical_iff {r : Except FileError Path} :
    (Script.perform (.canonical p)).Leaves d r d' ↔ d.canonical p = r ∧ d = d' :=
  leaves_perform_iff.trans (Prod.ext_iff)

theorem leaves_isFile_iff {b : Bool} :
    (Script.perform (.isFile p)).Leaves d b d' ↔ d.isFile p = b ∧ d = d' :=
  leaves_perform_iff.trans (Prod.ext_iff)

theorem leaves_isPresent_iff {b : Bool} :
    (isPresent p).Leaves d b d' ↔ d.isPresent p = b ∧ d = d' :=
  leaves_perform_iff.trans (Prod.ext_iff)

/-! ### Reading -/

theorem readText_leaves_iff {text : String} : (readText p).run.Leaves d (.ok text) d' ↔
    d' = d ∧ IsShort p ∧ ∃ l, d.LeadsTo p l ∧ d.text? l = some text := by
  unfold readText
  rw [Action.leaves_ok_bind_iff]
  constructor
  · rintro ⟨bytes, d₁, hask, h⟩
    obtain ⟨hread, rfl⟩ := leaves_read_iff.mp hask
    obtain ⟨hshort, l, hleads, hfile⟩ := read_eq_ok_iff.mp hread
    cases htext : String.fromUTF8? bytes with
    | none =>
      rw [htext] at h
      exact absurd h Action.leaves_ok_throw
    | some text' =>
      rw [htext] at h
      obtain ⟨rfl, rfl⟩ := Action.leaves_ok_pure_iff.mp h
      refine ⟨rfl, hshort, l, hleads, ?_⟩
      rw [text?, hfile, Option.bind_some, htext]
  · rintro ⟨rfl, hshort, l, hleads, htext⟩
    obtain ⟨bytes, hfile, htext⟩ := Option.bind_eq_some_iff.mp htext
    refine ⟨bytes, d', leaves_read_iff.mpr ⟨?_, rfl⟩, ?_⟩
    · exact read_eq_ok_iff.mpr ⟨hshort, l, hleads, hfile⟩
    · rw [htext]
      exact Action.leaves_ok_pure_iff.mpr ⟨rfl, rfl⟩

theorem Properties.ofFile_leaves_iff {props : Properties} :
    (Properties.ofFile p).run.Leaves d (.ok props) d' ↔
      d' = d ∧ IsShort p ∧
        ∃ l text, d.LeadsTo p l ∧ d.text? l = some text ∧ Properties.ofText text = .ok props := by
  unfold Properties.ofFile
  rw [Action.leaves_ok_bind_iff]
  constructor
  · rintro ⟨text, d₁, hread, h⟩
    obtain ⟨rfl, hshort, l, hleads, htext⟩ :=
      readText_leaves_iff.mp (Action.leaves_ok_onFile_iff.mp hread)
    obtain ⟨hprops, rfl⟩ := Action.leaves_ok_ofExcept_iff.mp h
    exact ⟨rfl, hshort, l, text, hleads, htext, hprops⟩
  · rintro ⟨rfl, hshort, l, text, hleads, htext, hprops⟩
    refine ⟨text, d', Action.leaves_ok_onFile_iff.mpr ?_,
      Action.leaves_ok_ofExcept_iff.mpr ⟨hprops, rfl⟩⟩
    exact readText_leaves_iff.mpr ⟨rfl, hshort, l, hleads, htext⟩

theorem Properties.ofFile_leaves_of_value {props : Properties}
    (h : ((Properties.ofFile p).run.run d).value = .ok props) :
    (Properties.ofFile p).run.Leaves d (.ok props) d := by
  have hleaves := leaves_of_value h
  rwa [(ofFile_leaves_iff.mp hleaves).1] at hleaves

/-- What a file of text is read as, refusals included. -/
theorem Properties.value_ofFile_of_text {l : Location} {text : String} (hshort : IsShort p)
    (hleads : d.LeadsTo p l) (htext : d.text? l = some text) :
    ((Properties.ofFile p).run.run d).value = Properties.ofText text :=
  Action.value_bind_of_leaves (Action.leaves_ok_onFile_iff.mpr
    (readText_leaves_iff.mpr ⟨rfl, hshort, l, hleads, htext⟩))

/-- A path is given back if something is there. -/
theorem PathCheck.strict_leaves_iff {q : Path} :
    (PathCheck.strict.verify p).run.Leaves d (.ok q) d' ↔ d.isPresent p ∧ q = p ∧ d' = d := by
  unfold PathCheck.verify
  rw [Action.leaves_ok_bind_iff]
  constructor
  · rintro ⟨u, d₁, hnotify, h⟩
    obtain rfl := leaves_notify_iff.mp (Action.leaves_ok_lift_iff.mp hnotify)
    rw [if_pos rfl] at h
    obtain ⟨b, d₂, hask, h⟩ := Action.leaves_ok_bind_iff.mp h
    obtain ⟨hb, rfl⟩ := leaves_isPresent_iff.mp (Action.leaves_ok_lift_iff.mp hask)
    cases b with
    | false =>
      obtain ⟨u', d₂, hthrow, -⟩ := Action.leaves_ok_bind_iff.mp h
      exact absurd hthrow Action.leaves_ok_throw
    | true => exact ⟨hb, Action.leaves_ok_pure_iff.mp h⟩
  · rintro ⟨hpresent, rfl, rfl⟩
    refine ⟨(), d', Action.leaves_ok_lift_iff.mpr (leaves_notify_iff.mpr rfl), ?_⟩
    rw [if_pos rfl]
    refine Action.leaves_ok_bind_iff.mpr ⟨true, d', ?_, Action.leaves_ok_pure_iff.mpr ⟨rfl, rfl⟩⟩
    exact Action.leaves_ok_lift_iff.mpr (leaves_isPresent_iff.mpr ⟨hpresent, rfl⟩)

/-! ### Removing -/

/-- **Removing** a file by its path. -/
theorem removeFile_leaves {u : Unit} (h : (removeFile p).Leaves d u d') :
    SameTree d d' ∧ (∀ l, d.LeadsTo p l → IsShort p → d'.file? l = none) ∧
      (∀ l, ¬ d.LeadsTo p l → d'.file? l = d.file? l) ∧
      ∀ l content, d'.file? l = some content → d.file? l = some content := by
  have hsame : ∀ {d₁ : Disk}, d₁ = d → (∀ l, d.LeadsTo p l → IsShort p → d.file? l = none) →
      SameTree d d₁ ∧ (∀ l, d.LeadsTo p l → IsShort p → d₁.file? l = none) ∧
        (∀ l, ¬ d.LeadsTo p l → d₁.file? l = d.file? l) ∧
        ∀ l content, d₁.file? l = some content → d.file? l = some content := by
    rintro _ rfl hnone
    exact ⟨.refl _, hnone, fun _ _ => rfl, fun _ _ hl => hl⟩
  obtain ⟨r, d₁, hremove, h⟩ := leaves_bind_iff.mp h
  have hperform := leaves_perform_iff.mp hremove
  simp only [Disk.perform, Disk.attempt] at hperform
  rcases remove_cases d p with ⟨l, hleads, hshort, -, d₂, hok, hchanged⟩ | ⟨⟨e, he⟩, hnone⟩
  · rw [hok] at hperform
    obtain ⟨rfl, rfl⟩ := Prod.mk.inj hperform
    obtain ⟨-, rfl⟩ := leaves_pure_iff.mp h
    refine ⟨hchanged.sameTree, ?_, ?_, ?_⟩
    · intro k hk _
      rw [hchanged.file?_eq_none, hk.unique hleads, Function.update_self]
    · intro k hk
      have hkl : k ≠ l := by
        rintro rfl
        exact hk hleads
      rw [hchanged.file?_eq_none, Function.update_of_ne hkl]
    · intro k content hk
      rw [hchanged.file?_eq_none] at hk
      by_cases hkl : k = l
      · rw [hkl, Function.update_self] at hk
        cases hk
      · rwa [Function.update_of_ne hkl] at hk
  · rw [he] at hperform
    obtain ⟨rfl, rfl⟩ := Prod.mk.inj hperform
    refine hsame ?_ hnone
    split at h
    · rename_i heq
      cases heq
    · exact (leaves_pure_iff.mp h).2
    · exact leaves_notify_iff.mp h

end Ensemble
