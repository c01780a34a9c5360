import Ensemble.Config.Settings
import Ensemble.Proofs.Except
import Ensemble.Proofs.Membership.ReadingBack

/-!
# Settings and the dynamic file

No setting but one depends on where the dynamic file is. So the settings that a static file states
are the same, the dynamic file aside, once a membership has moved from it to a dynamic file
(`Settings.ofProperties_pointedEntries`).
-/

namespace Ensemble

namespace Reported

variable {α α' β β' : Type} {x : Reported α} {x' : Reported α'} {f : α → Reported β}
  {f' : α' → Reported β'} {k : α → α'} {g : β → β'}

/-- A chain of steps gives the image of what another one gives, if its first step does and the rest
does. -/
theorem outcome_bind_eq_map (hx : x'.outcome = x.outcome.map k)
    (h : ∀ a, (f' (k a)).outcome = (f a).outcome.map g) :
    (x' >>= f').outcome = (x >>= f).outcome.map g := by
  rw [outcome_bind, outcome_bind, hx]
  cases x.outcome with
  | error e => rfl
  | ok a => exact h a

theorem outcome_bind_eq_map_self {f' : α → Reported β'}
    (h : ∀ a, (f' a).outcome = (f a).outcome.map g) :
    (x >>= f').outcome = (x >>= f).outcome.map g := by
  rw [outcome_bind, outcome_bind]
  cases x.outcome with
  | error e => rfl
  | ok a => exact h a

theorem outcome_bind_eq_ok_iff {b : β} :
    (x >>= f).outcome = .ok b ↔ ∃ a, x.outcome = .ok a ∧ (f a).outcome = .ok b := by
  rw [outcome_bind, Except.bind_eq_ok_iff]

end Reported

namespace Setting

theorem key_of_ofKey? {key : String} {setting : Setting} (h : ofKey? key = some setting) :
    setting.key = key := by
  simpa using List.find?_some h

theorem key_not_membership (setting : Setting) :
    MembershipKey.declares setting.key = false ∧ setting.key ≠ MembershipKey.version := by
  cases setting <;> decide

end Setting

theorem staysInStatic_iff {key : String} : staysInStatic false key ↔
    MembershipKey.declares key = false ∧ key ≠ MembershipKey.version ∧
      key ≠ Setting.dynamicConfigFile.key := by
  simp [staysInStatic, and_assoc]

namespace Settings

/-- The same settings with another dynamic file. -/
def withDynamicFile (s : Settings) (file : Option Path) : Settings := { s with dynamicFile := file }

variable {s t : Settings} {file : Option Path} {key value : String} {b b' : Bool}

/-! ### One entry -/

theorem set_withDynamicFile {setting : Setting} (h : setting ≠ .dynamicConfigFile) :
    ((s.withDynamicFile file).set setting value).outcome =
      (s.set setting value).outcome.map (withDynamicFile · file) := by
  cases setting with
  | dynamicConfigFile => exact absurd rfl h
  | _ => first | rfl | exact Reported.outcome_bind_eq_map_self fun _ => rfl

theorem enter_withDynamicFile (h : staysInStatic false key) :
    ((s.withDynamicFile file).enter b key value).outcome =
      (s.enter b' key value).outcome.map (withDynamicFile · file) := by
  obtain ⟨hdeclares, hversion, hdynamic⟩ := staysInStatic_iff.mp h
  unfold enter
  cases hkey : Setting.ofKey? key with
  | some setting =>
    refine set_withDynamicFile ?_
    rintro rfl
    exact hdynamic (Setting.key_of_ofKey? hkey).symm
  | none =>
    simp only [hdeclares, hversion, if_false, Bool.false_eq_true]
    rfl

/-- Entries of a membership are refused or change nothing. -/
theorem enter_of_not_staysInStatic (hstays : ¬ staysInStatic false key)
    (hdynamic : key ≠ Setting.dynamicConfigFile.key) : s.enter b key value =
      if MembershipKey.declares key ∧ b then Reported.refuse (.membershipInStaticFile key)
      else pure s := by
  unfold enter
  cases hkey : Setting.ofKey? key with
  | some setting =>
    obtain ⟨hdeclares, hversion⟩ := setting.key_not_membership
    rw [Setting.key_of_ofKey? hkey] at hdeclares hversion
    exact absurd (staysInStatic_iff.mpr ⟨hdeclares, hversion, hdynamic⟩) hstays
  | none =>
    cases hdeclares : MembershipKey.declares key with
    | true => simp
    | false =>
      have hversion : key = MembershipKey.version := by
        refine Classical.byContradiction fun hversion => hstays ?_
        exact staysInStatic_iff.mpr ⟨hdeclares, hversion, hdynamic⟩
      simp [hversion]

theorem eq_of_enter_eq_ok (hstays : ¬ staysInStatic false key)
    (hdynamic : key ≠ Setting.dynamicConfigFile.key)
    (h : (s.enter b key value).outcome = .ok t) : t = s := by
  rw [enter_of_not_staysInStatic hstays hdynamic] at h
  split at h
  · cases h
  · exact (Except.ok.inj h).symm

theorem enter_dynamicConfigFile :
    (s.enter b Setting.dynamicConfigFile.key value).outcome =
      .ok (s.withDynamicFile (some (.ofText value))) := rfl

/-! ### Many entries -/

/-- Entries in turn. -/
def enterAll (s : Settings) (b : Bool) (es : List (String × String)) : Reported Settings :=
  es.foldlM (fun s e => s.enter b e.1 e.2) s

theorem enterAll_cons {e : String × String} {es : List (String × String)} :
    s.enterAll b (e :: es) = s.enter b e.1 e.2 >>= fun s' => s'.enterAll b es := List.foldlM_cons

theorem enterAll_cons_eq_ok_iff {e : String × String} {es : List (String × String)} :
    (s.enterAll b (e :: es)).outcome = .ok t ↔
      ∃ s', (s.enter b e.1 e.2).outcome = .ok s' ∧ (s'.enterAll b es).outcome = .ok t := by
  rw [enterAll_cons, Reported.outcome_bind_eq_ok_iff]

theorem enter_withDynamicFile_eq_ok (h : staysInStatic false key)
    (ht : (s.enter b key value).outcome = .ok t) :
    ((s.withDynamicFile file).enter b' key value).outcome = .ok (t.withDynamicFile file) := by
  rw [enter_withDynamicFile h, ht]
  rfl

/-- What stays in the static file states the same settings, the dynamic file aside. -/
theorem enterAll_filter {es : List (String × String)} (h : (s.enterAll b es).outcome = .ok t) :
    ((s.withDynamicFile file).enterAll b' (es.filter fun e => staysInStatic false e.1)).outcome =
      .ok (t.withDynamicFile file) := by
  induction es generalizing s with
  | nil =>
    obtain rfl := Except.ok.inj h
    rfl
  | cons e es ih =>
    obtain ⟨s', he, hes⟩ := enterAll_cons_eq_ok_iff.mp h
    by_cases hstays : staysInStatic false e.1
    · rw [List.filter_cons, if_pos hstays]
      exact enterAll_cons_eq_ok_iff.mpr ⟨_, enter_withDynamicFile_eq_ok hstays he, ih hes⟩
    · rw [List.filter_cons, if_neg hstays]
      have hsame : s'.withDynamicFile file = s.withDynamicFile file := by
        by_cases hkey : e.1 = Setting.dynamicConfigFile.key
        · rw [hkey, enter_dynamicConfigFile] at he
          rw [← Except.ok.inj he]
          rfl
        · rw [eq_of_enter_eq_ok hstays hkey he]
      rw [← hsame]
      exact ih hes

/-- Entries that stay state the same settings, the dynamic file aside. -/
theorem enterAll_withDynamicFile {es : List (String × String)}
    (hstays : ∀ e ∈ es, staysInStatic false e.1) :
    ((s.withDynamicFile file).enterAll b' es).outcome =
      (s.enterAll b es).outcome.map (withDynamicFile · file) := by
  induction es generalizing s with
  | nil => rfl
  | cons e es ih =>
    obtain ⟨he, hes⟩ := List.forall_mem_cons.mp hstays
    rw [enterAll_cons, enterAll_cons]
    exact Reported.outcome_bind_eq_map (enter_withDynamicFile he) fun s' => ih hes

/-- Wherever the dynamic file is named among the entries, it is the one that counts. -/
theorem enterAll_insertEntry {es : List (String × String)}
    (hstays : ∀ e ∈ es, staysInStatic false e.1) :
    ((s.withDynamicFile file).enterAll b'
      (Table.insertEntry Setting.dynamicConfigFile.key value es)).outcome =
        (s.enterAll b es).outcome.map (withDynamicFile · (some (.ofText value))) := by
  induction es generalizing s with
  | nil => rfl
  | cons e es ih =>
    obtain ⟨he, hes⟩ := List.forall_mem_cons.mp hstays
    unfold Table.insertEntry
    split
    · rw [enterAll_cons, Reported.outcome_bind, enter_dynamicConfigFile]
      exact @enterAll_withDynamicFile s (some (.ofText value)) b b' _ hstays
    · rename_i heq
      exact absurd (Std.LawfulEqCmp.eq_of_compare heq).symm (staysInStatic_iff.mp he).2.2
    · rw [enterAll_cons, enterAll_cons]
      exact Reported.outcome_bind_eq_map (enter_withDynamicFile he) fun s' => ih hes

/-- Without a dynamic file, entries of a membership change nothing. -/
theorem enterAll_filter_staysInStatic {es : List (String × String)}
    (hes : ∀ e ∈ es, e.1 ≠ Setting.dynamicConfigFile.key) :
    s.enterAll false (es.filter fun e => staysInStatic false e.1) = s.enterAll false es := by
  induction es generalizing s with
  | nil => rfl
  | cons e es ih =>
    obtain ⟨he, hes⟩ := List.forall_mem_cons.mp hes
    by_cases hstays : staysInStatic false e.1
    · rw [List.filter_cons, if_pos hstays, enterAll_cons, enterAll_cons]
      exact congrArg _ (funext fun s' => ih hes)
    · have hsame : s.enter false e.1 e.2 = pure s := by
        rw [enter_of_not_staysInStatic hstays he, if_neg (by simp)]
      rw [List.filter_cons, if_neg hstays, enterAll_cons, hsame, pure_bind]
      exact ih hes

theorem dynamicFile_of_enterAll {es : List (String × String)}
    (hes : ∀ e ∈ es, e.1 ≠ Setting.dynamicConfigFile.key) (h : (s.enterAll b es).outcome = .ok t) :
    t.dynamicFile = s.dynamicFile := by
  induction es generalizing s with
  | nil =>
    obtain rfl := Except.ok.inj h
    rfl
  | cons e es ih =>
    obtain ⟨s', he, hrest⟩ := enterAll_cons_eq_ok_iff.mp h
    rw [ih (fun e' he' => hes e' (by simp [he'])) hrest]
    by_cases hstays : staysInStatic false e.1
    · have hsame := @enter_withDynamicFile_eq_ok s s' s.dynamicFile e.1 e.2 b b hstays he
      have hs' : s' = s'.withDynamicFile s.dynamicFile := Except.ok.inj (he.symm.trans hsame)
      rw [hs']
      rfl
    · rw [eq_of_enter_eq_ok hstays (hes e (by simp)) he]

/-! ### Static files -/

variable {context : Context} {props : Properties}

/-- **The settings** of a static file once it names a dynamic file: the path that is read is what is
shown of it. -/
theorem ofProperties_pointedEntries (h : (ofProperties context props).outcome = .ok s)
    (dynamicFile : Path) :
    (ofProperties context (pointedEntries props dynamicFile false)).outcome =
      .ok (s.withDynamicFile (some (.ofText dynamicFile.display))) := by
  have hstays : ∀ e ∈ props.toList.filter (fun e => staysInStatic false e.1),
      staysInStatic false e.1 := fun e he => (List.mem_filter.mp he).2
  have hkept := @enterAll_filter { context } s none _ false _ h
  have hpointed := @enterAll_insertEntry { context } none dynamicFile.display false
    ((pointedEntries props dynamicFile false).contains Setting.dynamicConfigFile.key) _ hstays
  exact hpointed.trans (congrArg (Except.map _) hkept)

theorem key_mem_of_dynamicFile {file : Path} (h : (ofProperties context props).outcome = .ok s)
    (hfile : s.dynamicFile = some file) : Setting.dynamicConfigFile.key ∈ props.keys := by
  refine Classical.byContradiction fun hkey => ?_
  have hnone := dynamicFile_of_enterAll (fun e he hkey' => hkey ?_) h
  · rw [hfile] at hnone
    cases hnone
  · rw [← hkey']
    exact Table.mem_keys_of_mem he

end Settings

end Ensemble
