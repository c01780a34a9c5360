import Ensemble.Proofs.Properties.Entries
import Ensemble.Proofs.Table
import Ensemble.Proofs.Text.Lines
import Mathlib.Algebra.GroupWithZero.Nat
import Mathlib.Algebra.Order.BigOperators.Group.List
import Mathlib.Algebra.Order.Group.Nat

/-!
# What backslashes pay for

A line feed in a value takes a backslash in the text, and a backslash in a value takes two (`cost`).
So the values that a text gives cost no more than the text has backslashes (`costOfValues_ofText`).
More generally, what the keys and the values of a text hold of some characters, a backslash counted
twice (`costOf`), the text has to hold itself or pay for in backslashes (`costOfEntries_ofText`).
-/

namespace Ensemble.Properties

open Text

/-- How many backslashes it takes to write a text as a value. -/
def cost (cs : List Char) : Nat := cs.count '\n' + 2 * cs.count '\\'

theorem cost_le_of_sublist {cs ds : List Char} (h : cs.Sublist ds) : cost cs ≤ cost ds := by
  have hn := h.count_le '\n'
  have hb := h.count_le '\\'
  unfold cost
  omega

/-- How many characters of a kind a text holds, a backslash counted twice. -/
def costOf (p : Char → Bool) (cs : List Char) : Nat := cs.countP p + 2 * cs.count '\\'

/-- What a text pays for: its characters of a kind, and one more for each backslash. -/
def worth (p : Char → Bool) (cs : List Char) : Nat := cs.countP p + cs.count '\\'

variable (p : Char → Bool)

theorem costOf_cons (c : Char) (cs : List Char) :
    costOf p (c :: cs) = costOf p [c] + costOf p cs := by
  rw [← List.singleton_append]
  simp only [costOf, List.countP_append, List.count_append]
  omega

theorem worth_append (cs ds : List Char) : worth p (cs ++ ds) = worth p cs + worth p ds := by
  simp only [worth, List.countP_append, List.count_append]
  omega

theorem worth_cons (c : Char) (cs : List Char) : worth p (c :: cs) = worth p [c] + worth p cs :=
  worth_append p [c] cs

theorem worth_le_of_sublist {cs ds : List Char} (h : cs.Sublist ds) : worth p cs ≤ worth p ds :=
  Nat.add_le_add (h.countP_le) (h.count_le _)

/-! ### Values -/

theorem costOf_escapedChar (c : Char) : costOf p [escapedChar c] ≤ 1 + worth p [c] := by
  have hsingle : ∀ d : Char, d ≠ '\\' → costOf p [d] ≤ 1 := by
    intro d hd
    have hcount : [d].countP p ≤ 1 := List.countP_le_length
    simpa [costOf, hd] using hcount
  have hcontrol : ∀ d : Char, d ≠ '\\' → costOf p [d] ≤ 1 + worth p [c] := fun d hd =>
    Nat.le_trans (hsingle d hd) (Nat.le_add_right _ _)
  unfold escapedChar
  split_ifs
  · exact hcontrol _ (by decide)
  · exact hcontrol _ (by decide)
  · exact hcontrol _ (by decide)
  · exact hcontrol _ (by decide)
  · by_cases hslash : c = '\\'
    · subst hslash
      simp only [costOf, worth, List.count_singleton_self]
      omega
    · exact hcontrol c hslash

theorem worth_backslash (cs : List Char) : 1 + worth p cs ≤ worth p ('\\' :: cs) := by
  simp only [worth, List.count_cons_self, List.countP_cons]
  omega

theorem costOf_eq_worth {c : Char} (h : c ≠ '\\') : costOf p [c] = worth p [c] := by
  simp [costOf, worth, h]

theorem costOf_unescape (cs : List Char) : costOf p (unescape cs) ≤ worth p cs := by
  induction cs using unescape.induct with
  | case1 => simp [unescape, costOf]
  | case2 c cs ih =>
    have hc := costOf_escapedChar p c
    have hpaid := worth_backslash p (c :: cs)
    rw [worth_cons] at hpaid
    rw [unescape, costOf_cons]
    omega
  | case3 => simp [unescape, costOf]
  | case4 c cs h1 h2 ih =>
    have hc : c ≠ '\\' := by
      rintro rfl
      cases cs with
      | nil => exact h2 rfl rfl
      | cons d ds => exact h1 d ds rfl rfl
    rw [unescape_cons_of_ne hc, costOf_cons, worth_cons, costOf_eq_worth p hc]
    omega

/-! ### Entries -/

theorem afterBlank_sublist (cs : List Char) : (afterBlank cs).Sublist cs := by
  have htrim : (trimStart cs).Sublist cs := (trimStart_suffix cs).sublist
  unfold afterBlank
  cases h : trimStart cs with
  | nil => simp
  | cons c rest =>
    rw [h] at htrim
    simp only
    split
    · exact (List.sublist_cons_self c rest).trans htrim
    · exact htrim

theorem costOf_splitKey (cs : List Char) :
    costOf p (splitKey cs).1 + worth p (splitKey cs).2 ≤ worth p cs := by
  induction cs using unescape.induct with
  | case1 => simp [splitKey, costOf, worth]
  | case2 c cs ih =>
    have hc := costOf_escapedChar p c
    have hpaid := worth_backslash p (c :: cs)
    rw [worth_cons] at hpaid
    change costOf p (escapedChar c :: (splitKey cs).1) + worth p (splitKey cs).2 ≤ _
    rw [costOf_cons]
    omega
  | case3 => simp [splitKey, costOf, worth]
  | case4 c cs h1 h2 ih =>
    have hc : c ≠ '\\' := by
      rintro rfl
      cases cs with
      | nil => exact h2 rfl rfl
      | cons d ds => exact h1 d ds rfl rfl
    have hnil : costOf p [] = 0 := rfl
    rw [splitKey_cons_of_ne hc]
    split
    · rw [hnil, Nat.zero_add]
      exact worth_le_of_sublist p (List.sublist_cons_self c cs)
    · split
      · rw [hnil, Nat.zero_add]
        exact worth_le_of_sublist p ((afterBlank_sublist cs).cons c)
      · change costOf p (c :: (splitKey cs).1) + worth p (splitKey cs).2 ≤ _
        rw [costOf_cons, worth_cons, costOf_eq_worth p hc]
        omega

theorem costOf_entry {n : Nat} {l : List Char} {e : String × String} (h : entry n l = .ok e) :
    costOf p e.1.toList + costOf p e.2.toList ≤ worth p l := by
  unfold entry at h
  simp only at h
  split at h
  · cases h
  · cases h
    have hline := worth_le_of_sublist p (trim_infix_self l).sublist
    have hsplit := costOf_splitKey p (trim l)
    have hrest := worth_le_of_sublist p (trim_infix_self (splitKey (trim l)).2).sublist
    have hvalue := costOf_unescape p (trim (splitKey (trim l)).2)
    rw [String.toList_ofList, String.toList_ofList]
    omega

/-! ### Lines -/

theorem flatten_joinLines_sublist (ls : List (List Char)) (n start : Nat) (pending : List Char) :
    ((joinLines n start pending ls).map Prod.snd).flatten.Sublist (pending ++ ls.flatten) := by
  induction ls generalizing n start pending with
  | nil =>
    unfold joinLines
    split <;> simp
  | cons raw ls ih =>
    have hraw : (trimStart raw).Sublist raw := (trimStart_suffix raw).sublist
    have hhead : ∀ head, continued? (trimStart raw) = some head → head.Sublist raw := by
      intro head h
      unfold continued? at h
      split at h
      · cases h
        exact (List.dropLast_sublist _).trans hraw
      · cases h
    rw [List.flatten_cons]
    simp only [joinLines]
    split
    · rename_i hpending
      rw [hpending, List.nil_append]
      split
      · exact (ih (n + 1) n []).trans (List.sublist_append_right _ _)
      · split
        · rename_i head h
          exact (ih (n + 1) n head).trans ((hhead head h).append_right _)
        · exact hraw.append (ih (n + 1) n [])
    · split
      · rename_i head h
        have hih := ih (n + 1) start (pending ++ head)
        rw [List.append_assoc] at hih
        exact hih.trans (((hhead head h).append_right _).append_left _)
      · rw [List.map_cons, List.flatten_cons, List.append_assoc]
        exact (hraw.append (ih (n + 1) n [])).append_left _

/-! ### Texts -/

/-- What the values of properties cost together. -/
def costOfValues (es : List (String × String)) : Nat := (es.map fun e => cost e.2.toList).sum

/-- What keys and values hold together. -/
def costOfEntries (es : List (String × String)) : Nat :=
  (es.map fun e => costOf p e.1.toList + costOf p e.2.toList).sum

theorem costOfValues_le (es : List (String × String)) :
    costOfValues es ≤ costOfEntries (· == '\n') es :=
  List.sum_le_sum fun _ _ => Nat.le_add_left _ _

theorem costOfEntries_insertEntry (key value : String) (es : List (String × String)) :
    costOfEntries p (Table.insertEntry key value es) ≤
      costOf p key.toList + costOf p value.toList + costOfEntries p es := by
  induction es with
  | nil => simp [Table.insertEntry, costOfEntries]
  | cons e es ih =>
    simp only [costOfEntries, List.map_cons, List.sum_cons] at ih ⊢
    unfold Table.insertEntry
    split
    · simp
    · simp
    · simp only [List.map_cons, List.sum_cons]
      omega

theorem costOfEntries_foldlM {ls : List (Nat × List Char)} {props props' : Properties}
    (h : ls.foldlM (fun props line => do
      let (key, value) ← entry line.1 line.2
      return props.insert key value) props = .ok props') :
    costOfEntries p props'.toList ≤
      costOfEntries p props.toList + worth p (ls.map Prod.snd).flatten := by
  induction ls generalizing props with
  | nil =>
    cases h
    simp
  | cons l ls ih =>
    rw [List.foldlM_cons] at h
    obtain ⟨props₁, hl, hls⟩ := Except.bind_eq_ok_iff.mp h
    obtain ⟨e, he, hinsert⟩ := Except.bind_eq_ok_iff.mp hl
    cases hinsert
    have hrest := ih hls
    have hentry := costOf_entry p he
    have hstep := costOfEntries_insertEntry p e.1 e.2 props.toList
    rw [List.map_cons, List.flatten_cons, worth_append]
    change costOfEntries p props'.toList ≤ costOfEntries p (Table.insertEntry e.1 e.2 props.toList) + _
      at hrest
    omega

/-- **The entries** that a text gives cost no more than its lines are worth. -/
theorem costOfEntries_ofText {text : String} {props : Properties} (h : ofText text = .ok props) :
    costOfEntries p props.toList ≤ worth p (lines text.toList).flatten := by
  have hcost := costOfEntries_foldlM p h
  have hempty : costOfEntries p (Table.empty : Properties).toList = 0 := rfl
  rw [hempty, Nat.zero_add] at hcost
  exact Nat.le_trans hcost (worth_le_of_sublist p (flatten_joinLines_sublist (lines text.toList) 1 1 []))

/-- Line feeds and backslashes in the entries that a text gives cost no more than the backslashes it
has. -/
theorem costOfEntries_ofText_le_count {text : String} {props : Properties}
    (h : ofText text = .ok props) :
    costOfEntries (· == '\n') props.toList ≤ text.toList.count '\\' := by
  have hcost := costOfEntries_ofText (· == '\n') h
  have hn : (lines text.toList).flatten.countP (· == '\n') = 0 :=
    List.count_eq_zero.mpr (not_mem_flatten_lines _)
  have hb := (flatten_lines_sublist text.toList).count_le '\\'
  unfold worth at hcost
  omega

/-- **The values** that a text gives cost no more than the backslashes it has. -/
theorem costOfValues_ofText {text : String} {props : Properties} (h : ofText text = .ok props) :
    costOfValues props.toList ≤ text.toList.count '\\' :=
  Nat.le_trans (costOfValues_le _) (costOfEntries_ofText_le_count h)

end Ensemble.Properties
