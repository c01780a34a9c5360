import Mathlib.Tactic.SplitIfs

/-!
# Texts as bytes

Texts are ordered by their characters. In UTF-8 that is the order of their bytes
(`compare_eq_lt_iff`), since of two characters the lower one has the lower bytes
(`utf8EncodeChar_append_lt`).
-/

namespace Ensemble.Text

/-- The bytes of a text in UTF-8. -/
def bytes (s : String) : List UInt8 := s.toByteArray.data.toList

theorem bytes_eq_flatMap (s : String) : bytes s = s.toList.flatMap String.utf8EncodeChar := by
  rw [bytes, ← String.utf8Encode_toList]
  simp [List.utf8Encode]

/-- The bytes of two characters differ before either of them ends, so what follows does not
matter. -/
theorem utf8EncodeChar_append_lt {c d : Char} (h : c < d) (xs ys : List UInt8) :
    String.utf8EncodeChar c ++ xs < String.utf8EncodeChar d ++ ys := by
  have hlt : c.val.toNat < d.val.toNat := h
  have hd : d.val.toNat < 0x110000 := by
    rcases d.valid with h | h <;> omega
  -- Every byte holds six bits, so all quotients are taken by 64.
  have htwo (n : Nat) : n / 4096 = n / 64 / 64 := by omega
  have hthree (n : Nat) : n / 262144 = n / 64 / 64 / 64 := by omega
  unfold String.utf8EncodeChar
  generalize c.val.toNat = v at *
  generalize d.val.toNat = w at *
  simp only
  split_ifs
  -- A case for each pair of lengths. The lower character is not the longer one.
  all_goals try omega
  all_goals
    simp only [List.cons_append, List.nil_append, List.cons_lt_cons_iff, UInt8.lt_iff_toNat_lt,
      ← UInt8.toNat_inj, UInt8.toNat_ofNat', htwo, hthree]
    omega

theorem bytes_lt_of_lt {a b : String} (h : a < b) : bytes a < bytes b := by
  rw [bytes_eq_flatMap, bytes_eq_flatMap]
  replace h : List.Lex (· < ·) a.toList b.toList := h
  generalize a.toList = cs at h ⊢
  generalize b.toList = ds at h ⊢
  induction h with
  | @nil d ds =>
    obtain ⟨b, bs, hb⟩ := List.exists_cons_of_ne_nil (String.utf8EncodeChar_ne_nil (c := d))
    rw [List.flatMap_cons, hb]
    exact List.nil_lt_cons _ _
  | cons _ ih =>
    rw [List.flatMap_cons, List.flatMap_cons]
    exact List.append_left_lt ih
  | rel hlt =>
    rw [List.flatMap_cons, List.flatMap_cons]
    exact utf8EncodeChar_append_lt hlt _ _

/-- **Texts are ordered as their bytes.** -/
theorem compare_eq_lt_iff {a b : String} : compare a b = .lt ↔ bytes a < bytes b := by
  have hlt {a b : String} (h : compare a b = .lt) : bytes a < bytes b :=
    bytes_lt_of_lt (compareOfLessAndEq_eq_lt.mp h)
  refine ⟨hlt, fun h => ?_⟩
  cases hab : compare a b with
  | lt => rfl
  | eq =>
    obtain rfl := Std.LawfulEqOrd.eq_of_compare hab
    exact absurd h (List.lt_irrefl _)
  | gt => exact absurd h (List.lt_asymm (hlt (Std.OrientedCmp.lt_of_gt hab)))

end Ensemble.Text
