import Ensemble.MembershipKey
import Ensemble.Proofs.Properties.Entries
import Ensemble.Proofs.Text.Numeral

/-!
# Keys of a membership, told apart

A key is a stem and an id in decimal digits (`suffix?_append`), and the first character of a stem
tells it from the others (`suffix?_of_head?`). Such keys are plain (`isPlainKey_append`), so they are
read as they are written.
-/

namespace Ensemble.MembershipKey

open Text Properties

theorem suffix?_append (stem rest : String) : suffix? stem (stem ++ rest) = some rest := by
  have hprefix : stem.toList.isPrefixOf (stem ++ rest).toList = true := by
    rw [String.toList_append, List.isPrefixOf_iff_prefix]
    exact List.prefix_append _ _
  rw [suffix?, if_pos hprefix, String.toList_append, ← String.length_toList, List.drop_left,
    String.ofList_toList]

theorem startsWith_append (stem rest : String) : startsWith stem (stem ++ rest) = true := by
  rw [startsWith, String.toList_append, List.isPrefixOf_iff_prefix]
  exact List.prefix_append _ _

/-- A stem does not start a key with another first character. -/
theorem isPrefixOf_of_head? {stem key : List Char} {c : Char} (hs : stem.head? = some c)
    (hk : key.head? ≠ some c) : stem.isPrefixOf key = false := by
  rw [← Bool.not_eq_true, List.isPrefixOf_iff_prefix]
  rintro ⟨rest, rfl⟩
  cases stem with
  | nil => cases hs
  | cons d stem => exact hk hs

theorem suffix?_of_head? {stem key : String} {c : Char} (hs : stem.toList.head? = some c)
    (hk : key.toList.head? ≠ some c) : suffix? stem key = none := by
  rw [suffix?, isPrefixOf_of_head? hs hk]
  rfl

theorem startsWith_of_head? {stem key : String} {c : Char} (hs : stem.toList.head? = some c)
    (hk : key.toList.head? ≠ some c) : startsWith stem key = false :=
  isPrefixOf_of_head? hs hk

theorem head?_append {stem : String} {c : Char} (hs : stem.toList.head? = some c) (rest : String) :
    (stem ++ rest).toList.head? = some c := by
  rw [String.toList_append, List.head?_append, hs]
  rfl

/-! ### Plain keys -/

theorem isPlainKey_append {stem cs : List Char} (hs : IsPlainKey stem)
    (hcs : ∀ c ∈ cs, c.isAlphanum) : IsPlainKey (stem ++ cs) := by
  refine ⟨by simp [hs.ne_nil], fun c hc => ?_, ?_⟩
  · rcases List.mem_append.mp hc with hc | hc
    · exact hs.chars c hc
    · have h := hcs c hc
      refine ⟨isBlank_of_isAlphanum h, ?_, ?_, ?_⟩ <;> rintro rfl <;> exact absurd h (by decide)
  · cases stem with
    | nil => exact absurd rfl hs.ne_nil
    | cons c stem => exact hs.head

theorem isPlainKey_server : IsPlainKey server.toList := by decide

theorem isPlainKey_group : IsPlainKey group.toList := by decide

theorem isPlainKey_weight : IsPlainKey weight.toList := by decide

theorem isPlainKey_version : IsPlainKey version.toList := by decide

end Ensemble.MembershipKey
