import Ensemble.Text.Utf8
import Mathlib.Data.List.Basic
import Mathlib.Tactic.SplitIfs

/-!
# Texts as bytes, and back

What is shown of the bytes of a text is the text (`ofUtf8Lossy_utf8`). A character below 128 is a byte
of its own and no part of another character, so a text can be cut where its bytes can
(`exists_append_of_utf8`).
-/

namespace Ensemble.Text

/-- Every character is a byte of its own. -/
def IsAscii (cs : List Char) : Prop := ∀ c ∈ cs, c.toNat < 128

instance (cs : List Char) : Decidable (IsAscii cs) :=
  List.decidableBAll (fun c : Char => c.toNat < 128) cs

theorem IsAscii.append {cs ds : List Char} (h : IsAscii cs) (h' : IsAscii ds) :
    IsAscii (cs ++ ds) := by
  intro c hc
  rcases List.mem_append.mp hc with hc | hc
  · exact h c hc
  · exact h' c hc

/-! ### One character -/

theorem toNat_ofNat_byte (b : UInt8) : (Char.ofNat b.toNat).toNat = b.toNat := by
  have hb := b.toNat_lt
  rw [Char.ofNat, dif_pos (Or.inl (by omega))]
  rfl

theorem byteChars_of_lt {c : Char} (h : c.toNat < 128) : byteChars c = [c] := by
  have hval : c.val.toNat ≤ 127 := Nat.le_of_lt_succ h
  have hcode : (UInt8.ofNat c.val.toNat).toNat = c.toNat := by
    rw [UInt8.toNat_ofNat', Nat.mod_eq_of_lt (by omega)]
    rfl
  simp only [byteChars, String.utf8EncodeChar, if_pos hval, List.map_cons, List.map_nil, hcode]
  rw [Char.ofNat_toNat]

/-- From 128 on, no byte of a character is below 128. -/
theorem le_of_mem_utf8EncodeChar {c : Char} (h : 128 ≤ c.toNat) {b : UInt8}
    (hb : b ∈ String.utf8EncodeChar c) : 128 ≤ b.toNat := by
  have hmax : c.val.toNat < 0x110000 := by
    rcases c.valid with h | h <;> omega
  have hmin : ¬ c.val.toNat ≤ 127 := Nat.not_le.mpr h
  unfold String.utf8EncodeChar at hb
  generalize c.val.toNat = v at *
  simp only [if_neg hmin] at hb
  split_ifs at hb <;>
    simp only [List.mem_cons, List.not_mem_nil, or_false] at hb <;>
      rcases hb with rfl | rfl | rfl | rfl <;> rw [UInt8.toNat_ofNat'] <;> omega

/-- A character below 128 is a byte of itself alone. -/
theorem eq_of_mem_byteChars {c d : Char} (hc : c.toNat < 128) (h : c ∈ byteChars d) : c = d := by
  by_cases hd : d.toNat < 128
  · rw [byteChars_of_lt hd] at h
    exact List.mem_singleton.mp h
  · obtain ⟨b, hb, rfl⟩ := List.mem_map.mp h
    have hle := le_of_mem_utf8EncodeChar (Nat.not_lt.mp hd) hb
    rw [toNat_ofNat_byte] at hc
    omega

/-! ### Texts -/

@[simp]
theorem utf8_append (s t : String) : utf8 (s ++ t) = utf8 s ++ utf8 t := by
  simp [utf8]

theorem utf8_eq_self {s : String} (h : IsAscii s.toList) : utf8 s = s := by
  have hbytes : s.toList.flatMap byteChars = s.toList.flatMap fun c => [c] :=
    List.flatMap_congr fun c hc => byteChars_of_lt (h c hc)
  rw [utf8, hbytes, List.flatMap_singleton', String.ofList_toList]

/-! ### Decoding -/

theorem decode_length_append (xs ys : List UInt8) : decode xs.length (xs ++ ys) = decode 0 ys := by
  induction xs with
  | nil => rfl
  | cons x xs ih => exact ih

/-- The bytes of a character are decoded to it. -/
theorem decode_utf8EncodeChar_append (c : Char) (bs : List UInt8) :
    decode 0 (String.utf8EncodeChar c ++ bs) = some c :: decode 0 bs := by
  obtain ⟨b, xs, hb⟩ := List.exists_cons_of_ne_nil (String.utf8EncodeChar_ne_nil (c := c))
  have hread : (String.utf8EncodeChar c ++ bs).toByteArray.utf8DecodeChar? 0 = some c := by
    rw [List.toByteArray_append]
    exact ByteArray.utf8DecodeChar?_utf8EncodeChar_append
  have hlength : c.utf8Size - 1 = xs.length := by
    rw [← String.length_utf8EncodeChar, hb, List.length_cons, Nat.add_sub_cancel]
  rw [hb, List.cons_append] at hread ⊢
  rw [decode, hread]
  simp only [hlength, decode_length_append]

theorem decode_flatMap_utf8EncodeChar (cs : List Char) :
    decode 0 (cs.flatMap String.utf8EncodeChar) = cs.map some := by
  induction cs with
  | nil => rfl
  | cons c cs ih => rw [List.flatMap_cons, decode_utf8EncodeChar_append, ih, List.map_cons]

/-- **The bytes of a text** show the text. -/
@[simp]
theorem ofUtf8Lossy_utf8 (s : String) : ofUtf8Lossy (utf8 s) = s := by
  have hbytes : ((utf8 s).toList.map fun c => UInt8.ofNat c.toNat) =
      s.toList.flatMap String.utf8EncodeChar := by
    rw [utf8, String.toList_ofList, List.map_flatMap]
    refine List.flatMap_congr fun c _ => ?_
    simp [byteChars, Function.comp_def, toNat_ofNat_byte]
  rw [ofUtf8Lossy, hbytes, decode_flatMap_utf8EncodeChar, List.map_map]
  simp [Function.comp_def]

theorem utf8_injective : Function.Injective utf8 := fun s t h => by
  rw [← ofUtf8Lossy_utf8 s, h, ofUtf8Lossy_utf8]

/-- **A text is cut** at a character below 128 where its bytes are. -/
theorem exists_append_of_utf8 {s : String} {c : Char} {before after : List Char}
    (hc : c.toNat < 128) (h : (utf8 s).toList = before ++ c :: after) :
    ∃ x y, s.toList = x ++ c :: y ∧ before = (utf8 (String.ofList x)).toList ∧
      after = (utf8 (String.ofList y)).toList := by
  simp only [utf8, String.toList_ofList] at h ⊢
  generalize s.toList = cs at h ⊢
  induction cs generalizing before with
  | nil => simp at h
  | cons d cs ih =>
    rw [List.flatMap_cons] at h
    by_cases hd : c ∈ byteChars d
    · -- the cut is at the first character or at a later one
      obtain rfl := eq_of_mem_byteChars hc hd
      rw [byteChars_of_lt hc, List.singleton_append] at h
      cases before with
      | nil =>
        obtain ⟨-, rfl⟩ := List.cons.inj h
        exact ⟨[], cs, rfl, rfl, rfl⟩
      | cons b before =>
        obtain ⟨rfl, hrest⟩ := List.cons.inj h
        obtain ⟨x, y, rfl, rfl, rfl⟩ := ih hrest
        exact ⟨c :: x, y, rfl, by rw [List.flatMap_cons, byteChars_of_lt hc]; rfl, rfl⟩
    · rcases List.append_eq_append_iff.mp h with ⟨front, rfl, hrest⟩ | ⟨front, hfront, hrest⟩
      · obtain ⟨x, y, rfl, rfl, rfl⟩ := ih hrest
        exact ⟨d :: x, y, rfl, by rw [List.flatMap_cons], rfl⟩
      · cases front with
        | nil =>
          rw [List.append_nil] at hfront
          have hcut : cs.flatMap byteChars = [] ++ c :: after := by simpa using hrest.symm
          obtain ⟨x, y, rfl, hx, rfl⟩ := ih hcut
          refine ⟨d :: x, y, rfl, ?_, rfl⟩
          rw [List.flatMap_cons, ← hx, hfront, List.append_nil]
        | cons b front =>
          obtain ⟨rfl, -⟩ := List.cons.inj hrest
          exact absurd (by rw [hfront]; simp) hd

end Ensemble.Text
