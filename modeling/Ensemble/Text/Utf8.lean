/-!
# Texts as bytes

The bytes of a text in UTF-8, and what is shown of bytes that may be those of no text. Bytes are
kept in a string, as the characters with their numbers.
-/

namespace Ensemble.Text

/-- A character for each byte of a character, with the number of the byte. -/
def byteChars (c : Char) : List Char :=
  (String.utf8EncodeChar c).map fun b => Char.ofNat b.toNat

/-- A character for each byte of a text. -/
def utf8 (s : String) : String := String.ofList (s.toList.flatMap byteChars)

/-- Where the bytes have to be that complete a character after its first byte, from and to which. -/
def continuations (first : UInt8) : List (UInt8 × UInt8) :=
  if first < 0xC2 then []
  else if first < 0xE0 then [(0x80, 0xBF)]
  else if first < 0xF0 then
    [(if first = 0xE0 then 0xA0 else 0x80, if first = 0xED then 0x9F else 0xBF), (0x80, 0xBF)]
  else if first < 0xF5 then
    [(if first = 0xF0 then 0x90 else 0x80, if first = 0xF4 then 0x8F else 0xBF),
      (0x80, 0xBF), (0x80, 0xBF)]
  else []

/-- How many bytes are where they have to be, up to the first that is not. -/
def countFitting : List (UInt8 × UInt8) → List UInt8 → Nat
  | (low, high) :: ranges, b :: bs =>
    if low ≤ b ∧ b ≤ high then countFitting ranges bs + 1 else 0
  | _, _ => 0

/-- The characters of bytes, from where `skip` bytes are left out. In place of bytes that make no
character stands `none`: once for the start of a character, as long as it may go on, and once for a
byte that starts none. -/
def decode : Nat → List UInt8 → List (Option Char)
  | _, [] => []
  | n + 1, _ :: bs => decode n bs
  | 0, b :: bs => match (b :: bs).toByteArray.utf8DecodeChar? 0 with
    | some c => some c :: decode (c.utf8Size - 1) bs
    | none => none :: decode (countFitting (continuations b) bs) bs

/-- The text of bytes, with a mark where they are those of no character. -/
def ofUtf8Lossy (bytes : String) : String :=
  String.ofList ((decode 0 (bytes.toList.map fun c => UInt8.ofNat c.toNat)).map
    (·.getD '\uFFFD'))

end Ensemble.Text
