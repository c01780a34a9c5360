import Ensemble.Proofs.Json.Lexing

/-!
# Printed JSON reads back

What is printed of a value is cut into the tokens of the value (`Json.tokens`), at every depth and
before every text that does not go on like a number or a word (`Json.lex_prettyAt`). The tokens of a
value are put together to that value wherever one is awaited (`Json.foldlM_tokens`). So a value with
plain strings (`Json.IsPlain`) reads back (`Json.ofText?_pretty`).
-/

namespace Ensemble.Json

/-! ### Values -/

mutual

/-- The tokens of a value. -/
def tokens : Json → List Token
  | .null => [.scalar .null]
  | .bool b => [.scalar (.bool b)]
  | .number n => [.scalar (.number n)]
  | .string spelling => [.string spelling]
  | .array [] => [.beginArray, .endArray]
  | .array (j :: js) => .beginArray :: (tokens j ++ tokensOfItems js ++ [.endArray])
  | .object [] => [.beginObject, .endObject]
  | .object ((k, j) :: fs) =>
    .beginObject :: .string k :: .colon :: (tokens j ++ tokensOfFields fs ++ [.endObject])

/-- The tokens of further items. -/
def tokensOfItems : List Json → List Token
  | [] => []
  | j :: js => .comma :: (tokens j ++ tokensOfItems js)

/-- The tokens of further fields. -/
def tokensOfFields : List (List Char × Json) → List Token
  | [] => []
  | (k, j) :: fs => .comma :: .string k :: .colon :: (tokens j ++ tokensOfFields fs)

end

mutual

/-- All strings and keys stand for themselves. -/
def IsPlain : Json → Prop
  | .string spelling => ∀ c ∈ spelling, IsPlainChar c
  | .array items => ItemsPlain items
  | .object fields => FieldsPlain fields
  | _ => True

def ItemsPlain : List Json → Prop
  | [] => True
  | j :: js => IsPlain j ∧ ItemsPlain js

def FieldsPlain : List (List Char × Json) → Prop
  | [] => True
  | (k, j) :: fs => (∀ c ∈ k, IsPlainChar c) ∧ IsPlain j ∧ FieldsPlain fs

end

/-! ### Cutting what is written -/

theorem delimited_prettyItems (depth : Nat) (js : List Json) {rest : List Char}
    (h : Delimited rest) : Delimited ((prettyItems depth js).toList ++ rest) := by
  cases js with
  | nil => simpa [prettyItems] using h
  | cons j js =>
    simp only [prettyItems, String.toList_append, List.append_assoc]
    exact delimited_cons rfl rfl _

theorem delimited_prettyFields (depth : Nat) (fs : List (List Char × Json)) {rest : List Char}
    (h : Delimited rest) : Delimited ((prettyFields depth fs).toList ++ rest) := by
  cases fs with
  | nil => simpa [prettyFields] using h
  | cons f fs =>
    simp only [prettyFields, String.toList_append, List.append_assoc]
    exact delimited_cons rfl rfl _

mutual

/-- What is printed is cut into the tokens of the value. -/
theorem lex_prettyAt (depth : Nat) {rest : List Char} (h : Delimited rest) :
    ∀ {j : Json}, j.IsPlain → lex .between ((prettyAt depth j).toList ++ rest) =
      (lex .between rest).map (tokens j ++ ·)
  | .null, _ => by
    rw [prettyAt, tokens]
    exact @lex_wordText 'n' ['u', 'l', 'l'] _ rfl rfl rfl rest h
  | .bool b, _ => by
    rw [prettyAt, tokens]
    cases b with
    | true => exact @lex_wordText 't' ['r', 'u', 'e'] _ rfl rfl rfl rest h
    | false => exact @lex_wordText 'f' ['a', 'l', 's', 'e'] _ rfl rfl rfl rest h
  | .number n, _ => by
    rw [prettyAt, lex_numberText n h, tokens]
    rfl
  | .string spelling, hj => by
    rw [prettyAt, lex_quoted hj, tokens]
    rfl
  | .array [], _ => by
    have htext : (prettyAt depth (.array [])).toList ++ rest = '[' :: ']' :: rest := by
      simp [prettyAt]
    rw [htext, lex_mark rfl, lex_mark rfl, tokens, Option.map_map]
    rfl
  | .array (j :: js), ⟨hj, hjs⟩ => by
    have hend : Delimited ((newline depth).toList ++ ']' :: rest) := delimited_newline _ _
    have htext : (prettyAt depth (.array (j :: js))).toList ++ rest =
        '[' :: ((newline (depth + 1)).toList ++ ((prettyAt (depth + 1) j).toList ++
          ((prettyItems (depth + 1) js).toList ++ ((newline depth).toList ++ ']' :: rest)))) := by
      simp [prettyAt]
    rw [htext, lex_mark rfl, lex_newline,
      lex_prettyAt (depth + 1) (delimited_prettyItems _ js hend) hj,
      lex_prettyItems (depth + 1) hend hjs, lex_newline, lex_mark rfl, tokens]
    simp [Function.comp_def]
  | .object [], _ => by
    have htext : (prettyAt depth (.object [])).toList ++ rest = '\x7b' :: '\x7d' :: rest := by
      simp [prettyAt]
    rw [htext, lex_mark rfl, lex_mark rfl, tokens, Option.map_map]
    rfl
  | .object ((k, j) :: fs), ⟨hk, hj, hfs⟩ => by
    have hend : Delimited ((newline depth).toList ++ '\x7d' :: rest) := delimited_newline _ _
    have htext : (prettyAt depth (.object ((k, j) :: fs))).toList ++ rest =
        '\x7b' :: ((newline (depth + 1)).toList ++ ((quoted k).toList ++ ':' :: ' ' ::
          ((prettyAt (depth + 1) j).toList ++ ((prettyFields (depth + 1) fs).toList ++
            ((newline depth).toList ++ '\x7d' :: rest))))) := by
      simp [prettyAt]
    rw [htext, lex_mark rfl, lex_newline, lex_quoted hk, lex_mark rfl, lex_begin rfl,
      lex_prettyAt (depth + 1) (delimited_prettyFields _ fs hend) hj,
      lex_prettyFields (depth + 1) hend hfs, lex_newline, lex_mark rfl, tokens]
    simp [Function.comp_def]

theorem lex_prettyItems (depth : Nat) {rest : List Char} (h : Delimited rest) :
    ∀ {js : List Json}, ItemsPlain js → lex .between ((prettyItems depth js).toList ++ rest) =
      (lex .between rest).map (tokensOfItems js ++ ·)
  | [], _ => by simp [prettyItems, tokensOfItems]
  | j :: js, ⟨hj, hjs⟩ => by
    have htext : (prettyItems depth (j :: js)).toList ++ rest = ',' :: ((newline depth).toList ++
        ((prettyAt depth j).toList ++ ((prettyItems depth js).toList ++ rest))) := by
      simp [prettyItems]
    rw [htext, lex_mark rfl, lex_newline, lex_prettyAt depth (delimited_prettyItems _ js h) hj,
      lex_prettyItems depth h hjs, tokensOfItems]
    simp [Function.comp_def]

theorem lex_prettyFields (depth : Nat) {rest : List Char} (h : Delimited rest) :
    ∀ {fs : List (List Char × Json)}, FieldsPlain fs →
      lex .between ((prettyFields depth fs).toList ++ rest) =
        (lex .between rest).map (tokensOfFields fs ++ ·)
  | [], _ => by simp [prettyFields, tokensOfFields]
  | (k, j) :: fs, ⟨hk, hj, hfs⟩ => by
    have htext : (prettyFields depth ((k, j) :: fs)).toList ++ rest =
        ',' :: ((newline depth).toList ++ ((quoted k).toList ++ ':' :: ' ' ::
          ((prettyAt depth j).toList ++ ((prettyFields depth fs).toList ++ rest)))) := by
      simp [prettyFields]
    rw [htext, lex_mark rfl, lex_newline, lex_quoted hk, lex_mark rfl, lex_begin rfl,
      lex_prettyAt depth (delimited_prettyFields _ fs h) hj, lex_prettyFields depth h hfs,
      tokensOfFields]
    simp [Function.comp_def]

end

/-! ### Putting tokens together -/

theorem foldlM_step {a a' : Await} {t : Token} (h : step a t = some a') (ts : List Token) :
    (t :: ts).foldlM step a = ts.foldlM step a' := by
  rw [List.foldlM_cons, h]
  rfl

theorem foldlM_append_step {a a' : Await} {ts : List Token} (h : ts.foldlM step a = some a')
    (ts' : List Token) : (ts ++ ts').foldlM step a = ts'.foldlM step a' := by
  rw [List.foldlM_append, h]
  rfl

/-- In an array a first item is read like any value. -/
theorem foldlM_tokens_itemOrEnd (j : Json) (opened : List Frame) :
    (tokens j).foldlM step (.itemOrEnd opened) =
      (tokens j).foldlM step (.value (.array [] :: opened)) := by
  have hfirst : ∃ t ts, tokens j = t :: ts ∧
      step (.itemOrEnd opened) t = step (.value (.array [] :: opened)) t := by
    cases j with
    | array js => cases js <;> exact ⟨_, _, by rw [tokens], rfl⟩
    | object fs => rcases fs with _ | ⟨⟨k, j⟩, fs⟩ <;> exact ⟨_, _, by rw [tokens], rfl⟩
    | _ => exact ⟨_, _, by rw [tokens], rfl⟩
  obtain ⟨t, ts, htokens, hstep⟩ := hfirst
  rw [htokens, List.foldlM_cons, List.foldlM_cons, hstep]

mutual

/-- The tokens of a value are put together to it, where a value is awaited. -/
theorem foldlM_tokens : ∀ (j : Json) (opened : List Frame),
    (tokens j).foldlM step (.value opened) = some (place j opened)
  | .null, _ | .bool _, _ | .number _, _ | .string _, _ | .array [], _ | .object [], _ => by
    rw [tokens]
    rfl
  | .array (j :: js), opened => by
    have hitem := foldlM_tokens j (.array [] :: opened)
    rw [← foldlM_tokens_itemOrEnd] at hitem
    rw [tokens, foldlM_step rfl, List.append_assoc, foldlM_append_step hitem]
    exact foldlM_append_step (foldlM_tokensOfItems js [j] opened) [.endArray]
  | .object ((k, j) :: fs), opened => by
    rw [tokens, foldlM_step rfl, foldlM_step rfl, foldlM_step rfl, List.append_assoc,
      foldlM_append_step (foldlM_tokens j _)]
    exact foldlM_append_step (foldlM_tokensOfFields fs [(k, j)] opened) [.endObject]

theorem foldlM_tokensOfItems : ∀ (js items : List Json) (opened : List Frame),
    (tokensOfItems js).foldlM step (.afterItem items opened) =
      some (.afterItem (items ++ js) opened)
  | [], items, opened => by
    rw [tokensOfItems, List.append_nil]
    rfl
  | j :: js, items, opened => by
    have hrest := foldlM_tokensOfItems js (items ++ [j]) opened
    rw [List.append_assoc, List.singleton_append] at hrest
    rw [tokensOfItems, foldlM_step rfl, foldlM_append_step (foldlM_tokens j _)]
    exact hrest

theorem foldlM_tokensOfFields : ∀ (fs fields : List (List Char × Json)) (opened : List Frame),
    (tokensOfFields fs).foldlM step (.afterField fields opened) =
      some (.afterField (fields ++ fs) opened)
  | [], fields, opened => by
    rw [tokensOfFields, List.append_nil]
    rfl
  | (k, j) :: fs, fields, opened => by
    have hrest := foldlM_tokensOfFields fs (fields ++ [(k, j)]) opened
    rw [List.append_assoc, List.singleton_append] at hrest
    rw [tokensOfFields, foldlM_step rfl, foldlM_step rfl, foldlM_step rfl,
      foldlM_append_step (foldlM_tokens j _)]
    exact hrest

end

/-- **What is printed reads back**, if strings are plain. -/
theorem ofText?_pretty {j : Json} (h : j.IsPlain) : ofText? j.pretty = some j := by
  have hlex : lex .between j.pretty.toList = some (tokens j) := by
    have hprinted := @lex_prettyAt 0 [] (by simp [Delimited]) j h
    simpa [pretty, lex_between_nil] using hprinted
  rw [ofText?, hlex, Option.bind_eq_bind, Option.bind_some, foldlM_tokens]
  rfl

end Ensemble.Json
