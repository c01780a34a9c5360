import Ensemble.Json.Printer
import Ensemble.Json.Reader
import Ensemble.Proofs.Text.Numeral
import Mathlib.Data.List.TakeDrop

/-!
# Cutting printed JSON

Numbers are read as they are written (`number?_text`), and are cut out of a text if it does not go on
like a number or a word (`Delimited`, `lex_numberText`). Words are cut out alike (`lex_wordText`).
Between quotes plain characters stand for themselves (`lex_quoted`), and line breaks say nothing
(`lex_newline`).
-/

namespace Ensemble.Json

open Text

/-! ### Numbers -/

theorem integerDigits?_toDigits (n : Nat) : integerDigits? (Nat.toDigits 10 n) = some n := by
  unfold integerDigits?
  rw [if_neg, digits?_toDigits (by decide) (by decide)]
  rintro ⟨hhead, hlen⟩
  rw [length_toDigits_of_head? hhead] at hlen
  exact absurd hlen (by decide)

theorem spanDigits_append {ds rest : List Char} (hds : ∀ c ∈ ds, c.isDigit)
    (hrest : ∀ c ∈ rest.head?, c.isDigit = false) : spanDigits (ds ++ rest) = (ds, rest) := by
  unfold spanDigits
  rw [List.span_eq_takeWhile_dropWhile, List.takeWhile_append_of_pos hds,
    List.dropWhile_append_of_pos hds]
  cases rest with
  | nil => simp
  | cons c rest => simp [hrest c rfl]

/-- The text of a power of ten. -/
def scaleText : Int → List Char
  | .ofNat k => Nat.toDigits 10 k
  | .negSucc k => '-' :: Nat.toDigits 10 (k + 1)

theorem exponent?_scaleText (e : Int) : exponent? ('e' :: scaleText e) = some e := by
  cases e with
  | ofNat k =>
    have hread : digits? 10 (Nat.toDigits 10 k) = some k := digits?_toDigits (by decide) (by decide) k
    have hdigit := @isDigit_of_mem_toDigits k
    simp only [exponent?, scaleText, true_or, if_true]
    split
    · rename_i hds
      exact absurd (hdigit '-' (by simp [hds])) (by decide)
    · rename_i hds
      exact absurd (hdigit '+' (by simp [hds])) (by decide)
    · rw [hread]
      rfl
  | negSucc k =>
    have hread : digits? 10 (Nat.toDigits 10 (k + 1)) = some (k + 1) :=
      digits?_toDigits (by decide) (by decide) (k + 1)
    simp [scaleText, exponent?, hread, Int.negSucc_eq]

/-- The digits of a number and what follows them. -/
theorem unsignedNumber?_toDigits (negative : Bool) (n : Nat) {rest : List Char}
    (hrest : ∀ c ∈ rest.head?, c = 'e') : unsignedNumber? negative (Nat.toDigits 10 n ++ rest) =
      if rest = [] then some (.integer negative n) else (exponent? rest).map (.decimal negative n) := by
  have hspan : spanDigits (Nat.toDigits 10 n ++ rest) = (Nat.toDigits 10 n, rest) := by
    refine spanDigits_append isDigit_of_mem_toDigits fun c hc => ?_
    rw [hrest c hc]
    decide
  simp only [unsignedNumber?, hspan, integerDigits?_toDigits, Option.bind_eq_bind, Option.bind_some]
  cases rest with
  | nil => rfl
  | cons c rest =>
    obtain rfl := hrest c rfl
    rw [if_neg (by simp), Option.map_eq_bind]
    rfl

/-- The digits of a number after its sign, and what follows them. -/
theorem number?_toDigits (negative : Bool) (n : Nat) {rest : List Char}
    (hrest : ∀ c ∈ rest.head?, c = 'e') :
    number? ((if negative then "-" else "").toList ++ (Nat.toDigits 10 n ++ rest)) =
      if rest = [] then some (.integer negative n) else (exponent? rest).map (.decimal negative n) := by
  rw [← unsignedNumber?_toDigits negative n hrest]
  cases negative with
  | true => rfl
  | false =>
    obtain ⟨c, cs, hcs⟩ := List.exists_cons_of_ne_nil (Nat.toDigits_ne_nil (n := n) (b := 10))
    have hc : c ≠ '-' := by
      rintro rfl
      exact absurd (@isDigit_of_mem_toDigits n '-' (by simp [hcs])) (by decide)
    simp [hcs, number?, hc]

/-- **Numbers read back** as they are written. -/
theorem number?_text (n : JsonNumber) : number? n.text.toList = some n := by
  cases n with
  | integer negative n =>
    have hread := @number?_toDigits negative n [] (by simp)
    rw [List.append_nil] at hread
    simpa [JsonNumber.text, decimal] using hread
  | decimal negative mantissa scale =>
    have hread := @number?_toDigits negative mantissa ('e' :: scaleText scale) (by simp)
    rw [exponent?_scaleText] at hread
    cases scale <;> simpa [JsonNumber.text, decimal, scaleText] using hread

/-! ### Tokens -/

/-- A number or a word does not go on here. -/
def Delimited (rest : List Char) : Prop :=
  ∀ c ∈ rest.head?, isNumberChar c = false ∧ c.isLower = false

theorem delimited_cons {c : Char} (hnumber : isNumberChar c = false) (hlower : c.isLower = false)
    (rest : List Char) : Delimited (c :: rest) := by
  intro d hd
  obtain rfl : c = d := by simpa using hd
  exact ⟨hnumber, hlower⟩

/-! ### Steps -/

section Steps

-- These hold by computation. Later proofs use them in place of the equations of `lex`, which Lean
-- would have to work out first.

variable (cs : List Char) (c : Char) (rest : List Char)

theorem lex_between_nil : lex .between [] = some [] := rfl

theorem lex_word_nil : lex (.word cs) [] = (word? cs).map ([·]) := rfl

theorem lex_number_nil :
    lex (.number cs) [] = (number? cs).map fun n => [.scalar (.number n)] := rfl

theorem lex_between_cons : lex .between (c :: rest) = do
    let (ts, s) ← begin? c
    return ts ++ (← lex s rest) := rfl

theorem lex_word_cons : lex (.word cs) (c :: rest) =
    if c.isLower then lex (.word (cs ++ [c])) rest
    else do
      let t ← word? cs
      let (ts, s) ← begin? c
      return t :: ts ++ (← lex s rest) := rfl

theorem lex_number_cons : lex (.number cs) (c :: rest) =
    if isNumberChar c then lex (.number (cs ++ [c])) rest
    else do
      let n ← number? cs
      let (ts, s) ← begin? c
      return .scalar (.number n) :: ts ++ (← lex s rest) := rfl

theorem lex_text_cons : lex (.text cs) (c :: rest) =
    if c = '"' then (lex .between rest).map (.string cs :: ·)
    else if c = '\\' then lex (.escape (cs ++ [c])) rest
    else if c < ' ' then none
    else lex (.text (cs ++ [c])) rest := rfl

end Steps

/-- A character that begins a token, or none. -/
theorem lex_begin {c : Char} {s : Lex} (h : begin? c = some ([], s)) (rest : List Char) :
    lex .between (c :: rest) = lex s rest := by
  rw [lex_between_cons, h]
  simp

/-- A character that is a token. -/
theorem lex_mark {c : Char} {t : Token} (h : begin? c = some ([t], .between)) (rest : List Char) :
    lex .between (c :: rest) = (lex .between rest).map (t :: ·) := by
  rw [lex_between_cons, h]
  cases hrest : lex .between rest <;> simp [hrest]

/-- After a token is read what is read between tokens. -/
theorem lex_after (t : Token) (c : Char) (rest : List Char) :
    (begin? c).bind (fun (ts, s) => (lex s rest).bind fun ts' => some (t :: ts ++ ts')) =
      (lex .between (c :: rest)).map (t :: ·) := by
  rw [lex_between_cons]
  rcases begin? c with _ | ⟨ts, s⟩
  · rfl
  · cases hrest : lex s rest <;> simp [hrest]

/-- In a token characters are gathered one by one. -/
theorem lex_append {s : List Char → Lex} {P : Char → Prop}
    (hgather : ∀ cs c rest, P c → lex (s cs) (c :: rest) = lex (s (cs ++ [c])) rest)
    {cs ds : List Char} (hds : ∀ c ∈ ds, P c) (rest : List Char) :
    lex (s cs) (ds ++ rest) = lex (s (cs ++ ds)) rest := by
  induction ds generalizing cs with
  | nil => simp
  | cons d ds ih =>
    obtain ⟨hd, hds⟩ := List.forall_mem_cons.mp hds
    rw [List.cons_append, hgather _ _ _ hd, ih hds, List.append_assoc, List.singleton_append]

/-! ### Words -/

theorem lex_word {cs rest : List Char} (h : Delimited rest) : lex (.word cs) rest =
    (word? cs).bind fun t => (lex .between rest).map (t :: ·) := by
  cases rest with
  | nil => cases hn : word? cs <;> simp [lex_word_nil, lex_between_nil, hn]
  | cons c rest =>
    rw [lex_word_cons, if_neg (by simp [(h c rfl).2])]
    cases word? cs with
    | none => rfl
    | some t => exact lex_after t c rest

theorem lex_wordText {c : Char} {cs : List Char} {t : Token} (hc : begin? c = some ([], .word [c]))
    (hcs : cs.all Char.isLower) (hword : word? (c :: cs) = some t) {rest : List Char}
    (h : Delimited rest) : lex .between (c :: cs ++ rest) = (lex .between rest).map (t :: ·) := by
  have hgather := @lex_append .word (fun c => c.isLower) fun cs c rest hc => by
    rw [lex_word_cons, if_pos hc]
  rw [List.cons_append, lex_begin hc, hgather (List.all_eq_true.mp hcs), lex_word h,
    List.singleton_append, hword]
  rfl

/-! ### Numbers in texts -/

theorem lex_number {cs rest : List Char} (h : Delimited rest) : lex (.number cs) rest =
    (number? cs).bind fun n => (lex .between rest).map (.scalar (.number n) :: ·) := by
  cases rest with
  | nil => cases hn : number? cs <;> simp [lex_number_nil, lex_between_nil, hn]
  | cons c rest =>
    rw [lex_number_cons, if_neg (by simp [(h c rfl).1])]
    cases number? cs with
    | none => rfl
    | some n => exact lex_after (.scalar (.number n)) c rest

theorem begin?_of_number {c : Char} (h : c = '-' ∨ c.isDigit) : begin? c = some ([], .number [c]) := by
  have hne : ∀ d, ¬ (d = '-' ∨ d.isDigit) → c ≠ d := by
    rintro d hd rfl
    exact hd h
  unfold begin?
  simp [hne, h]

theorem isNumberChar_of_mem_toDigits {n : Nat} : ∀ c ∈ Nat.toDigits 10 n, isNumberChar c :=
  fun c hc => by simp [isNumberChar, isDigit_of_mem_toDigits c hc]

/-- The text of a number is a sign, digits, and what may follow them. -/
theorem exists_text_eq (n : JsonNumber) : ∃ (negative : Bool) (m : Nat) (rest : List Char),
    n.text.toList = (if negative then "-" else "").toList ++ (Nat.toDigits 10 m ++ rest) ∧
      ∀ c ∈ rest, isNumberChar c := by
  cases n with
  | integer negative m => exact ⟨negative, m, [], by simp [JsonNumber.text, decimal], by simp⟩
  | decimal negative m scale =>
    refine ⟨negative, m, 'e' :: scaleText scale, ?_, ?_⟩
    · cases scale <;> simp [JsonNumber.text, decimal, scaleText]
    · have he : isNumberChar 'e' := rfl
      have hminus : isNumberChar '-' := rfl
      have hdigits := @isNumberChar_of_mem_toDigits
      cases scale with
      | ofNat k => exact List.forall_mem_cons.mpr ⟨he, hdigits⟩
      | negSucc k => exact List.forall_mem_cons.mpr ⟨he, List.forall_mem_cons.mpr ⟨hminus, hdigits⟩⟩

theorem lex_numberText (n : JsonNumber) {rest : List Char} (h : Delimited rest) :
    lex .between (n.text.toList ++ rest) =
      (lex .between rest).map (.scalar (.number n) :: ·) := by
  obtain ⟨c, cs, hcs, hc, hchars⟩ : ∃ c cs, n.text.toList = c :: cs ∧ (c = '-' ∨ c.isDigit) ∧
      ∀ c ∈ cs, isNumberChar c := by
    obtain ⟨negative, m, more, htext, hmore⟩ := exists_text_eq n
    obtain ⟨d, ds, hds⟩ := List.exists_cons_of_ne_nil (Nat.toDigits_ne_nil (n := m) (b := 10))
    have hd := @isDigit_of_mem_toDigits m d (by simp [hds])
    have hdigits := @isNumberChar_of_mem_toDigits m
    rw [hds] at htext hdigits
    rw [htext]
    cases negative with
    | true =>
      refine ⟨'-', d :: ds ++ more, by simp, Or.inl rfl, ?_⟩
      exact List.forall_mem_append.mpr ⟨hdigits, hmore⟩
    | false =>
      refine ⟨d, ds ++ more, by simp, Or.inr hd, ?_⟩
      exact List.forall_mem_append.mpr ⟨(List.forall_mem_cons.mp hdigits).2, hmore⟩
  have hgather := @lex_append .number (fun c => isNumberChar c) fun cs c rest hc => by
    rw [lex_number_cons, if_pos hc]
  have hread := number?_text n
  rw [hcs] at hread ⊢
  rw [List.cons_append, lex_begin (begin?_of_number hc), hgather hchars, lex_number h,
    List.singleton_append, hread]
  rfl

/-! ### Strings and blanks -/

/-- A character that stands for itself between quotes. -/
def IsPlainChar (c : Char) : Prop := c ≠ '"' ∧ c ≠ '\\' ∧ ¬ c < ' '

instance : DecidablePred IsPlainChar := fun _ => inferInstanceAs (Decidable (_ ∧ _ ∧ _))

theorem lex_quoted {spelling : List Char} (h : ∀ c ∈ spelling, IsPlainChar c) (rest : List Char) :
    lex .between ((quoted spelling).toList ++ rest) =
      (lex .between rest).map (.string spelling :: ·) := by
  have hbegin : begin? '"' = some ([], .text []) := rfl
  have htext : (quoted spelling).toList ++ rest = '"' :: (spelling ++ '"' :: rest) := by
    simp [quoted]
  have hgather := @lex_append .text IsPlainChar fun cs c rest ⟨hquote, hbackslash, hcontrol⟩ => by
    rw [lex_text_cons, if_neg hquote, if_neg hbackslash, if_neg hcontrol]
  rw [htext, lex_begin hbegin, hgather h, lex_text_cons, if_pos rfl, List.nil_append]

theorem lex_newline (depth : Nat) (rest : List Char) :
    lex .between ((newline depth).toList ++ rest) = lex .between rest := by
  have hblank : begin? ' ' = some ([], .between) := rfl
  have hfeed : begin? '\n' = some ([], .between) := rfl
  have hblanks : ∀ n, lex .between (List.replicate n ' ' ++ rest) = lex .between rest := by
    intro n
    induction n with
    | zero => rfl
    | succ n ih => rw [List.replicate_succ, List.cons_append, lex_begin hblank, ih]
  have htext : (newline depth).toList ++ rest =
      '\n' :: (List.replicate (2 * depth) ' ' ++ rest) := by simp [newline]
  rw [htext, lex_begin hfeed, hblanks]

theorem delimited_newline (depth : Nat) (rest : List Char) :
    Delimited ((newline depth).toList ++ rest) := by
  have htext : (newline depth).toList ++ rest =
      '\n' :: (List.replicate (2 * depth) ' ' ++ rest) := by simp [newline]
  rw [htext]
  exact delimited_cons rfl rfl _

end Ensemble.Json
