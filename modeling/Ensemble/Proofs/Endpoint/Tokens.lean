import Ensemble.Endpoint.Reader

/-!
# Tokens between colons

A token is plain, with no colon in it and no bracket at its start, or it is a text in brackets with
no closing bracket in it (`IsToken`). The scanner finds tokens and nothing else
(`isToken_of_tokens?`), and finds those that a text is made of (`tokens?_intercalate`). So a text is
accepted exactly if it is made of tokens, which it is in one way at most (`splitHostAndPort_iff`).
-/

namespace Ensemble.Endpoint

open Text

def IsPlainToken (t : List Char) : Prop := ':' ∉ t ∧ t.head? ≠ some '['

def IsBracketedToken (t : List Char) : Prop := ∃ x, t = '[' :: x ++ [']'] ∧ ']' ∉ x

def IsToken (t : List Char) : Prop := IsPlainToken t ∨ IsBracketedToken t

/-! ### Scanning what is written -/

/-- The tokens after one that is complete: none at the end of the text, else those after a colon. -/
def tokensAfter : List Char → Option (List (List Char))
  | [] => some []
  | c :: cs => if c = ':' then scan .start cs else none

theorem scan_closed (cs : List Char) : scan .closed cs = (tokensAfter cs).map ([] :: ·) := by
  cases cs with
  | nil => rfl
  | cons c cs =>
    by_cases hc : c = ':'
    · simp [scan, tokensAfter, hc]
    · simp [scan, tokensAfter, hc]

theorem scan_plain_append {t rest : List Char} (ht : ':' ∉ t) (hrest : ∀ c ∈ rest.head?, c = ':') :
    scan .plain (t ++ rest) = (tokensAfter rest).map (t :: ·) := by
  induction t with
  | nil =>
    cases rest with
    | nil => rfl
    | cons c rest => simp [scan, tokensAfter, hrest c (by simp)]
  | cons c t ih =>
    rw [List.mem_cons, not_or] at ht
    rw [List.cons_append, scan, if_neg (Ne.symm ht.1), ih ht.2, Option.map_map]
    rfl

theorem scan_bracketed_append {x : List Char} (hx : ']' ∉ x) (rest : List Char) :
    scan .bracketed (x ++ ']' :: rest) = (tokensAfter rest).map ((x ++ [']']) :: ·) := by
  induction x with
  | nil =>
    rw [List.nil_append, scan, if_pos rfl, scan_closed, Option.map_map]
    rfl
  | cons c x ih =>
    rw [List.mem_cons, not_or] at hx
    rw [List.cons_append, scan, if_neg (Ne.symm hx.1), ih hx.2, Option.map_map]
    rfl

theorem scan_start_append {t rest : List Char} (ht : IsToken t)
    (hrest : ∀ c ∈ rest.head?, c = ':') :
    scan .start (t ++ rest) = (tokensAfter rest).map (t :: ·) := by
  rcases ht with ⟨hcolon, hhead⟩ | ⟨x, rfl, hx⟩
  · cases t with
    | nil =>
      cases rest with
      | nil => rfl
      | cons c rest => simp [scan, tokensAfter, hrest c (by simp)]
    | cons c t =>
      have hc : c ≠ '[' := by simpa using hhead
      rw [List.mem_cons, not_or] at hcolon
      rw [List.cons_append, scan, if_neg (Ne.symm hcolon.1), if_neg hc,
        scan_plain_append hcolon.2 hrest, Option.map_map]
      rfl
  · have happend : '[' :: x ++ [']'] ++ rest = '[' :: (x ++ ']' :: rest) := by simp
    rw [happend, scan, if_neg (by decide), if_pos rfl, scan_bracketed_append hx, Option.map_map]
    rfl

theorem tokens?_intercalate {ts : List (List Char)} (h : ∀ t ∈ ts, IsToken t) (hne : ts ≠ []) :
    tokens? ([':'].intercalate ts) = some ts := by
  unfold tokens?
  induction ts with
  | nil => contradiction
  | cons t ts ih =>
    have ht := h t (by simp)
    cases ts with
    | nil =>
      have hend : ∀ c ∈ ([] : List Char).head?, c = ':' := by simp
      have hone := scan_start_append ht hend
      simpa [List.intercalate, tokensAfter] using hone
    | cons u ts =>
      have hcons : [':'].intercalate (t :: u :: ts) = t ++ ':' :: [':'].intercalate (u :: ts) := by
        simp [List.intercalate, List.intersperse]
      rw [hcons, scan_start_append ht (by simp), tokensAfter, if_pos rfl,
        ih (fun w hw => h w (by simp [hw])) (by simp)]
      rfl

/-! ### What is scanned -/

/-- The rest of a token, by where the scan stands in it. -/
def IsTokenRest : Scan → List Char → Prop
  | .start, t => IsToken t
  | .plain, t => ':' ∉ t
  | .bracketed, t => ∃ x, t = x ++ [']'] ∧ ']' ∉ x
  | .closed, t => t = []

theorem isTokenRest_of_scan {s : Scan} {cs : List Char} {ts : List (List Char)}
    (h : scan s cs = some ts) :
    ∃ t us, ts = t :: us ∧ IsTokenRest s t ∧ ∀ u ∈ us, IsToken u := by
  induction cs generalizing s ts with
  | nil =>
    cases s with
    | start => cases h; exact ⟨[], [], rfl, Or.inl ⟨by simp, by simp⟩, by simp⟩
    | plain => cases h; exact ⟨[], [], rfl, by simp [IsTokenRest], by simp⟩
    | bracketed => cases h
    | closed => cases h; exact ⟨[], [], rfl, rfl, by simp⟩
  | cons c cs ih =>
    -- A colon outside brackets ends the token, and the scan starts again.
    have colon : (scan .start cs).map ([] :: ·) = some ts →
        ∃ us, ts = [] :: us ∧ ∀ u ∈ us, IsToken u := by
      intro h
      obtain ⟨ts', h', rfl⟩ := Option.map_eq_some_iff.mp h
      obtain ⟨t, us, rfl, ht, hus⟩ := ih h'
      exact ⟨t :: us, rfl, by simpa using ⟨ht, hus⟩⟩
    have other : ∀ s', (scan s' cs).map (consFirst c) = some ts →
        ∃ t us, ts = (c :: t) :: us ∧ IsTokenRest s' t ∧ ∀ u ∈ us, IsToken u := by
      intro s' h
      obtain ⟨ts', h', rfl⟩ := Option.map_eq_some_iff.mp h
      obtain ⟨t, us, rfl, ht, hus⟩ := ih h'
      exact ⟨t, us, rfl, ht, hus⟩
    cases s with
    | start =>
      unfold scan at h
      split at h
      · obtain ⟨us, rfl, hus⟩ := colon h
        exact ⟨[], us, rfl, Or.inl ⟨by simp, by simp⟩, hus⟩
      · rename_i hc
        split at h
        · rename_i hopen
          obtain ⟨t, us, rfl, ⟨x, rfl, hx⟩, hus⟩ := other _ h
          exact ⟨_, us, rfl, Or.inr ⟨x, by simp [hopen], hx⟩, hus⟩
        · rename_i hopen
          obtain ⟨t, us, rfl, ht, hus⟩ := other _ h
          have ht : ':' ∉ t := ht
          exact ⟨_, us, rfl, Or.inl ⟨by simp [Ne.symm hc, ht], by simpa using hopen⟩, hus⟩
    | plain =>
      unfold scan at h
      split at h
      · obtain ⟨us, rfl, hus⟩ := colon h
        exact ⟨[], us, rfl, by simp [IsTokenRest], hus⟩
      · rename_i hc
        obtain ⟨t, us, rfl, ht, hus⟩ := other _ h
        have ht : ':' ∉ t := ht
        exact ⟨_, us, rfl, by simp [IsTokenRest, Ne.symm hc, ht], hus⟩
    | bracketed =>
      unfold scan at h
      split at h
      · rename_i hc
        obtain ⟨t, us, rfl, ht, hus⟩ := other _ h
        have ht : t = [] := ht
        exact ⟨_, us, rfl, ⟨[], by simp [hc, ht], by simp⟩, hus⟩
      · rename_i hc
        obtain ⟨t, us, rfl, ⟨x, rfl, hx⟩, hus⟩ := other _ h
        exact ⟨_, us, rfl, ⟨c :: x, by simp, by simp [Ne.symm hc, hx]⟩, hus⟩
    | closed =>
      unfold scan at h
      split at h
      · obtain ⟨us, rfl, hus⟩ := colon h
        exact ⟨[], us, rfl, rfl, hus⟩
      · cases h

theorem isToken_of_tokens? {text : List Char} {ts : List (List Char)} (h : tokens? text = some ts) :
    ∀ t ∈ ts, IsToken t := by
  obtain ⟨t, us, rfl, ht, hus⟩ := isTokenRest_of_scan h
  intro u hu
  rcases List.mem_cons.mp hu with rfl | hu
  · exact ht
  · exact hus u hu

/-! ### Main result -/

/-- The text is these tokens with colons between them. -/
structure AreTokensOf (text : List Char) (ts : List (List Char)) : Prop where
  ne_nil : ts ≠ []
  isToken : ∀ t ∈ ts, IsToken t
  intercalate_eq : [':'].intercalate ts = text

theorem tokens?_eq_some_iff {text : List Char} {ts : List (List Char)} :
    tokens? text = some ts ↔ AreTokensOf text ts := by
  constructor
  · intro h
    exact ⟨ne_nil_of_scan h, isToken_of_tokens? h, intercalate_of_tokens? h⟩
  · rintro ⟨hne, htokens, rfl⟩
    exact tokens?_intercalate htokens hne

theorem splitHostAndPort_eq_ok_iff {text : String} {ts : List (List Char)} :
    splitHostAndPort text = .ok ts ↔ AreTokensOf text.toList ts := by
  rw [← tokens?_eq_some_iff, splitHostAndPort]
  cases tokens? text.toList with
  | none => exact iff_of_false (by rintro ⟨⟩) (by rintro ⟨⟩)
  | some us => exact ⟨fun h => congrArg some (Except.ok.inj h), fun h => congrArg _ (Option.some.inj h)⟩

theorem splitHostAndPort_eq_error_iff {text : String} {e : ConfigError} :
    splitHostAndPort text = .error e ↔
      e = .invalidValue "endpoint" text .unclosedBracket ∧ ¬ ∃ ts, AreTokensOf text.toList ts := by
  simp only [← tokens?_eq_some_iff, splitHostAndPort]
  cases tokens? text.toList with
  | none => exact ⟨fun h => ⟨(Except.error.inj h).symm, by simp⟩, fun h => congrArg _ h.1.symm⟩
  | some us => exact iff_of_false (by rintro ⟨⟩) fun h => h.2 ⟨us, rfl⟩

/-- **The scanner accepts exactly what tokens make up.** A text is made up of tokens in one way at
most; these are found, and a text that has none is refused. -/
theorem splitHostAndPort_iff (text : String) :
    (∀ ts us, AreTokensOf text.toList ts → AreTokensOf text.toList us → us = ts) ∧
      (∀ ts, splitHostAndPort text = .ok ts ↔ AreTokensOf text.toList ts) ∧
      ∀ e, splitHostAndPort text = .error e ↔
        e = .invalidValue "endpoint" text .unclosedBracket ∧
          ¬ ∃ ts, AreTokensOf text.toList ts := by
  refine ⟨fun ts us hts hus => ?_, fun ts => splitHostAndPort_eq_ok_iff,
    fun e => splitHostAndPort_eq_error_iff⟩
  rw [← tokens?_eq_some_iff] at hts hus
  exact Option.some.inj (hus.symm.trans hts)

/-- A bracket that closes before the end and one within a token: the first text has only these
tokens, and the second has none. -/
theorem splitHostAndPort_iff_brackets :
    AreTokensOf "[fe80::1]::x[:".toList ["[fe80::1]".toList, [], ['x', '['], []] ∧
      (∀ ts, AreTokensOf "[fe80::1]::x[:".toList ts →
        ts = ["[fe80::1]".toList, [], ['x', '['], []]) ∧
      ¬ ∃ ts, AreTokensOf "[fe80::1]x:".toList ts := by
  have htokens := ((splitHostAndPort_iff "[fe80::1]::x[:").2.1 _).mp rfl
  have hrefused := ((splitHostAndPort_iff "[fe80::1]x:").2.2 _).mp rfl
  exact ⟨htokens, fun ts hts => (splitHostAndPort_iff _).1 _ ts htokens hts, hrefused.2⟩

end Ensemble.Endpoint
