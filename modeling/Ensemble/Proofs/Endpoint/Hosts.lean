import Ensemble.Proofs.Endpoint.Tokens
import Ensemble.Proofs.Except
import Ensemble.Proofs.Text.Numeral

/-!
# Hosts between colons

An endpoint is written as the token of its host (`hostToken`), a colon and its port. The host is read
off the token again exactly if it may stand there (`IsTokenHost`): `isToken_hostToken` and
`stripBrackets_trim_hostToken` say that it is, and `length_hostToken_le` that another host could only
be read off a longer token. So an endpoint is read back exactly if its host may stand as a token
(`ofText_text_iff`).
-/

namespace Ensemble.Endpoint

open Text

/-- The token that a host is written as. -/
def hostToken (host : List Char) : List Char :=
  if ':' ∈ host then '[' :: host ++ [']'] else host

/-- A host that may stand as a token: in brackets, where it must not hold a closing one, or as it is,
where it must not start with a bracket nor with or end in a blank. -/
def IsTokenHost (host : List Char) : Prop :=
  (':' ∈ host ∧ ']' ∉ host) ∨ (':' ∉ host ∧ host.head? ≠ some '[' ∧ IsTrimmed host)

instance (host : List Char) : Decidable (IsTokenHost host) := inferInstanceAs (Decidable (_ ∨ _))

theorem toList_text (e : Endpoint) :
    e.text.toList = hostToken e.host.toList ++ ':' :: (decimal e.port.toNat).toList := by
  unfold text hostToken
  by_cases h : ':' ∈ e.host.toList
  · simp [h]
  · simp [h]

/-! ### Writing -/

theorem isTrimmed_bracketed (x : List Char) : IsTrimmed ('[' :: x ++ [']']) := by
  constructor
  · intro c hc
    obtain rfl : '[' = c := by simpa using hc
    decide
  · intro c hc
    rw [List.getLast?_concat] at hc
    obtain rfl : ']' = c := by simpa using hc
    decide

theorem isToken_hostToken {host : List Char} (h : IsTokenHost host) : IsToken (hostToken host) := by
  rcases h with ⟨hcolon, hclose⟩ | ⟨hcolon, hhead, -⟩
  · rw [hostToken, if_pos hcolon]
    exact Or.inr ⟨host, rfl, hclose⟩
  · rw [hostToken, if_neg hcolon]
    exact Or.inl ⟨hcolon, hhead⟩

theorem isTrimmed_hostToken {host : List Char} (h : IsTokenHost host) :
    IsTrimmed (hostToken host) := by
  rcases h with ⟨hcolon, -⟩ | ⟨hcolon, -, htrim⟩
  · rw [hostToken, if_pos hcolon]
    exact isTrimmed_bracketed host
  · rwa [hostToken, if_neg hcolon]

theorem stripBrackets_bracketed (x : List Char) : stripBrackets ('[' :: x ++ [']']) = x := by
  simp [stripBrackets]

theorem stripBrackets_of_head? {cs : List Char} (h : cs.head? ≠ some '[') : stripBrackets cs = cs := by
  unfold stripBrackets
  split
  · simp at h
  · rfl

theorem stripBrackets_trim_hostToken {host : List Char} (h : IsTokenHost host) :
    stripBrackets (trim (hostToken host)) = host := by
  rw [trim_eq_self (isTrimmed_hostToken h)]
  rcases h with ⟨hcolon, -⟩ | ⟨hcolon, hhead, -⟩
  · rw [hostToken, if_pos hcolon, stripBrackets_bracketed]
  · rw [hostToken, if_neg hcolon, stripBrackets_of_head? hhead]

/-! ### Reading -/

theorem stripBrackets_sublist (cs : List Char) : (stripBrackets cs).Sublist cs := by
  unfold stripBrackets
  split
  · split
    · exact (List.dropLast_sublist _).trans (List.sublist_cons_self _ _)
    · exact .refl _
  · exact .refl _

/-- What is read off a token is part of it. -/
theorem stripBrackets_trim_sublist (t : List Char) : (stripBrackets (trim t)).Sublist t :=
  (stripBrackets_sublist _).trans (trim_infix_self t).sublist

/-- A host is never read off a token that is shorter than its own, and off one that is as long only
if it may stand as a token. -/
theorem length_hostToken_le {t host : List Char} (ht : IsToken t)
    (h : stripBrackets (trim t) = host) :
    (hostToken host).length ≤ t.length ∧ ((hostToken host).length = t.length → IsTokenHost host) := by
  rcases ht with ⟨hcolon, hhead⟩ | ⟨x, rfl, hx⟩
  · have hsub : host.Sublist t := h ▸ stripBrackets_trim_sublist t
    have hhost : ':' ∉ host := fun hc => hcolon (hsub.subset hc)
    rw [hostToken, if_neg hhost]
    refine ⟨hsub.length_le, fun hlen => ?_⟩
    obtain rfl := hsub.eq_of_length hlen
    have htrim : trim host = host := by
      refine (trim_infix_self host).sublist.eq_of_length (Nat.le_antisymm (trim_infix_self host).length_le ?_)
      exact le_of_eq_of_le (congrArg List.length h).symm (stripBrackets_sublist _).length_le
    exact Or.inr ⟨hhost, hhead, trim_eq_self_iff.mp htrim⟩
  · rw [trim_eq_self (isTrimmed_bracketed x), stripBrackets_bracketed] at h
    subst h
    by_cases hcolon : ':' ∈ x
    · rw [hostToken, if_pos hcolon]
      exact ⟨Nat.le_refl _, fun _ => Or.inl ⟨hcolon, hx⟩⟩
    · have hlen : ('[' :: x ++ [']']).length = x.length + 2 := by simp
      rw [hostToken, if_neg hcolon, hlen]
      exact ⟨by omega, fun h => by omega⟩

/-! ### Ports -/

theorem isTrimmed_decimal (n : Nat) : IsTrimmed (decimal n).toList :=
  ⟨fun _ hc => isBlank_of_isAlphanum (isAlphanum_of_mem_decimal (List.mem_of_head? hc)),
    fun _ hc => isBlank_of_isAlphanum (isAlphanum_of_mem_decimal (List.mem_of_getLast? hc))⟩

theorem port?_decimal (n : UInt16) : port? (decimal n.toNat).toList = some n := by
  rw [port?, trim_eq_self (isTrimmed_decimal _), String.ofList_toList, uint16?_decimal]

theorem length_decimal_le_of_port? {cs : List Char} {n : UInt16} (h : port? cs = some n) :
    (decimal n.toNat).toList.length ≤ cs.length := by
  have hle := length_decimal_le h
  rw [String.toList_ofList] at hle
  exact Nat.le_trans hle (trim_infix_self cs).length_le

theorem isToken_decimal (n : Nat) : IsToken (decimal n).toList := by
  refine Or.inl ⟨fun h => ?_, fun h => ?_⟩
  · exact absurd (isAlphanum_of_mem_decimal h) (by decide)
  · exact absurd (isAlphanum_of_mem_decimal (List.mem_of_head? h)) (by decide)

/-! ### Endpoints -/

/-- An endpoint is never read off tokens that are shorter than its text, and off tokens that are as
long only if its host may stand as a token. -/
theorem length_text_le {host port : List Char} {e : Endpoint} (ht : IsToken host)
    (hhost : stripBrackets (trim host) = e.host.toList) (hport : port? port = some e.port) :
    e.text.toList.length ≤ host.length + port.length + 1 ∧
      (e.text.toList.length = host.length + port.length + 1 → IsTokenHost e.host.toList) := by
  have hle := length_hostToken_le ht hhost
  have hport := length_decimal_le_of_port? hport
  have hlen : e.text.toList.length =
      (hostToken e.host.toList).length + (decimal e.port.toNat).toList.length + 1 := by
    rw [toList_text, List.length_append, List.length_cons]
    omega
  rw [hlen]
  exact ⟨by omega, fun heq => hle.2 (by omega)⟩

theorem ofText_eq_ok_iff {text : String} {e : Endpoint} : ofText text = .ok e ↔
    ∃ host port, AreTokensOf text.toList [host, port] ∧
      stripBrackets (trim host) = e.host.toList ∧ port? port = some e.port := by
  rw [ofText, Except.bind_eq_ok_iff]
  simp only [splitHostAndPort_eq_ok_iff]
  constructor
  · rintro ⟨ts, hts, h⟩
    split at h
    · rename_i host port
      split at h
      · rename_i n hport
        obtain rfl := Except.ok.inj h
        exact ⟨host, port, hts, (String.toList_ofList).symm, hport⟩
      · cases h
    · cases h
  · rintro ⟨host, port, hts, hhost, hport⟩
    refine ⟨_, hts, ?_⟩
    simp only [hport, ofHost, hhost, String.ofList_toList]
    rfl

/-- **An endpoint is read back** from its text exactly if its host may stand as a token. -/
theorem ofText_text_iff {e : Endpoint} : ofText e.text = .ok e ↔ IsTokenHost e.host.toList := by
  rw [ofText_eq_ok_iff]
  constructor
  · rintro ⟨host, port, hts, hhost, hport⟩
    have hlen : e.text.toList.length = host.length + port.length + 1 := by
      rw [← hts.intercalate_eq, List.intercalate_cons_cons, List.intercalate_singleton]
      simp only [List.length_append, List.length_singleton]
      omega
    exact (length_text_le (hts.isToken host (by simp)) hhost hport).2 hlen
  · intro h
    refine ⟨hostToken e.host.toList, (decimal e.port.toNat).toList, ⟨by simp, ?_, ?_⟩,
      stripBrackets_trim_hostToken h, port?_decimal _⟩
    · simpa using ⟨isToken_hostToken h, isToken_decimal _⟩
    · rw [toList_text, List.intercalate_cons_cons, List.intercalate_singleton, List.append_assoc,
        List.singleton_append]

end Ensemble.Endpoint
