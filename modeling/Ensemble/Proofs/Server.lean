import Ensemble.Proofs.Endpoint.Hosts
import Ensemble.Proofs.Except
import Ensemble.Server

/-!
# Servers read back

The text of a server is its endpoints and its role, as tokens between colons (`toList_text`). It
reads as the same server exactly if every host that it states may stand as a token
(`ofText_text_iff`). Main statement: `ownText_readsBack_iff`.
-/

namespace Ensemble.Server

open Text Endpoint

/-- Every host that the server states may stand as a token. -/
def HasTokenHosts (s : Server) : Prop :=
  (∀ e ∈ s.election, IsTokenHost e.host.toList) ∧ ∀ e ∈ s.client, IsTokenHost e.host.toList

/-! ### The text as tokens -/

/-- The tokens of an endpoint that may be missing. -/
def endpointTokens : Option Endpoint → List (List Char)
  | some e => [hostToken e.host.toList, (decimal e.port.toNat).toList]
  | none => [[], []]

/-- The tokens before the role. -/
def tokens (s : Server) : List (List Char) :=
  match s.election, s.client with
  | none, none => []
  | e, none => endpointTokens e
  | e, c => endpointTokens e ++ endpointTokens c

theorem toList_text (s : Server) :
    s.text.toList = [':'].intercalate (s.tokens ++ [s.role.text.toList]) := by
  obtain ⟨id, election, client, role⟩ := s
  cases election <;> cases client <;>
    simp [text, tokens, endpointTokens, Endpoint.toList_text, List.intercalate, List.intersperse]

/-! ### Roles -/

theorem ofText?_text_role (r : Role) : Role.ofText? r.text.toList = some r := by
  cases r <;> rfl

theorem takeRole_append (ts : List (List Char)) (r : Role) :
    takeRole (ts ++ [r.text.toList]) = .ok (ts, r) := by
  simp [takeRole, ofText?_text_role]
  rfl

theorem isToken_role (r : Role) : IsToken r.text.toList := by
  cases r <;> exact Or.inl ⟨by decide, by decide⟩

/-! ### What is read -/

theorem takeRole_eq_ok {ts us : List (List Char)} {r : Role} (h : takeRole ts = .ok (us, r)) :
    (∃ last, ts = us ++ [last] ∧ Role.ofText? last = some r) ∨
      (us = ts ∧ r = .participant ∧ ∀ last ∈ ts.getLast?, Role.ofText? last = none) := by
  unfold takeRole at h
  split at h
  · rename_i hlast
    cases h
    exact Or.inr ⟨rfl, rfl, by simp [hlast]⟩
  · rename_i last hlast
    split at h
    · rename_i role hrole
      cases h
      refine Or.inl ⟨last, ?_, hrole⟩
      obtain ⟨us, rfl⟩ := List.getLast?_eq_some_iff.mp hlast
      simp
    · rename_i hrole
      split at h
      · cases h
      · cases h
        exact Or.inr ⟨rfl, rfl, by simpa [hlast] using hrole⟩

theorem endpoint?_eq_ok {host port : List Char} {e : Option Endpoint}
    (h : endpoint? host port = .ok e) :
    (e = none ∧ host = [] ∧ port = []) ∨
      ∃ n, port? port = some n ∧ e = some (Endpoint.ofHost (trim host) n) := by
  unfold endpoint? at h
  split at h
  · rename_i hnil
    cases h
    exact Or.inl ⟨rfl, hnil⟩
  · split at h
    · rename_i n hport
      cases h
      exact Or.inr ⟨n, hport, rfl⟩
    · cases h

theorem endpoints_eq_ok {ts : List (List Char)} {e c : Option Endpoint}
    (h : endpoints ts = .ok (e, c)) :
    (e = none ∧ c = none) ∨
      (∃ host port, ts = [host, port] ∧ endpoint? host port = .ok e ∧ c = none) ∨
        ∃ host port clientHost clientPort, ts = [host, port, clientHost, clientPort] ∧
          endpoint? host port = .ok e ∧ endpoint? clientHost clientPort = .ok c := by
  unfold endpoints at h
  split at h
  · cases h; exact Or.inl ⟨rfl, rfl⟩
  · cases h; exact Or.inl ⟨rfl, rfl⟩
  · rename_i host port
    cases he : endpoint? host port with
    | error _ => rw [he] at h; cases h
    | ok e' =>
      rw [he] at h
      cases h
      exact Or.inr (Or.inl ⟨host, port, rfl, he, rfl⟩)
  · rename_i host port clientHost clientPort
    cases he : endpoint? host port with
    | error _ => rw [he] at h; cases h
    | ok e' =>
      cases hc : endpoint? clientHost clientPort with
      | error _ => rw [he, hc] at h; cases h
      | ok c' =>
        rw [he, hc] at h
        cases h
        exact Or.inr (Or.inr ⟨host, port, clientHost, clientPort, rfl, he, hc⟩)
  · cases h

theorem ofText_eq_ok_iff {id : ServerId} {text : String} {s : Server} :
    ofText id text = .ok s ↔ s.id = id ∧ ∃ ts us, tokens? (trim text.toList) = some ts ∧
      takeRole ts = .ok (us, s.role) ∧ endpoints us = .ok (s.election, s.client) := by
  unfold ofText splitHostAndPort
  rw [String.toList_ofList]
  cases hts : tokens? (trim text.toList) with
  | none => simp [Except.bind_eq_ok_iff]
  | some ts =>
    simp only [pure_bind, Except.mapError_eq_ok_iff, Except.bind_eq_ok_iff, Prod.exists,
      Option.some.injEq]
    constructor
    · rintro ⟨us, role, hrole, e, c, hends, h⟩
      cases h
      exact ⟨rfl, ts, us, rfl, hrole, hends⟩
    · rintro ⟨rfl, _, us, rfl, hrole, hends⟩
      exact ⟨us, s.role, hrole, s.election, s.client, hends, rfl⟩

/-! ### Reading the text -/

theorem endpoint?_endpointTokens {e : Endpoint} (h : IsTokenHost e.host.toList) :
    endpoint? (hostToken e.host.toList) (decimal e.port.toNat).toList = .ok (some e) := by
  have hne : (decimal e.port.toNat).toList ≠ [] := by
    simp [decimal, Nat.toDigits_ne_nil]
  have hhost : Endpoint.ofHost (trim (hostToken e.host.toList)) e.port = e := by
    rw [Endpoint.ofHost, stripBrackets_trim_hostToken h, String.ofList_toList]
  unfold endpoint?
  rw [if_neg fun h => hne h.2, port?_decimal]
  simp only [hhost]
  rfl

theorem endpoints_tokens {s : Server} (h : s.HasTokenHosts) :
    endpoints s.tokens = .ok (s.election, s.client) := by
  obtain ⟨id, election, client, role⟩ := s
  obtain ⟨helection, hclient⟩ := h
  cases election with
  | none =>
    cases client with
    | none => rfl
    | some c =>
      have hc := endpoint?_endpointTokens (hclient c rfl)
      simp [tokens, endpointTokens, endpoints, hc]
      rfl
  | some e =>
    have he := endpoint?_endpointTokens (helection e rfl)
    cases client with
    | none =>
      simp only [tokens, endpointTokens, endpoints, he]
      rfl
    | some c =>
      have hc := endpoint?_endpointTokens (hclient c rfl)
      simp [tokens, endpointTokens, endpoints, he, hc]
      rfl

theorem isTrimmed_intercalate {ts : List (List Char)} (h : ∀ t ∈ ts, IsTrimmed t) :
    IsTrimmed ([':'].intercalate ts) := by
  induction ts with
  | nil => simp [IsTrimmed, List.intercalate]
  | cons t ts ih =>
    have ht := h t (by simp)
    cases ts with
    | nil => simpa [List.intercalate] using ht
    | cons u ts =>
      have hcons : [':'].intercalate (t :: u :: ts) = t ++ ':' :: [':'].intercalate (u :: ts) := by
        simp [List.intercalate, List.intersperse]
      rw [hcons]
      exact isTrimmed_append_cons ht (by decide) (ih fun w hw => h w (by simp [hw]))

theorem isToken_of_mem_endpointTokens {e : Option Endpoint}
    (h : ∀ x ∈ e, IsTokenHost x.host.toList) {t : List Char} (ht : t ∈ endpointTokens e) :
    IsToken t ∧ IsTrimmed t := by
  cases e with
  | none =>
    obtain rfl : t = [] := by simpa [endpointTokens] using ht
    exact ⟨Or.inl ⟨by simp, by simp⟩, by simp [IsTrimmed]⟩
  | some x =>
    simp only [endpointTokens, List.mem_cons, List.not_mem_nil, or_false] at ht
    rcases ht with rfl | rfl
    · exact ⟨isToken_hostToken (h x rfl), isTrimmed_hostToken (h x rfl)⟩
    · exact ⟨isToken_decimal _, isTrimmed_decimal _⟩

theorem mem_tokens {s : Server} {t : List Char} (h : t ∈ s.tokens) :
    t ∈ endpointTokens s.election ∨ t ∈ endpointTokens s.client := by
  unfold tokens at h
  split at h
  · cases h
  · exact Or.inl h
  · exact List.mem_append.mp h

theorem isToken_of_mem_tokens {s : Server} (h : s.HasTokenHosts) {t : List Char}
    (ht : t ∈ s.tokens ++ [s.role.text.toList]) : IsToken t ∧ IsTrimmed t := by
  rcases List.mem_append.mp ht with ht | ht
  · rcases mem_tokens ht with ht | ht
    · exact isToken_of_mem_endpointTokens h.1 ht
    · exact isToken_of_mem_endpointTokens h.2 ht
  · rw [List.mem_singleton.mp ht]
    exact ⟨isToken_role _, by cases s.role <;> decide⟩

/-- A server whose hosts may stand as tokens is read back from its text. -/
theorem ofText_text {s : Server} (h : s.HasTokenHosts) : ofText s.id s.text = .ok s := by
  have htrim : trim s.text.toList = s.text.toList := by
    rw [toList_text]
    exact trim_eq_self (isTrimmed_intercalate fun t ht => (isToken_of_mem_tokens h ht).2)
  have htokens : tokens? s.text.toList = some (s.tokens ++ [s.role.text.toList]) := by
    rw [toList_text]
    exact tokens?_intercalate (fun t ht => (isToken_of_mem_tokens h ht).1) (by simp)
  rw [ofText_eq_ok_iff, htrim]
  exact ⟨rfl, _, _, htokens, takeRole_append _ _, endpoints_tokens h⟩

/-! ### Only such servers are read back -/

theorem intercalate_endpointTokens (e : Endpoint) :
    [':'].intercalate (endpointTokens (some e)) = e.text.toList := by
  simp [endpointTokens, Endpoint.toList_text, List.intercalate, List.intersperse]

/-- The lengths of the tokens that an endpoint is read off, and of its own tokens. -/
theorem length_endpointTokens_le {host port : List Char} {e : Option Endpoint} (ht : IsToken host)
    (h : endpoint? host port = .ok e) :
    ([':'].intercalate (endpointTokens e)).length ≤ host.length + port.length + 1 ∧
      (([':'].intercalate (endpointTokens e)).length = host.length + port.length + 1 →
        ∀ x ∈ e, IsTokenHost x.host.toList) := by
  rcases endpoint?_eq_ok h with ⟨rfl, rfl, rfl⟩ | ⟨n, hport, rfl⟩
  · exact ⟨by decide, fun _ => by simp⟩
  · have hlen := Endpoint.length_text_le (e := Endpoint.ofHost (trim host) n) ht
      (String.toList_ofList).symm hport
    rw [intercalate_endpointTokens]
    refine ⟨hlen.1, fun heq => ?_⟩
    rintro x ⟨rfl⟩
    exact hlen.2 heq

theorem append_cons_inj {α : Type} {c : α} {as bs cs ds : List α} (hb : c ∉ bs) (hd : c ∉ ds)
    (h : as ++ c :: bs = cs ++ c :: ds) : as = cs ∧ bs = ds := by
  rcases List.append_eq_append_iff.mp h with ⟨es, rfl, hes⟩ | ⟨es, rfl, hes⟩
  · cases es with
    | nil => exact ⟨by simp, by simpa using hes⟩
    | cons e es =>
      rw [List.cons_append, List.cons.injEq] at hes
      exact absurd (by rw [hes.2]; simp) hb
  · cases es with
    | nil => exact ⟨by simp, by simpa using hes.symm⟩
    | cons e es =>
      rw [List.cons_append, List.cons.injEq] at hes
      exact absurd (by rw [hes.2]; simp) hd

theorem intercalate_concat {ts : List (List Char)} (h : ts ≠ []) (t : List Char) :
    [':'].intercalate (ts ++ [t]) = [':'].intercalate ts ++ ':' :: t := by
  induction ts with
  | nil => contradiction
  | cons u ts ih =>
    cases ts with
    | nil => simp [List.intercalate, List.intersperse]
    | cons w ts =>
      have ih := ih (by simp)
      simp only [List.intercalate, List.intersperse, List.cons_append, List.flatten_cons] at ih ⊢
      rw [ih]
      simp

theorem getLast?_role (r : Role) : ∃ cs c, r.text.toList = cs ++ [c] ∧ c ≠ ']' ∧ isBlank c = false := by
  cases r with
  | participant => exact ⟨"participan".toList, 't', rfl, by decide, by decide⟩
  | observer => exact ⟨"observe".toList, 'r', rfl, by decide, by decide⟩

/-- The last token of a text that ends in a role is the role. -/
theorem eq_concat_of_tokens? {ts : List (List Char)} {front : List Char} {r : Role}
    (h : tokens? (front ++ ':' :: r.text.toList) = some ts) (hlen : 2 ≤ ts.length) :
    ∃ us, ts = us ++ [r.text.toList] ∧ [':'].intercalate us = front := by
  obtain ⟨us, last, rfl⟩ : ∃ us last, ts = us ++ [last] := by
    refine ⟨ts.dropLast, ts.getLast (by rintro rfl; simp at hlen), ?_⟩
    rw [List.dropLast_concat_getLast]
  have hus : us ≠ [] := by rintro rfl; simp at hlen
  have hjoin := intercalate_of_tokens? h
  rw [intercalate_concat hus] at hjoin
  have hcolon : ':' ∉ last := by
    rcases isToken_of_tokens? h last (by simp) with hplain | ⟨x, rfl, -⟩
    · exact hplain.1
    · obtain ⟨cs, c, hr, hc, -⟩ := getLast?_role r
      rw [hr] at hjoin
      have hassoc : [':'].intercalate us ++ ':' :: ('[' :: x ++ [']']) =
          ([':'].intercalate us ++ ':' :: '[' :: x) ++ [']'] := by simp
      have hassoc' : front ++ ':' :: (cs ++ [c]) = (front ++ ':' :: cs) ++ [c] := by simp
      rw [hassoc, hassoc'] at hjoin
      exact absurd (List.singleton_inj.mp (List.append_inj' hjoin rfl).2).symm hc
  obtain ⟨hfront, hlast⟩ := append_cons_inj hcolon (by cases r <;> decide) hjoin
  exact ⟨us, by rw [hlast], hfront⟩

theorem tokens_of_client_eq_none {s : Server} (he : s.election ≠ none) (hc : s.client = none) :
    s.tokens = endpointTokens s.election := by
  obtain ⟨id, election, client, role⟩ := s
  cases hc
  cases election with
  | none => contradiction
  | some e => rfl

theorem tokens_of_client_ne_none {s : Server} (hc : s.client ≠ none) :
    s.tokens = endpointTokens s.election ++ endpointTokens s.client := by
  obtain ⟨id, election, client, role⟩ := s
  cases client with
  | none => contradiction
  | some c => cases election <;> rfl

theorem length_intercalate_append (a b : Option Endpoint) :
    ([':'].intercalate (endpointTokens a ++ endpointTokens b)).length =
      ([':'].intercalate (endpointTokens a)).length +
        ([':'].intercalate (endpointTokens b)).length + 1 := by
  cases a <;> cases b <;>
    simp [endpointTokens, List.intercalate, List.intersperse] <;> omega

/-- A text that reads as the endpoints of a server without being longer than the one of those
endpoints states no other hosts, so theirs may stand as tokens. -/
theorem hasTokenHosts_of_endpoints {s : Server} {ts : List (List Char)} (ht : ∀ t ∈ ts, IsToken t)
    (h : endpoints ts = .ok (s.election, s.client))
    (hle : ([':'].intercalate ts).length ≤ ([':'].intercalate s.tokens).length) :
    s.HasTokenHosts := by
  rcases endpoints_eq_ok h with ⟨he, hc⟩ | ⟨host, port, rfl, he, hc⟩ |
    ⟨host, port, clientHost, clientPort, rfl, he, hc⟩
  · simp [HasTokenHosts, he, hc]
  · have hlen : ([':'].intercalate [host, port]).length = host.length + port.length + 1 := by
      simp [List.intercalate, List.intersperse]
      omega
    have hends := length_endpointTokens_le (ht host (by simp)) he
    by_cases hnone : s.election = none
    · simp [HasTokenHosts, hnone, hc]
    · rw [tokens_of_client_eq_none hnone hc, hlen] at hle
      exact ⟨hends.2 (by omega), by simp [hc]⟩
  · have hlen : ([':'].intercalate [host, port, clientHost, clientPort]).length =
        (host.length + port.length + 1) + (clientHost.length + clientPort.length + 1) + 1 := by
      simp [List.intercalate, List.intersperse]
      omega
    have hends := length_endpointTokens_le (ht host (by simp)) he
    have hclient := length_endpointTokens_le (ht clientHost (by simp)) hc
    by_cases hnone : s.client = none
    · by_cases hnone' : s.election = none
      · simp [HasTokenHosts, hnone, hnone']
      · rw [tokens_of_client_eq_none hnone' hnone, hlen] at hle
        omega
    · rw [tokens_of_client_ne_none hnone, length_intercalate_append, hlen] at hle
      exact ⟨hends.2 (by omega), hclient.2 (by omega)⟩

theorem tokens_eq_nil_iff {s : Server} :
    s.tokens = [] ↔ s.election = none ∧ s.client = none := by
  obtain ⟨id, election, client, role⟩ := s
  cases election <;> cases client <;> simp [tokens, endpointTokens]

/-- The role ends in a letter, so there is nothing to trim but in front of the first host. -/
theorem trim_toList_text {s : Server} (h : s.tokens ≠ []) :
    trim s.text.toList = trimStart ([':'].intercalate s.tokens) ++ ':' :: s.role.text.toList := by
  obtain ⟨cs, c, hr, -, hblank⟩ := getLast?_role s.role
  rw [toList_text, intercalate_concat h, trim, trimStart_append_cons (by decide), hr]
  have hassoc : ∀ front : List Char, front ++ ':' :: (cs ++ [c]) = (front ++ ':' :: cs) ++ [c] := by
    simp
  rw [hassoc]
  exact trimEnd_eq_self (by rw [List.getLast?_concat]; simpa using hblank)

theorem two_le_length_of_endpoints {ts : List (List Char)} {e c : Option Endpoint}
    (h : endpoints ts = .ok (e, c)) (hsome : ¬(e = none ∧ c = none)) : 2 ≤ ts.length := by
  rcases endpoints_eq_ok h with hnone | ⟨host, port, rfl, -⟩ | ⟨host, port, host', port', rfl, -⟩
  · exact absurd hnone hsome
  · simp
  · simp

theorem length_le_of_takeRole {ts us : List (List Char)} {r : Role}
    (h : takeRole ts = .ok (us, r)) : us.length ≤ ts.length := by
  rcases takeRole_eq_ok h with ⟨last, rfl, -⟩ | ⟨rfl, -⟩
  · simp
  · exact Nat.le_refl _

theorem hasTokenHosts_of_ofText_text {s : Server} (h : ofText s.id s.text = .ok s) :
    s.HasTokenHosts := by
  obtain ⟨-, ts, us, hts, hrole, hends⟩ := ofText_eq_ok_iff.mp h
  by_cases hnone : s.election = none ∧ s.client = none
  · simp [HasTokenHosts, hnone.1, hnone.2]
  have htokens : s.tokens ≠ [] := fun hnil => hnone (tokens_eq_nil_iff.mp hnil)
  have hlen : 2 ≤ ts.length :=
    Nat.le_trans (two_le_length_of_endpoints hends hnone) (length_le_of_takeRole hrole)
  rw [trim_toList_text htokens] at hts
  obtain ⟨us', rfl, hjoin⟩ := eq_concat_of_tokens? hts hlen
  obtain rfl : us' = us := by
    simpa using Except.ok.inj ((takeRole_append us' s.role).symm.trans hrole)
  refine hasTokenHosts_of_endpoints (fun t ht => isToken_of_tokens? hts t (by simp [ht])) hends ?_
  rw [hjoin]
  exact (trimStart_suffix _).length_le

/-- **A server is read back** from its text exactly if every host that it states may stand as a
token. -/
theorem ofText_text_iff {s : Server} : ofText s.id s.text = .ok s ↔ s.HasTokenHosts :=
  ⟨hasTokenHosts_of_ofText_text, ofText_text⟩

/-- **What survives its own text**: an endpoint exactly if its host may stand as a token, and a server
exactly if every host that it states may, whatever its id and its role and whichever of its endpoints
it has. -/
theorem ownText_readsBack_iff :
    (∀ e : Endpoint, Endpoint.ofText e.text = .ok e ↔ IsTokenHost e.host.toList) ∧
      ∀ s : Server, ofText s.id s.text = .ok s ↔
        (∀ e ∈ s.election, IsTokenHost e.host.toList) ∧ ∀ e ∈ s.client, IsTokenHost e.host.toList :=
  ⟨fun _ => Endpoint.ofText_text_iff, fun _ => ofText_text_iff⟩

/-! ### Characters of hosts -/

/-- The characters of the hosts that the server states. -/
def hostChars (s : Server) : List Char :=
  (s.election.elim [] fun e => e.host.toList) ++ s.client.elim [] fun e => e.host.toList

theorem count_decimal {c : Char} (hc : ¬ c.isAlphanum) (n : Nat) :
    (decimal n).toList.count c = 0 :=
  List.count_eq_zero.mpr fun h => hc (isAlphanum_of_mem_decimal h)

theorem count_role {c : Char} (hc : ¬ c.isAlphanum) (r : Role) : r.text.toList.count c = 0 := by
  have hall : r.text.toList.all Char.isAlphanum := by cases r <;> decide
  exact List.count_eq_zero.mpr fun h => hc (List.all_eq_true.mp hall c h)

theorem count_endpoint_text {c : Char} (hc : ¬ c.isAlphanum) (hne : c ∉ [':', '[', ']'])
    (e : Endpoint) : e.text.toList.count c = e.host.toList.count c := by
  simp only [List.mem_cons, List.not_mem_nil, or_false, not_or] at hne
  obtain ⟨h1, h2, h3⟩ := hne
  have hport := count_decimal hc e.port.toNat
  rw [Endpoint.toList_text, hostToken]
  split
  · simp [List.count_append, hport, Ne.symm h1, Ne.symm h2, Ne.symm h3]
  · simp [List.count_append, hport, Ne.symm h1]

/-- What is neither a letter nor a digit nor a part of the notation comes from the hosts. -/
theorem count_text {c : Char} (hc : ¬ c.isAlphanum) (hne : c ∉ [':', '[', ']']) (s : Server) :
    s.text.toList.count c = s.hostChars.count c := by
  have hcolon : ¬ ':' = c := by rintro rfl; simp at hne
  have hrole := count_role hc s.role
  obtain ⟨id, election, client, role⟩ := s
  cases election <;> cases client <;>
    simp [text, hostChars, List.count_append, count_endpoint_text hc hne, hrole,
      hcolon]

end Ensemble.Server
