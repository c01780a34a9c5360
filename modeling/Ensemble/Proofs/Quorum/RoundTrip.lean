import Ensemble.Proofs.Properties.Backslashes
import Ensemble.Proofs.Quorum.Reading

/-!
# Which canonical texts read back

A host is plain if it may stand as a token and holds neither a backslash nor a line feed, which the
canonical text does not escape (`Endpoint.IsPlainHost`). A membership is read back from its canonical
text exactly if all its hosts are plain (`Verifier.ofText_text_eq_ok_iff`). That other hosts never
come back, not even by chance, is a matter of counting: reading uses up a backslash for each line
feed and two for each backslash, and the text has no more of them than the hosts
(`Verifier.hasUnescapedHosts_of_ofProperties`).
-/

namespace Ensemble

open Text Properties Endpoint

/-- A host that the canonical text states as it is. -/
def Endpoint.IsPlainHost (host : List Char) : Prop :=
  IsTokenHost host ∧ '\\' ∉ host ∧ '\n' ∉ host

instance (host : List Char) : Decidable (IsPlainHost host) := inferInstanceAs (Decidable (_ ∧ _))

/-- Every host that the server states is plain. -/
def Server.HasPlainHosts (s : Server) : Prop :=
  (∀ e ∈ s.election, IsPlainHost e.host.toList) ∧ ∀ e ∈ s.client, IsPlainHost e.host.toList

instance (s : Server) : Decidable s.HasPlainHosts := inferInstanceAs (Decidable (_ ∧ _))

/-- Every host of a member is plain. -/
def Verifier.HasPlainHosts (v : Verifier) : Prop := ∀ s ∈ v.members.table.values, s.HasPlainHosts

instance (v : Verifier) : Decidable v.HasPlainHosts :=
  inferInstanceAs (Decidable (∀ s ∈ v.members.table.values, s.HasPlainHosts))

theorem Server.hasPlainHosts_iff {s : Server} :
    s.HasPlainHosts ↔ s.HasTokenHosts ∧ '\\' ∉ s.hostChars ∧ '\n' ∉ s.hostChars := by
  obtain ⟨id, election, client, role⟩ := s
  cases election <;> cases client <;> simp [HasPlainHosts, HasTokenHosts, IsPlainHost, hostChars]
  tauto

/-! ### Hosts in the text -/

theorem Server.sublist_of_endpoint? {host port : List Char} {e : Option Endpoint}
    (h : endpoint? host port = .ok e) :
    (e.elim [] fun e => e.host.toList).Sublist host := by
  rcases endpoint?_eq_ok h with ⟨rfl, -⟩ | ⟨n, -, rfl⟩
  · simp
  · simpa [Endpoint.ofHost] using stripBrackets_trim_sublist host

/-- The hosts of a server that is read come from its text. -/
theorem Server.hostChars_sublist {id : ServerId} {text : String} {s : Server}
    (h : Server.ofText id text = .ok s) : s.hostChars.Sublist text.toList := by
  obtain ⟨-, ts, us, hts, hrole, hends⟩ := Server.ofText_eq_ok_iff.mp h
  have hus : us.flatten.Sublist ts.flatten := by
    rcases Server.takeRole_eq_ok hrole with ⟨last, rfl, -⟩ | ⟨rfl, -⟩
    · simp
    · exact .refl _
  have htext : ts.flatten.Sublist text.toList := by
    have hflat := flatten_sublist_intercalate ':' ts
    rw [intercalate_of_tokens? hts] at hflat
    exact hflat.trans (trim_infix_self _).sublist
  refine List.Sublist.trans ?_ (hus.trans htext)
  rcases Server.endpoints_eq_ok hends with ⟨he, hc⟩ | ⟨host, port, rfl, he, hc⟩ |
    ⟨host, port, clientHost, clientPort, rfl, he, hc⟩
  · simp [Server.hostChars, he, hc]
  · have hhost := Server.sublist_of_endpoint? he
    simp only [Server.hostChars, hc, Option.elim_none, List.append_nil, List.flatten_cons]
    exact hhost.trans (List.sublist_append_left _ _)
  · have hhost := Server.sublist_of_endpoint? he
    have hclient := Server.sublist_of_endpoint? hc
    simp only [Server.hostChars, List.flatten_cons]
    exact hhost.append ((hclient.trans (List.sublist_append_left _ _)).trans
      (List.sublist_append_right _ _))

/-! ### Counting backslashes -/

theorem sum_cost_le_of_filterMap {es : List (String × String)} {servers : List Server}
    (h : es.filterMap (fun e => Verifier.readServer? e.1 e.2) = servers.map .ok) :
    (servers.map fun s => cost s.hostChars).sum ≤ costOfValues es := by
  induction es generalizing servers with
  | nil =>
    obtain rfl := List.map_eq_nil_iff.mp h.symm
    simp [costOfValues]
  | cons e es ih =>
    rw [List.filterMap_cons] at h
    have hcons : costOfValues (e :: es) = cost e.2.toList + costOfValues es := by
      simp [costOfValues]
    cases hread : Verifier.readServer? e.1 e.2 with
    | none =>
      simp only [hread] at h
      have hrest := ih h
      omega
    | some r =>
      simp only [hread] at h
      obtain ⟨s, servers, rfl, rfl, hrest⟩ := List.map_eq_cons_iff.mp h.symm
      obtain ⟨suffix, -, hr⟩ := Option.map_eq_some_iff.mp hread
      obtain ⟨id, -, hs⟩ := Except.bind_eq_ok_iff.mp hr
      have hserver := cost_le_of_sublist (Server.hostChars_sublist hs)
      have hrest := ih hrest.symm
      rw [List.map_cons, List.sum_cons]
      omega

/-- The hosts of members cost no more than the values they are read from. -/
theorem Members.sum_cost_le {props : Properties} {m : Members} (h : ofProperties props = .ok m) :
    (m.table.values.map fun s => cost s.hostChars).sum ≤ costOfValues props.toList := by
  obtain ⟨servers, hdeclared, hperm⟩ := Members.ofProperties_eq_ok_iff.mp h
  rw [(hperm.map _).sum_nat]
  exact sum_cost_le_of_filterMap hdeclared

/-- Hosts that cost no more than their own backslashes hold none, and no line feeds. -/
theorem eq_zero_of_sum_cost_le {servers : List Server}
    (h : (servers.map fun s => cost s.hostChars).sum ≤
      (servers.map fun s => s.hostChars.count '\\').sum) :
    ∀ s ∈ servers, '\\' ∉ s.hostChars ∧ '\n' ∉ s.hostChars := by
  have hle : ∀ servers : List Server, (servers.map fun s => s.hostChars.count '\\').sum ≤
      (servers.map fun s => cost s.hostChars).sum := by
    intro servers
    induction servers with
    | nil => simp
    | cons s servers ih =>
      simp only [List.map_cons, List.sum_cons, cost] at ih ⊢
      omega
  induction servers with
  | nil => simp
  | cons s servers ih =>
    have hrest := hle servers
    simp only [List.map_cons, List.sum_cons] at h
    have hs : cost s.hostChars ≤ s.hostChars.count '\\' := by omega
    have hservers : s.hostChars.count '\\' ≤ cost s.hostChars := by
      unfold cost
      omega
    intro t ht
    rcases List.mem_cons.mp ht with rfl | ht
    · unfold cost at hs
      exact ⟨List.count_eq_zero.mp (by omega), List.count_eq_zero.mp (by omega)⟩
    · exact ih (by omega) t ht

namespace Verifier

variable {v : Verifier}

theorem count_backslash_line {key value : List Char} (h : IsPlainKey key) :
    (line key value).count '\\' = value.count '\\' := by
  have hkey : key.count '\\' = 0 := List.count_eq_zero.mpr fun hc => (h.chars _ hc).2.2.2 rfl
  simp [line, List.count_append, hkey]

/-- The backslashes of a canonical text are those of the hosts. -/
theorem count_backslash_text (v : Verifier) :
    v.text.toList.count '\\' = (v.members.table.values.map fun s => s.hostChars.count '\\').sum := by
  have hvalues : v.text.toList.count '\\' = (v.entries.map fun e => e.2.count '\\').sum := by
    rw [toList_text, count_intercalate (by decide), List.map_map]
    refine congrArg List.sum (List.map_congr_left fun e he => ?_)
    exact count_backslash_line (v.isPlainKey_of_mem_entries he)
  have hrest : ((v.groupEntries ++ (v.weightEntries ++ [v.version.entry])).map
      fun e => e.2.count '\\').sum = 0 := by
    refine List.sum_eq_zero_iff_forall_eq_nat.mpr fun n hn => ?_
    obtain ⟨e, he, rfl⟩ := List.mem_map.mp hn
    exact List.count_eq_zero.mpr (isLineValue_of_mem_groups_weights_version he).backslash
  rw [hvalues, entries, List.map_append, List.sum_append_nat, hrest, serverEntries, List.map_map]
  refine congrArg List.sum (List.map_congr_left fun s _ => ?_)
  exact Server.count_text (by decide) (by decide) s

/-- No entries that cost less than the backslashes of the canonical text make up for those that it does
not escape. -/
theorem hasUnescapedHosts_of_ofProperties {props : Properties}
    (hcost : costOfValues props.toList ≤ v.text.toList.count '\\') (h : ofProperties props = .ok v) :
    v.HasUnescapedHosts := by
  have hhosts := Members.sum_cost_le (membersOfProperties_of_ofProperties h)
  rw [count_backslash_text] at hcost
  exact eq_zero_of_sum_cost_le (Nat.le_trans hhosts hcost)

theorem hasUnescapedHosts_of_ofText {text : String}
    (hcount : text.toList.count '\\' ≤ v.text.toList.count '\\') (h : ofText text = .ok v) :
    v.HasUnescapedHosts := by
  obtain ⟨props, hprops, hv⟩ := Except.bind_eq_ok_iff.mp h
  exact hasUnescapedHosts_of_ofProperties (Nat.le_trans (costOfValues_ofText hprops) hcount) hv

/-! ### Main results -/

/-- Two verifiers of the same content and version are the same. -/
theorem eq_of_sameContent {v w : Verifier} (h : v.sameContent w) (hversion : v.version = w.version) :
    v = w := by
  cases v with
  | majority m =>
    cases w with
    | majority n =>
      have hmembers : m.members = n.members := by simpa [sameContent] using h
      have hversion : m.version = n.version := hversion
      rw [← m.ofMembers_members, ← n.ofMembers_members, hmembers, hversion]
    | hierarchical n => cases h
  | hierarchical g =>
    cases w with
    | majority n => cases h
    | hierarchical k =>
      obtain ⟨hmembers, hshares, -⟩ : g.members = k.members ∧ g.shares = k.shares ∧
          g.groupWeights = k.groupWeights := by simpa [sameContent] using h
      exact congrArg _ (Hierarchy.eq_of_shares hmembers hshares hversion)

theorem sameContent_refl (v : Verifier) : v.sameContent v := by
  cases v <;> simp [sameContent]

theorem hasPlainHosts_iff : v.HasPlainHosts ↔
    v.HasUnescapedHosts ∧ ∀ s ∈ v.members.table.values, s.HasTokenHosts := by
  unfold HasPlainHosts HasUnescapedHosts
  simp only [Server.hasPlainHosts_iff]
  exact ⟨fun h => ⟨fun s hs => (h s hs).2, fun s hs => (h s hs).1⟩,
    fun h s hs => ⟨h.2 s hs, h.1 s hs⟩⟩

/-- The entries of a membership are read as this membership exactly if each host may stand as a
token. -/
theorem ofProperties_properties_eq_ok_iff (v : Verifier) :
    ofProperties v.properties = .ok v ↔ ∀ s ∈ v.members.table.values, s.HasTokenHosts := by
  rw [ofProperties_properties_iff]
  exact forall₂_congr fun s _ => Server.ofText_text_iff

/-- A way to read that leaves no host to be escaped, and then reads the entries of the membership, gives
this membership exactly if all hosts are plain. -/
theorem iff_hasPlainHosts {P : Prop} (hhosts : P → v.HasUnescapedHosts)
    (hread : v.HasUnescapedHosts → (P ↔ ofProperties v.properties = .ok v)) :
    P ↔ v.HasPlainHosts := by
  rw [hasPlainHosts_iff, ← ofProperties_properties_eq_ok_iff]
  constructor
  · intro h
    exact ⟨hhosts h, (hread (hhosts h)).mp h⟩
  · rintro ⟨hv, h⟩
    exact (hread hv).mpr h

/-- A text that gives the entries of a membership, where it escapes nothing that has to be, is read
as this membership exactly if all hosts are plain. -/
theorem ofText_eq_ok_iff {text : String}
    (hcount : text.toList.count '\\' ≤ v.text.toList.count '\\')
    (hentries : v.HasUnescapedHosts → Properties.ofText text = .ok v.properties) :
    ofText text = .ok v ↔ v.HasPlainHosts := by
  refine iff_hasPlainHosts (hasUnescapedHosts_of_ofText hcount) fun hv => ?_
  rw [ofText, hentries hv, Except.ok_bind]

theorem ofText_text_eq_ok_iff (v : Verifier) : ofText v.text = .ok v ↔ v.HasPlainHosts :=
  ofText_eq_ok_iff (Nat.le_refl _) ofText_properties

/-- **The canonical text round trip.** The canonical text of a membership is read as a membership of
the same content, the same version and the same canonical text exactly if every host is plain. -/
theorem text_readsBack_iff (v : Verifier) :
    (∃ w, ofText v.text = .ok w ∧ v.sameContent w ∧ w.version = v.version ∧ w.text = v.text) ↔
      v.HasPlainHosts := by
  rw [← ofText_text_eq_ok_iff]
  constructor
  · rintro ⟨w, hw, hcontent, hversion, -⟩
    obtain rfl := eq_of_sameContent hcontent hversion.symm
    exact hw
  · intro h
    exact ⟨v, h, v.sameContent_refl, rfl, rfl⟩

/-- A host with a backslash, as a text can give one, does not come back. -/
theorem not_forall_text_readsBack : ¬ ∀ (text : String) (v : Verifier), ofText text = .ok v →
    ∃ w, ofText v.text = .ok w ∧ v.sameContent w ∧ w.version = v.version ∧ w.text = v.text := by
  intro h
  obtain ⟨w, hw, hcontent, -⟩ := h "server.1=a\\\\b:3888" _ rfl
  obtain rfl := Except.ok.inj ((by rfl : _ = Except.ok _).symm.trans hw)
  revert hcontent
  decide

end Verifier

end Ensemble
