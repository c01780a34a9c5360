import Ensemble.Proofs.Quorum.Declared
import Ensemble.Proofs.Text.Bytes
import Ensemble.Quorum.ConnectString

/-!
# What clients are told of a membership

A connect string takes every server entry on its own and leaves out those that cannot be read. A
verifier refuses them, and it holds its servers by their numbers where the entries come by their
keys. Main statement: `Verifier.connectStringOfText_agrees`. Every text with properties has a connect
string, which lists the clients of the entries in byte order of the keys (`Verifier.AreClientsOf`),
and where the text states a verifier these are the clients of its members.
-/

namespace Ensemble.Verifier

/-- The entry declares a server with an endpoint for clients. -/
def DeclaresClient (e : String × String) (client : Endpoint) : Prop :=
  ∃ id s, Hierarchy.DeclaresServer e id s ∧ s.client = some client

/-- The clients are those that the entries declare, in the order of the entries, one for each entry
that declares one. -/
inductive AreClientsOf : List (String × String) → List Endpoint → Prop
  | nil : AreClientsOf [] []
  | take {e es client clients} (hclient : DeclaresClient e client)
      (hrest : AreClientsOf es clients) : AreClientsOf (e :: es) (client :: clients)
  | skip {e es clients} (hnone : ∀ client, ¬ DeclaresClient e client)
      (hrest : AreClientsOf es clients) : AreClientsOf (e :: es) clients

/-! ### Clients of entries -/

/-- The endpoint for clients of what is read of an entry. -/
def readClient? (r : Except ConfigError Server) : Option Endpoint := r.toOption.bind Server.client

def declaredClient? (e : String × String) : Option Endpoint :=
  (readServer? e.1 e.2).bind readClient?

theorem declaredClient?_eq_some_iff {e : String × String} {client : Endpoint} :
    declaredClient? e = some client ↔ DeclaresClient e client := by
  simp only [DeclaresClient, Hierarchy.declaresServer_iff, declaredClient?]
  rcases readServer? e.1 e.2 with _ | _ | s <;> simp [readClient?, Except.toOption]

theorem areClientsOf_filterMap (es : List (String × String)) :
    AreClientsOf es (es.filterMap declaredClient?) := by
  induction es with
  | nil => exact .nil
  | cons e es ih =>
    cases he : declaredClient? e with
    | none =>
      rw [List.filterMap_cons_none he]
      refine .skip (fun client hclient => ?_) ih
      rw [← declaredClient?_eq_some_iff, he] at hclient
      cases hclient
    | some client =>
      rw [List.filterMap_cons_some he]
      exact .take (declaredClient?_eq_some_iff.mp he) ih

/-- The clients of the entries are those of the members, which are the same servers in another
order. -/
theorem perm_filterMap_declaredClient? {props : Properties} {v : Verifier}
    (h : ofProperties props = .ok v) :
    (props.toList.filterMap declaredClient?).Perm (v.members.table.values.filterMap Server.client) := by
  obtain ⟨servers, hdeclared, hperm⟩ :=
    Members.ofProperties_eq_ok_iff.mp (membersOfProperties_of_ofProperties h)
  have hclients : props.toList.filterMap declaredClient? = servers.filterMap Server.client :=
    calc props.toList.filterMap declaredClient?
      _ = (Members.declared props).filterMap readClient? := by
        rw [Members.declared, List.filterMap_filterMap]
        rfl
      _ = servers.filterMap Server.client := by
        rw [hdeclared, List.filterMap_map]
        rfl
  rw [hclients]
  exact (hperm.filterMap _).symm

/-! ### Connect strings -/

theorem connectString_eq (props : Properties) : connectString props =
    (props.get? MembershipKey.version).getD "" ++ " " ++
      ",".intercalate ((props.toList.filterMap declaredClient?).map Endpoint.text) := by
  rw [List.map_filterMap]
  refine congrArg (fun clients => _ ++ " " ++ ",".intercalate clients)
    (List.filterMap_congr fun e _ => ?_)
  unfold declaredClient?
  rcases readServer? e.1 e.2 with _ | _ | s <;> rfl

theorem outcome_connectStringOfText (text : String) :
    (connectStringOfText text).outcome = (Properties.ofText text).map connectString := by
  rw [connectStringOfText, Reported.outcome_bind]
  cases Properties.ofText text <;> rfl

/-- Keys come in the order of their bytes. -/
theorem pairwise_bytes_keys (props : Properties) :
    props.keys.Pairwise fun a b => Text.bytes a < Text.bytes b :=
  List.pairwise_map.mpr (props.sorted.imp Text.compare_eq_lt_iff.mp)

/-- **The connect string agrees with the verifier**: it is refused exactly where the text has no
properties. Otherwise it is the version as written and the clients that the entries declare, in byte
order of the keys. If the text states a verifier, they are the clients of its members. -/
theorem connectStringOfText_agrees (text : String) :
    (∀ error, (connectStringOfText text).outcome = .error error ↔
      Properties.ofText text = .error error) ∧
    ∀ props, Properties.ofText text = .ok props →
      props.keys.Pairwise (fun a b => Text.bytes a < Text.bytes b) ∧
      ∃ clients, AreClientsOf props.toList clients ∧
        (connectStringOfText text).outcome = .ok ((props.get? MembershipKey.version).getD "" ++
          " " ++ ",".intercalate (clients.map Endpoint.text)) ∧
        ∀ v, ofText text = .ok v →
          clients.Perm (v.members.table.values.filterMap Server.client) := by
  rw [outcome_connectStringOfText]
  constructor
  · intro error
    cases Properties.ofText text <;> simp [Except.map]
  · intro props hprops
    refine ⟨pairwise_bytes_keys props, _, areClientsOf_filterMap _, ?_, fun v hv => ?_⟩
    · rw [hprops, ← connectString_eq]
      rfl
    · rw [ofText, hprops] at hv
      exact perm_filterMap_declaredClient? hv

/-- Three servers in a text, of which one has no endpoint for clients. -/
def threeServers : String := "server.2=a:1:b:2\nserver.10=c:3:d:4:observer\nserver.1=e:5\nversion=0F"

/-- Server 10 comes before server 2 in byte order of the keys. -/
theorem connectStringOfText_agrees_threeServers :
    ∃ props v clients, Properties.ofText threeServers = .ok props ∧
      ofText threeServers = .ok v ∧ AreClientsOf props.toList clients ∧
      (connectStringOfText threeServers).outcome = .ok "0F d:4,b:2" ∧
      clients.Perm (v.members.table.values.filterMap Server.client) := by
  have hreads : (ofText threeServers).toOption.isSome := by decide +kernel
  cases hv : ofText threeServers with
  | error e =>
    rw [hv] at hreads
    cases hreads
  | ok v =>
    obtain ⟨props, hprops, -⟩ := Except.bind_eq_ok_iff.mp hv
    obtain ⟨-, clients, hclients, -, hperm⟩ :=
      (connectStringOfText_agrees threeServers).2 props hprops
    exact ⟨props, v, clients, hprops, rfl, hclients, by decide +kernel, hperm v hv⟩

-- A server without a number and one without a port are left out.
example : (connectStringOfText "server.x=a:1:b:2\nserver.2=c\nserver.3=d:1:e:2").outcome =
    .ok " e:2" := by decide +kernel

end Ensemble.Verifier
