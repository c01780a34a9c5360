import Ensemble.Proofs.Quorum.RoundTrip

/-!
# Verifiers of the same content

A comparison of contents looks at the members and, in hierarchies, at the shares and the totals of the
groups. The totals follow from the shares (`Hierarchy.groupWeights_eq`), so members and shares are all
that is compared (`Verifier.content`). Nothing else in a verifier but its version is free: the half of
the voters, the groups and their number are counted from these. So verifiers of the same content are
one verifier under two versions (`Verifier.withVersion_eq_of_sameContent`), and the version decides
nothing (`Verifier.alike_withVersion`). Conversely the content can be read off the answers
(`Verifier.sameContent_of_alike`).

Main statement: `Verifier.sameContent_equivalence_and_alike`.
-/

namespace Ensemble

/-- The totals of the groups follow from the shares. -/
theorem Hierarchy.groupWeights_eq {a b : Hierarchy} (h : a.shares = b.shares) :
    a.groupWeights = b.groupWeights := by
  have htotals := a.groupTotals_shares
  rw [h, b.groupTotals_shares] at htotals
  exact (Except.ok.inj htotals).symm

/-- A share is a group and a weight, so shares agree if groups and weights do. -/
theorem Hierarchy.shares_eq_of_forall {a b : Hierarchy}
    (hgroup : ∀ id, a.groupOf? id = b.groupOf? id) (hweight : ∀ id, a.weight? id = b.weight? id) :
    a.shares = b.shares := by
  refine Table.ext_get? fun id => ?_
  have hgroup := hgroup id
  have hweight := hweight id
  unfold groupOf? at hgroup
  unfold weight? at hweight
  cases ha : a.shares.get? id with
  | none =>
    rw [ha, Option.map_none] at hgroup
    exact (Option.map_eq_none_iff.mp hgroup.symm).symm
  | some s =>
    rw [ha, Option.map_some] at hgroup hweight
    obtain ⟨t, hb, hgroup⟩ := Option.map_eq_some_iff.mp hgroup.symm
    rw [hb, Option.map_some, Option.some.injEq] at hweight
    obtain ⟨g, w⟩ := s
    obtain ⟨g', w'⟩ := t
    cases hgroup
    cases hweight
    exact hb.symm

namespace Verifier

variable {a b : Verifier}

/-! ### Contents -/

/-- What a comparison of contents looks at. -/
def content : Verifier → Members × Option (Table ServerId Share)
  | .majority m => (m.members, none)
  | .hierarchical h => (h.members, some h.shares)

theorem sameContent_iff : a.sameContent b ↔ a.content = b.content := by
  cases a with
  | majority m => cases b <;> simp [sameContent, content]
  | hierarchical h =>
    cases b with
    | majority n => simp [sameContent, content]
    | hierarchical k =>
      simp only [sameContent, content, decide_eq_true_eq, Prod.mk.injEq, Option.some.injEq]
      exact ⟨fun hc => ⟨hc.1, hc.2.1⟩, fun hc => ⟨hc.1, hc.2, Hierarchy.groupWeights_eq hc.2⟩⟩

theorem content_withVersion (v : Verifier) (version : Version) :
    (v.withVersion version).content = v.content := by
  cases v <;> rfl

theorem version_withVersion (v : Verifier) (version : Version) :
    (v.withVersion version).version = version := by
  cases v <;> rfl

theorem withVersion_eq_of_sameContent (h : a.sameContent b) : a.withVersion b.version = b := by
  refine eq_of_sameContent ?_ (a.version_withVersion b.version)
  rw [sameContent_iff, content_withVersion]
  exact sameContent_iff.mp h

/-! ### Answers -/

/-- The same numbers decide on quorums: half of the voters, or the groups, what they weigh and how
many of them weigh anything. -/
def SameRule : Verifier → Verifier → Prop
  | .majority m, .majority n => m.half = n.half
  | .hierarchical h, .hierarchical k =>
    h.groups = k.groups ∧ (∀ id, h.groupOf? id = k.groupOf? id) ∧
      (∀ g, h.groupWeight? g = k.groupWeight? g) ∧ h.numGroups = k.numGroups
  | _, _ => False

/-- Nothing but their versions tells two verifiers apart. -/
structure Alike (a b : Verifier) : Prop where
  strategy_eq : a.strategy = b.strategy
  members_eq : a.members = b.members
  weight?_eq : ∀ id, a.weight? id = b.weight? id
  sameRule : SameRule a b
  containsQuorum_eq : ∀ acks, a.containsQuorum acks = b.containsQuorum acks
  text_eq : ∀ version, (a.withVersion version).text = (b.withVersion version).text

theorem alike_withVersion (v : Verifier) (version : Version) : Alike v (v.withVersion version) := by
  cases v with
  | majority m => exact ⟨rfl, rfl, fun _ => rfl, rfl, fun _ => rfl, fun _ => rfl⟩
  | hierarchical h =>
    exact ⟨rfl, rfl, fun _ => rfl, ⟨rfl, fun _ => rfl, fun _ => rfl, rfl⟩, fun _ => rfl, fun _ => rfl⟩

theorem alike_of_sameContent (h : a.sameContent b) : Alike a b := by
  rw [← withVersion_eq_of_sameContent h]
  exact a.alike_withVersion b.version

theorem sameContent_of_alike (h : Alike a b) : a.sameContent b := by
  obtain ⟨-, hmembers, hweight, hrule, -, -⟩ := h
  rw [sameContent_iff]
  cases a with
  | majority m =>
    cases b with
    | majority n => exact congrArg (·, none) hmembers
    | hierarchical k => cases hrule
  | hierarchical h =>
    cases b with
    | majority n => cases hrule
    | hierarchical k =>
      obtain ⟨-, hgroup, -, -⟩ := hrule
      exact congrArg₂ (·, some ·) hmembers (Hierarchy.shares_eq_of_forall hgroup hweight)

/-! ### Main result -/

/-- **The same content** is an equivalence, and two verifiers have it exactly if nothing but their
versions tells them apart: they have one strategy, the same members with the same weights and the
same numbers that decide on quorums, the same quorums, and under each version the same text. -/
theorem sameContent_equivalence_and_alike :
    Equivalence (fun a b : Verifier => a.sameContent b) ∧
      ∀ a b : Verifier, a.sameContent b ↔ Alike a b := by
  refine ⟨?_, fun a b => ⟨alike_of_sameContent, sameContent_of_alike⟩⟩
  simp only [sameContent_iff]
  exact ⟨fun _ => rfl, Eq.symm, Eq.trans⟩

end Verifier

end Ensemble
