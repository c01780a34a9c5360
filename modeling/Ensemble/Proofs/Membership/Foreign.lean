import Ensemble.Proofs.Config.Loading

/-!
# What is no dynamic file

A dynamic file holds no entry that is foreign to a membership. So it is neither the static file, which
names it, nor the file with the id of the server, the first line of which is a number and so a foreign
key (`exists_foreign_of_firstNumber?`).
-/

namespace Ensemble

open Text Properties

/-! ### Foreign keys -/

/-- A key that is no part of a membership. -/
def IsForeign (key : String) : Prop :=
  MembershipKey.declares key = false ∧ key ≠ MembershipKey.version

instance : DecidablePred IsForeign := fun _ => inferInstanceAs (Decidable (_ ∧ _))

theorem isForeign_of_staysInStatic {key : String} (h : staysInStatic false key) : IsForeign key :=
  have ⟨hdeclares, hversion, _⟩ := staysInStatic_iff.mp h
  ⟨hdeclares, hversion⟩

theorem foreignKey?_eq_none_iff {props : Properties} :
    foreignKey? props = none ↔ ∀ key ∈ props.keys, ¬ IsForeign key := by
  rw [foreignKey?, List.find?_eq_none]
  refine forall₂_congr fun key _ => ?_
  simp [IsForeign]

/-- The entries of a membership. -/
def Properties.membership (props : Properties) : Properties :=
  props.filter fun key _ => !decide (IsForeign key)

theorem Properties.get?_membership {props : Properties} {key : String} (h : ¬ IsForeign key) :
    props.membership.get? key = props.get? key := by
  refine Option.ext fun value => ?_
  rw [membership, Table.get?_filter_eq_some_iff]
  simp [h]

theorem Properties.mem_keys_membership {props : Properties} {key : String} :
    key ∈ props.membership.keys ↔ key ∈ props.keys ∧ ¬ IsForeign key := by
  simp only [Table.mem_keys_iff, membership, Table.get?_filter_eq_some_iff]
  simp

theorem suffix?_of_isForeign {key : String} (h : IsForeign key) :
    MembershipKey.suffix? MembershipKey.server key = none ∧
      MembershipKey.suffix? MembershipKey.group key = none ∧
      MembershipKey.suffix? MembershipKey.weight key = none := by
  have hstems := h.1
  simp only [MembershipKey.declares, Bool.or_eq_false_iff, MembershipKey.startsWith] at hstems
  simp [MembershipKey.suffix?, hstems]

/-- A loop over entries that passes over foreign ones. -/
theorem Properties.foldlM_membership {ε σ : Type} {props : Properties}
    {f : σ → String × String → Except ε σ} (hf : ∀ s e, IsForeign e.1 → f s e = pure s) (s : σ) :
    props.membership.toList.foldlM f s = props.toList.foldlM f s := by
  change (props.toList.filter _).foldlM f s = _
  rw [List.foldlM_filter]
  congr
  funext t e
  by_cases hforeign : IsForeign e.1
  · simp [hforeign, hf t e hforeign]
  · simp [hforeign]

/-- **A membership** is what its own entries state. -/
theorem Verifier.ofProperties_membership (props : Properties) :
    ofProperties props.membership = ofProperties props := by
  have hdetect : Strategy.detect props.membership = Strategy.detect props := by
    have hany : ∀ q : String → Bool, (∀ key, IsForeign key → q key = false) →
        props.membership.keys.any q = props.keys.any q := by
      intro q hq
      rw [Bool.eq_iff_iff, List.any_eq_true, List.any_eq_true]
      refine exists_congr fun key => ?_
      rw [Properties.mem_keys_membership, and_assoc]
      refine and_congr_right fun _ => and_iff_right_of_imp fun hkey hforeign => ?_
      rw [hq key hforeign] at hkey
      cases hkey
    unfold Strategy.detect
    rw [hany]
    intro key hforeign
    have hstems := hforeign.1
    simp only [MembershipKey.declares, Bool.or_eq_false_iff] at hstems
    simp [hstems]
  have hmembers : Members.ofProperties props.membership = Members.ofProperties props := by
    refine Properties.foldlM_membership (fun m e hforeign => ?_) _
    rw [(suffix?_of_isForeign hforeign).1]
  have hgroups : Hierarchy.readGroups props.membership = Hierarchy.readGroups props := by
    refine Properties.foldlM_membership (fun m e hforeign => ?_) _
    simp only [(suffix?_of_isForeign hforeign).2]
  have hversion : Version.ofProperties props.membership = Version.ofProperties props := by
    unfold Version.ofProperties
    rw [Properties.get?_membership (by simp [IsForeign])]
  simp only [ofProperties, Majority.ofProperties, Hierarchy.ofProperties, hdetect, hmembers, hgroups,
    hversion]

/-- **A strict reading** of a membership. -/
theorem readMembership_strict_iff {props : Properties} {electionAlg : UInt32} {warnings : Bool}
    {context : Context} {v : Verifier} :
    (readMembership props electionAlg warnings false context).outcome = .ok v ↔
      foreignKey? props = none ∧ Verifier.ofProperties props = .ok v ∧
        checkPopulation v electionAlg context = .ok () := by
  unfold readMembership
  cases foreignKey? props with
  | some key =>
    refine iff_of_false (fun h => ?_) (by simp)
    simp only [Bool.not_false, if_true] at h
    cases h
  | none =>
    simp only [Bool.not_false, if_true, true_and]
    rw [Reported.outcome_bind_eq_ok_iff]
    constructor
    · rintro ⟨w, hw, h⟩
      obtain ⟨u, hcheck, hpure⟩ := Reported.outcome_bind_eq_ok_iff.mp h
      obtain rfl := Except.ok.inj hpure
      exact ⟨hw, hcheck⟩
    · rintro ⟨hv, hcheck⟩
      exact ⟨v, hv, Reported.outcome_bind_eq_ok_iff.mpr ⟨(), hcheck, rfl⟩⟩

/-! ### Numbers as entries -/

theorem splitKey_of_plain {key : List Char}
    (h : ∀ c ∈ key, isBlank c = false ∧ c ≠ '=' ∧ c ≠ ':' ∧ c ≠ '\\') : splitKey key = (key, []) := by
  induction key with
  | nil => rfl
  | cons c key ih =>
    obtain ⟨hblank, heq, hcolon, hslash⟩ := h c (by simp)
    rw [splitKey_cons_of_ne hslash, ih fun d hd => h d (by simp [hd])]
    simp [heq, hcolon, hblank]

/-- A character of a number has no meaning of its own in an entry, and starts no key of a
membership. -/
theorem plain_of_isDigit {c : Char} (h : c = '+' ∨ c.isDigit) :
    isBlank c = false ∧ ∀ d ∈ ['=', ':', '\\', '#', '!', 's', 'g', 'w', 'v'], c ≠ d := by
  rcases h with rfl | h
  · exact ⟨by decide, by simp⟩
  · refine ⟨isBlank_of_isAlphanum (by simp [Char.isAlphanum, h]), ?_⟩
    rintro d hd rfl
    simp only [List.mem_cons, List.not_mem_nil, or_false] at hd
    rcases hd with rfl | rfl | rfl | rfl | rfl | rfl | rfl | rfl | rfl <;> exact absurd h (by decide)

theorem isForeign_of_head? {key : String} {c : Char} (hhead : key.toList.head? = some c)
    (hc : ∀ d ∈ ['s', 'g', 'w', 'v'], c ≠ d) : IsForeign key := by
  have hne : ∀ d ∈ ['s', 'g', 'w', 'v'], key.toList.head? ≠ some d := by
    intro d hd hd'
    rw [hhead] at hd'
    exact hc d hd (Option.some.inj hd')
  constructor
  · have hserver := @MembershipKey.startsWith_of_head? MembershipKey.server key 's'
      (by decide) (hne 's' (by simp))
    have hgroup := @MembershipKey.startsWith_of_head? MembershipKey.group key 'g'
      (by decide) (hne 'g' (by simp))
    have hweight := @MembershipKey.startsWith_of_head? MembershipKey.weight key 'w'
      (by decide) (hne 'w' (by simp))
    simp [MembershipKey.declares, hserver, hgroup, hweight]
  · rintro rfl
    exact hne 'v' (by simp) (by decide)

section Number

variable {l : List Char} (hchars : ∀ c ∈ trim l, c = '+' ∨ c.isDigit)
include hchars

theorem isIdle_of_number (hne : trim l ≠ []) : isIdle (trimStart l) = false := by
  obtain ⟨bs, hbs, -⟩ := exists_trimEnd_append (trimStart l)
  obtain ⟨c, cs, hnumber⟩ := List.exists_cons_of_ne_nil hne
  obtain ⟨-, hc⟩ := plain_of_isDigit (hchars c (by rw [hnumber]; simp))
  have hstart : trimStart l = c :: (cs ++ bs) := by
    rw [hbs]
    change trim l ++ bs = _
    rw [hnumber]
    rfl
  have hhash := hc '#' (by simp)
  have hbang := hc '!' (by simp)
  simp [hstart, isIdle, hhash, hbang]

theorem continued?_of_number : continued? (trimStart l) = none := by
  obtain ⟨bs, hbs, hblank⟩ := exists_trimEnd_append (trimStart l)
  refine continued?_eq_none_of_not_mem fun hslash => ?_
  rw [hbs, List.mem_append] at hslash
  rcases hslash with hslash | hslash
  · exact (plain_of_isDigit (hchars _ hslash)).2 '\\' (by simp) rfl
  · exact absurd (hblank _ hslash) (by decide)

/-- A number is read as a key without a value. -/
theorem readLine_of_number : (readLine (trimStart l)).1 = String.ofList (trim l) := by
  have htrim : trim (trimStart l) = trim l := by
    rw [trim, trimStart_eq_self (isBlank_head?_trimStart l)]
    rfl
  have hsplit : splitKey (trim l) = (trim l, []) := splitKey_of_plain fun d hd => by
    obtain ⟨hblank, hplain⟩ := plain_of_isDigit (hchars d hd)
    exact ⟨hblank, hplain _ (by simp), hplain _ (by simp), hplain _ (by simp)⟩
  rw [readLine, htrim, hsplit]

theorem isForeign_of_number (hne : trim l ≠ []) : IsForeign (readLine (trimStart l)).1 := by
  obtain ⟨c, cs, hnumber⟩ := List.exists_cons_of_ne_nil hne
  obtain ⟨-, hc⟩ := plain_of_isDigit (hchars c (by rw [hnumber]; simp))
  rw [readLine_of_number hchars]
  exact isForeign_of_head? (c := c) (by simp [hnumber]) fun d hd =>
    hc d (List.mem_append_right ['=', ':', '\\', '#', '!'] hd)

end Number

/-- **A number** on the first line is a foreign key. -/
theorem exists_foreign_of_firstNumber? {text : String} {n : UInt64} {props : Properties}
    (h : Config.firstNumber? text = some n) (hprops : Properties.ofText text = .ok props) :
    ∃ key ∈ props.keys, IsForeign key := by
  obtain ⟨hne, hchars⟩ := chars_of_uint64? h
  rw [String.toList_ofList] at hne hchars
  cases hlines : lines text.toList with
  | nil =>
    rw [hlines] at hne
    exact absurd rfl hne
  | cons l ls =>
    rw [hlines, List.headD_cons] at hne hchars
    have hlogical : logicalLines text.toList = (1, trimStart l) :: joinLines 2 1 [] ls := by
      simp [logicalLines, hlines, joinLines, isIdle_of_number hchars hne, continued?_of_number hchars]
    obtain ⟨-, rfl⟩ := ofText_eq_ok_iff.mp hprops
    refine ⟨_, Table.mem_keys_ofList_iff.mpr ?_, isForeign_of_number hchars hne⟩
    rw [hlogical, List.map_cons, List.map_cons, List.map_cons]
    exact List.mem_cons_self

end Ensemble
