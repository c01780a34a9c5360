import Ensemble.Membership.Snapshot
import Ensemble.Proofs.Json.Meaning
import Ensemble.Proofs.Json.Printing
import Ensemble.Proofs.Table

/-!
# Snapshots read back

A record is written as an object with the fields that are there. What is read of such an object under
a name is what was written under it (`Json.exists_record?_ofFields`), and all that is written is plain
(`Json.isPlain_ofSnapshot`) and, as far as that is asked, meaningful (`Json.isMeaningful_ofState`). So
the text of a snapshot reads back as the snapshot (`Snapshot.ofText?_text`).
-/

namespace Ensemble

open Text

namespace Json

/-! ### Words -/

theorem isPlain_ofWord (n : UInt64) : (ofWord n).IsPlain := trivial

theorem isMeaningful_ofWord (n : UInt64) : (ofWord n).isMeaningful :=
  JsonNumber.isFinite_integer false n.toNat_lt

theorem isPlain_ofWords (ns : List UInt64) : (ofWords ns).IsPlain := by
  rw [ofWords, IsPlain]
  induction ns with
  | nil => exact trivial
  | cons n ns ih => exact ⟨isPlain_ofWord n, ih⟩

theorem isPlain_ofGroups (groups : Table GroupId (List ServerId)) : (ofGroups groups).IsPlain := by
  rw [ofGroups, IsPlain]
  induction groups.toList with
  | nil => exact trivial
  | cons e es ih =>
    exact ⟨fun c hc => isPlainChar_of_isDigit (isDigit_of_mem_toDigits c hc), isPlain_ofWords e.2, ih⟩

theorem uint64?_ofWord (n : UInt64) : (ofWord n).uint64? = some n := by
  simp [ofWord, uint64?, JsonNumber.uint64?, n.toNat_lt]

theorem words?_ofWords (ns : List UInt64) : words? (ofWords ns) = some ns := by
  rw [ofWords, words?, List.mapM_map]
  simpa [Function.comp_def, uint64?_ofWord] using List.mapM_pure (m := Option) (l := ns) (f := id)

theorem strategy?_ofString (s : Strategy) : strategy? (ofString s.name) = some s := by
  cases s <;> decide

theorem groups?_ofGroups (groups : Table GroupId (List ServerId)) :
    groups? (ofGroups groups) = some groups := by
  have hentries : (groups.toList.map fun e => (Nat.toDigits 10 e.1.toNat, ofWords e.2)).mapM
      (fun f : List Char × Json => do return (← spelledWord? f.1, ← words? f.2)) =
        some groups.toList := by
    rw [List.mapM_map]
    simpa [Function.comp_def, spelledWord?_toDigits, words?_ofWords] using
      List.mapM_pure (m := Option) (l := groups.toList) (f := id)
  have htable : Table.ofList groups.toList = groups := Table.ofList_eq_of_perm (.refl _)
  refine (congrArg (Option.bind · fun entries => some (Table.ofList entries)) hentries).trans ?_
  rw [Option.bind_some, htable]

/-! ### Records -/

/-- The fields that are there, of those named. -/
def present (names : List String) (fields : List (String × Option Json)) : List (String × Json) :=
  fields.filterMap fun f => if f.1 ∈ names then f.2.map fun j => (f.1, j) else none

/-- Different names that are their own spellings. -/
def AreNames (names : List String) : Prop :=
  names.Nodup ∧ ∀ name ∈ names, ∀ c ∈ name.toList, IsPlainChar c

-- The characters of a name are gone through, not all characters there are.
instance : DecidablePred AreNames := fun _ =>
  haveI (name : String) : Decidable (∀ c ∈ name.toList, IsPlainChar c) := List.decidableBAll _ _
  inferInstanceAs (Decidable (_ ∧ _))

theorem AreNames.cons {name : String} {names : List String} (h : AreNames (name :: names)) :
    name ∉ names ∧ (∀ c ∈ name.toList, IsPlainChar c) ∧ AreNames names := by
  obtain ⟨hnodup, hplain⟩ := h
  obtain ⟨hnew, hnodup⟩ := List.nodup_cons.mp hnodup
  obtain ⟨hname, hplain⟩ := List.forall_mem_cons.mp hplain
  exact ⟨hnew, hname, hnodup, hplain⟩

section Fields

variable {names : List String} {fields : List (String × Option Json)}

theorem present_cons_none (name : String) :
    present names ((name, none) :: fields) = present names fields := by
  simp [present]

theorem present_cons_of_mem {name : String} (h : name ∈ names) (j : Json) :
    present names ((name, some j) :: fields) = (name, j) :: present names fields := by
  simp [present, h]

theorem present_cons_of_not_mem {name : String} (h : name ∉ names) (j : Option Json) :
    present names ((name, j) :: fields) = present names fields := by
  simp [present, h]

theorem key_mem_of_mem_present {e : String × Json} (h : e ∈ present names fields) :
    e.1 ∈ fields.map Prod.fst := by
  obtain ⟨f, hf, he⟩ := List.mem_filterMap.mp h
  by_cases hname : f.1 ∈ names
  · rw [if_pos hname] at he
    obtain ⟨j, -, rfl⟩ := Option.map_eq_some_iff.mp he
    exact List.mem_map.mpr ⟨f, hf, rfl⟩
  · rw [if_neg hname] at he
    cases he

theorem record?_ofFields (h : AreNames (fields.map Prod.fst)) :
    record? names (ofFields fields) = some (present names fields) := by
  rw [ofFields, record?]
  induction fields with
  | nil => rfl
  | cons f fields ih =>
    obtain ⟨name, j⟩ := f
    obtain ⟨hname, hplain, hfields⟩ := AreNames.cons h
    have hrest := ih hfields
    cases j with
    | none =>
      rw [present_cons_none]
      exact hrest
    | some j =>
      have hnew : (present names fields).any (fun f => f.1 == name) = false := by
        rw [List.any_eq_false]
        intro e he heq
        exact hname (beq_iff_eq.mp heq ▸ key_mem_of_mem_present he)
      change named? names ((name.toList, j) :: _) = _
      rw [named?, spelled?_of_plain hplain, hrest]
      by_cases hnamed : name ∈ names
      · rw [present_cons_of_mem hnamed]
        simp [hnamed, hnew]
      · rw [present_cons_of_not_mem hnamed]
        simp [hnamed]

/-- What is looked up of the fields that are there is looked up of all of them. -/
theorem lookup_present (h : AreNames (fields.map Prod.fst)) {name : String} (hname : name ∈ names) :
    (present names fields).lookup name = (fields.lookup name).join := by
  induction fields with
  | nil => rfl
  | cons f fields ih =>
    obtain ⟨other, j⟩ := f
    obtain ⟨hother, -, hfields⟩ := AreNames.cons h
    have hrest := ih hfields
    by_cases heq : name = other
    · subst heq
      cases j with
      | none =>
        have hnone : fields.lookup name = none := by
          refine List.lookup_eq_none_iff.mpr fun f hf => bne_iff_ne.mpr ?_
          rintro rfl
          exact hother (List.mem_map.mpr ⟨f, hf, rfl⟩)
        rw [present_cons_none, hrest, hnone, List.lookup_cons_self]
        rfl
      | some j =>
        rw [present_cons_of_mem hname, List.lookup_cons_self, List.lookup_cons_self]
        rfl
    · rw [List.lookup_cons, beq_false_of_ne heq, ← hrest]
      by_cases hmem : other ∈ names
      · cases j with
        | none => rw [present_cons_none]
        | some j => rw [present_cons_of_mem hmem, List.lookup_cons, beq_false_of_ne heq]
      · rw [present_cons_of_not_mem hmem]

/-- **Records** are read as they are written. -/
theorem exists_record?_ofFields (h : AreNames (fields.map Prod.fst)) (names : List String) :
    ∃ found, record? names (ofFields fields) = some found ∧
      ∀ name ∈ names, found.lookup name = (fields.lookup name).join :=
  ⟨_, record?_ofFields h, fun _ => lookup_present h⟩

theorem isMeaningful_ofFields (h : AreNames (fields.map Prod.fst))
    (hvalues : ∀ f ∈ fields, ∀ j ∈ f.2, j.isMeaningful) : (ofFields fields).isMeaningful := by
  rw [ofFields, isMeaningful]
  induction fields with
  | nil => rfl
  | cons f fields ih =>
    obtain ⟨name, j⟩ := f
    obtain ⟨-, hplain, hfields⟩ := AreNames.cons h
    obtain ⟨hj, hvalues⟩ := List.forall_mem_cons.mp hvalues
    have hrest := ih hfields hvalues
    cases j with
    | none => exact hrest
    | some j =>
      change fieldsMeaningful ((name.toList, j) :: _) = true
      rw [fieldsMeaningful, spelled?_of_plain hplain, hj j rfl, hrest]
      rfl

theorem isPlain_ofFields (h : AreNames (fields.map Prod.fst))
    (hvalues : ∀ f ∈ fields, ∀ j ∈ f.2, j.IsPlain) : (ofFields fields).IsPlain := by
  rw [ofFields, IsPlain]
  induction fields with
  | nil => exact trivial
  | cons f fields ih =>
    obtain ⟨name, j⟩ := f
    obtain ⟨-, hplain, hfields⟩ := AreNames.cons h
    obtain ⟨hj, hvalues⟩ := List.forall_mem_cons.mp hvalues
    have hrest := ih hfields hvalues
    cases j with
    | none => exact hrest
    | some j => exact ⟨hplain, hj j rfl, hrest⟩

end Fields

/-! ### States -/

/-- The fields of a state. -/
def stateFields (s : MembershipState) : List (String × Option Json) :=
  ("state", some (ofString s.name)) :: match s with
    | .uninitialized => []
    | .active v => [("version", some (ofWord v))]
    | .reconfigProposed v n => [("version", some (ofWord v)), ("next_version", some (ofWord n))]

theorem ofState_eq (s : MembershipState) : ofState s = ofFields (stateFields s) := rfl

theorem areNames_stateFields (s : MembershipState) : AreNames ((stateFields s).map Prod.fst) := by
  have hnames : AreNames ["state"] ∧ AreNames ["state", "version"] ∧
      AreNames ["state", "version", "next_version"] := by decide
  cases s with
  | uninitialized => exact hnames.1
  | active v => exact hnames.2.1
  | reconfigProposed v n => exact hnames.2.2

/-- The values of a state are its name and words. -/
theorem forall_stateFields {P : Json → Prop} (s : MembershipState) (hname : P (ofString s.name))
    (hword : ∀ n, P (ofWord n)) : ∀ f ∈ stateFields s, ∀ j ∈ f.2, P j := by
  cases s <;> simp [stateFields, hname, hword]

theorem isPlain_name (s : MembershipState) : ∀ c ∈ s.name.toList, IsPlainChar c := by
  have hnames : AreNames ["uninitialized", "active", "reconfig_proposed"] := by decide
  cases s <;> exact hnames.2 _ (by simp [MembershipState.name])

theorem text?_name (s : MembershipState) : (ofString s.name).text? = some s.name :=
  spelled?_of_plain (isPlain_name s)

theorem isPlain_ofState (s : MembershipState) : (ofState s).IsPlain :=
  isPlain_ofFields (areNames_stateFields s) (forall_stateFields s (isPlain_name s) isPlain_ofWord)

theorem isMeaningful_ofState (s : MembershipState) : (ofState s).isMeaningful :=
  isMeaningful_ofFields (areNames_stateFields s)
    (forall_stateFields s (congrArg Option.isSome (text?_name s)) isMeaningful_ofWord)

theorem depth_ofState (s : MembershipState) : (ofState s).depth = 1 := by
  cases s <;> rfl

theorem stateTag?_ofState (s : MembershipState) : stateTag? (ofState s) = some (s.name, ofState s) := by
  have hrecord := @record?_ofFields ["state"] _ (areNames_stateFields s)
  have htag : present ["state"] (stateFields s) = [("state", ofString s.name)] := by cases s <;> rfl
  rw [htag, ofFields, record?] at hrecord
  rw [ofState_eq, ofFields, stateTag?, hrecord]
  simp [text?_name]

theorem stateOf?_ofState (s : MembershipState) : stateOf? s.name (ofState s) = some s := by
  cases s with
  | uninitialized => rfl
  | active v =>
    obtain ⟨found, hrecord, hlookup⟩ :=
      exists_record?_ofFields (areNames_stateFields (.active v)) ["version"]
    have hversion : found.lookup "version" = some (ofWord v) := hlookup _ (by decide)
    simp [stateOf?, MembershipState.name, ofState_eq, hrecord, hversion, uint64?_ofWord]
  | reconfigProposed v n =>
    obtain ⟨found, hrecord, hlookup⟩ :=
      exists_record?_ofFields (areNames_stateFields (.reconfigProposed v n)) ["version", "next_version"]
    have hversion : found.lookup "version" = some (ofWord v) := hlookup _ (by decide)
    have hnext : found.lookup "next_version" = some (ofWord n) := hlookup _ (by decide)
    simp [stateOf?, MembershipState.name, ofState_eq, hrecord, hversion, hnext, uint64?_ofWord]

theorem state?_ofState (s : MembershipState) : state? (ofState s) = some s := by
  rw [state?, isMeaningful_ofState, depth_ofState, stateTag?_ofState]
  exact stateOf?_ofState s

/-! ### Snapshots -/

/-- The fields of a snapshot. -/
def snapshotFields (s : Snapshot) : List (String × Option Json) :=
  [("state", some (ofState s.state)), ("strategy", some (ofString s.strategy.name)),
    ("version", some (ofWord s.version)), ("voting", some (ofWords s.voting)),
    ("observers", some (ofWords s.observers)), ("groups", s.groups.map ofGroups),
    ("next_version", s.nextVersion.map ofWord)]

theorem areNames_snapshotFields (s : Snapshot) : AreNames ((snapshotFields s).map Prod.fst) :=
  (by decide : AreNames
    ["state", "strategy", "version", "voting", "observers", "groups", "next_version"])

theorem optional?_map {α : Type} {read? : Json → Option α} {write : α → Json}
    (hread : ∀ a, read? (write a) = some a) (hnull : ∀ a, write a ≠ .null) (a : Option α) :
    optional? read? (a.map write) = some a := by
  cases a with
  | none => rfl
  | some a =>
    rw [Option.map_some, optional?, hread]
    · rfl
    · exact hnull a

theorem snapshot?_ofSnapshot (s : Snapshot) : snapshot? (ofSnapshot s) = some s := by
  obtain ⟨found, hrecord, hlookup⟩ := exists_record?_ofFields (areNames_snapshotFields s)
    ["state", "strategy", "version", "voting", "observers", "groups", "next_version"]
  have hstate : found.lookup "state" = some (ofState s.state) := hlookup _ (by decide)
  have hstrategy : found.lookup "strategy" = some (ofString s.strategy.name) :=
    hlookup _ (by decide)
  have hversion : found.lookup "version" = some (ofWord s.version) := hlookup _ (by decide)
  have hvoting : found.lookup "voting" = some (ofWords s.voting) := hlookup _ (by decide)
  have hobservers : found.lookup "observers" = some (ofWords s.observers) := hlookup _ (by decide)
  have hgroups : found.lookup "groups" = s.groups.map ofGroups := hlookup _ (by decide)
  have hnext : found.lookup "next_version" = s.nextVersion.map ofWord := hlookup _ (by decide)
  change snapshot? (ofFields (snapshotFields s)) = some s
  rw [snapshot?, hrecord]
  simp [hstate, hstrategy, hversion, hvoting, hobservers, hgroups, hnext, state?_ofState,
    strategy?_ofString, uint64?_ofWord, words?_ofWords,
    optional?_map groups?_ofGroups (by simp [ofGroups]), optional?_map uint64?_ofWord (by simp [ofWord])]

theorem isPlain_ofSnapshot (s : Snapshot) : (ofSnapshot s).IsPlain := by
  have hstrategy : (ofString s.strategy.name).IsPlain := by
    have hnames : AreNames ["majority", "hierarchical"] := by decide
    cases s.strategy <;> exact hnames.2 _ (by simp [Strategy.name])
  have hvalues : ∀ f ∈ snapshotFields s, ∀ j ∈ f.2, j.IsPlain := by
    simp [snapshotFields, isPlain_ofState, hstrategy, isPlain_ofWord, isPlain_ofWords, isPlain_ofGroups]
  exact isPlain_ofFields (areNames_snapshotFields s) hvalues

end Json

/-- **The text of a snapshot** is JSON of its value, and reads back as the snapshot. -/
theorem Snapshot.ofText?_text (s : Snapshot) :
    Json.ofText? s.text = some (Json.ofSnapshot s) ∧ ofText? s.text = some s := by
  have htext : Json.ofText? s.text = some (Json.ofSnapshot s) :=
    Json.ofText?_pretty (Json.isPlain_ofSnapshot s)
  refine ⟨htext, ?_⟩
  rw [ofText?, htext]
  exact Json.snapshot?_ofSnapshot s

end Ensemble
