import Ensemble.Proofs.Config.Relocation

/-!
# Entries that mean nothing

An entry with an unknown key (`IsUnknown`), which is no setting and no part of a membership, passes
through. So the settings of properties are those of the known entries, with the unknown ones beside
them (`Settings.ofProperties_eq`), no check looks at what passes through
(`Config.ofSettings_withPassthrough`), nor does a membership (`Config.takeUp_withPassthrough`), and
loading more unknown entries comes to the same configuration or to the same refusal
(`Config.ofProperties_withAll`).
-/

namespace Ensemble

open Script

/-! ### Images of results

What is changed of a configuration is changed step by step: each step gives the image of what it
gives without the change. -/

section Image

variable {m : Type → Type} [Monad m] [LawfulMonad m] {α α' β β' : Type}

theorem bind_eq_map {x : m α} {x' : m α'} {f : α → m β} {f' : α' → m β'} {k : α → α'} {g : β → β'}
    (hx : x' = k <$> x) (h : ∀ a, f' (k a) = g <$> f a) : x' >>= f' = g <$> (x >>= f) := by
  rw [hx, map_bind, bind_map_left]
  exact congrArg _ (funext h)

theorem bind_eq_map_self {x : m α} {f : α → m β} {f' : α → m β'} {g : β → β'}
    (h : ∀ a, f' a = g <$> f a) : x >>= f' = g <$> (x >>= f) := by
  rw [map_bind]
  exact congrArg _ (funext h)

end Image

theorem Reported.map_lift {α β : Type} {x : Except ConfigError α} {f : α → β} :
    (liftM (x.map f) : Reported β) = f <$> (liftM x : Reported α) := by
  cases x <;> rfl

theorem Action.ofReported_map {α β : Type} {x : Reported α} {f : α → β} :
    Action.ofReported (f <$> x) = f <$> Action.ofReported x := by
  have hmap : f <$> x = ⟨x.notices, x.outcome.map f⟩ := by
    obtain ⟨ns, r⟩ := x
    cases r with
    | error e => rfl
    | ok a => simp [Functor.map, Except.map]
  apply ExceptT.ext
  rw [hmap, ExceptT.run_map]
  change _ = Except.map f <$> (Script.notify x.notices >>= fun _ => pure x.outcome)
  rw [map_bind]
  rfl

theorem Action.value_map {α β : Type} (f : α → β) (x : Action α) (d : Disk) :
    ((f <$> x).run.run d).value = (x.run.run d).value.map f := by
  rw [ExceptT.run_map, map_eq_pure_bind, Script.run_bind]
  rfl

/-! ### Tables together -/

section More

variable {κ α : Type} [Ord κ] [Std.TransOrd κ] [Std.LawfulEqOrd κ]

/-- The entries of two tables. Where both have a key, the second one counts. -/
def Table.withAll (s t : Table κ α) : Table κ α := .ofList (s.toList ++ t.toList)

theorem Table.get?_withAll [DecidableEq κ] (s t : Table κ α) (k : κ) :
    (s.withAll t).get? k = (t.get? k).or (s.get? k) := by
  rw [withAll, get?_ofList_append, ofList_eq_of_perm (.refl _), ofList_eq_of_perm (.refl _)]

/-- What is kept by the keys is kept of each table. -/
theorem Table.filter_withAll [DecidableEq κ] (s t : Table κ α) (p : κ → Bool) :
    (s.withAll t).filter (fun k _ => p k) =
      (s.filter fun k _ => p k).withAll (t.filter fun k _ => p k) := by
  have hfilter : ∀ (u : Table κ α) k, (u.filter fun k _ => p k).get? k =
      if p k then u.get? k else none := by
    intro u k
    refine Option.ext fun v => ?_
    rw [get?_filter_eq_some_iff]
    cases p k <;> simp
  refine ext_get? fun k => ?_
  rw [hfilter, get?_withAll, get?_withAll, hfilter, hfilter]
  cases p k <;> rfl

end More

/-! ### Unknown keys -/

/-- A key that is no setting and no part of a membership. -/
def IsUnknown (key : String) : Prop := (∀ setting : Setting, setting.key ≠ key) ∧ IsForeign key

theorem Setting.ofKey?_eq_none_iff {key : String} :
    ofKey? key = none ↔ ∀ setting : Setting, setting.key ≠ key := by
  constructor
  · rintro h setting rfl
    rw [ofKey?_key] at h
    cases h
  · intro h
    exact List.find?_eq_none.mpr fun setting _ => by simpa using h setting

instance : DecidablePred IsUnknown := fun key =>
  decidable_of_iff (Setting.ofKey? key = none ∧ IsForeign key)
    (and_congr_left' Setting.ofKey?_eq_none_iff)

namespace Properties

/-- The entries under unknown keys. -/
def unknown (props : Properties) : Properties := props.filter fun key _ => decide (IsUnknown key)

/-- The other entries. -/
def known (props : Properties) : Properties := props.filter fun key _ => !decide (IsUnknown key)

end Properties

namespace Settings

/-- The same settings with other entries that pass through. -/
def withPassthrough (s : Settings) (t : Properties) : Settings := { s with passthrough := t }

variable {s : Settings} {t : Properties} {key value : String} {b : Bool}

theorem set_withPassthrough (setting : Setting) : (s.withPassthrough t).set setting value =
    (withPassthrough · t) <$> s.set setting value := by
  cases setting <;> first | rfl | exact bind_eq_map_self fun _ => rfl

theorem enter_of_isUnknown (h : IsUnknown key) : s.enter b key value =
    pure (s.withPassthrough (s.passthrough.insert key value)) := by
  obtain ⟨hsetting, hdeclares, hversion⟩ := h
  unfold enter
  rw [Setting.ofKey?_eq_none_iff.mpr hsetting]
  simp only [hdeclares, hversion, Bool.false_eq_true, if_false]
  rfl

theorem enter_withPassthrough (h : ¬ IsUnknown key) : (s.withPassthrough t).enter b key value =
    (withPassthrough · t) <$> s.enter b key value := by
  unfold enter
  cases hsetting : Setting.ofKey? key with
  | some setting => exact set_withPassthrough setting
  | none =>
    simp only
    by_cases hdeclares : MembershipKey.declares key = true
    · simp only [hdeclares, if_true]
      cases b <;> rfl
    · by_cases hversion : key = MembershipKey.version
      · simp only [hversion, if_true]
        rfl
      · exact absurd ⟨Setting.ofKey?_eq_none_iff.mp hsetting, by simpa using hdeclares, hversion⟩ h

/-- **Entries in turn**: those under unknown keys pass through, and the others come to what they come
to alone. -/
theorem enterAll_withPassthrough (es : List (String × String)) :
    (s.withPassthrough t).enterAll b es =
      (withPassthrough · ((es.filter fun e => IsUnknown e.1).foldl
        (fun t e => t.insert e.1 e.2) t)) <$>
        s.enterAll b (es.filter fun e => !decide (IsUnknown e.1)) := by
  induction es generalizing s t with
  | nil => rfl
  | cons e es ih =>
    rw [enterAll_cons]
    by_cases h : IsUnknown e.1
    · rw [List.filter_cons_of_pos (by simpa using h), List.filter_cons_of_neg (by simpa using h),
        enter_of_isUnknown h, pure_bind, List.foldl_cons]
      exact @ih s (t.insert e.1 e.2)
    · rw [List.filter_cons_of_neg (by simpa using h), List.filter_cons_of_pos (by simpa using h),
        enterAll_cons]
      exact bind_eq_map (enter_withPassthrough h) fun s => ih

/-- **Settings** are those of the known entries, and the unknown ones pass through. -/
theorem ofProperties_eq (context : Context) (props : Properties) :
    ofProperties context props =
      (withPassthrough · props.unknown) <$> ofProperties context props.known := by
  have hcontains : props.known.contains Setting.dynamicConfigFile.key =
      props.contains Setting.dynamicConfigFile.key := by
    have hknown : ¬ IsUnknown Setting.dynamicConfigFile.key := by decide
    rw [Bool.eq_iff_iff, Table.contains_iff, Table.contains_iff]
    simp only [Table.mem_keys_iff, Properties.known, Table.get?_filter_eq_some_iff]
    simp [hknown]
  have hunknown : props.unknown.toList.foldl (fun t e => t.insert e.1 e.2) .empty = props.unknown :=
    Table.ofList_eq_of_perm (.refl _)
  have hall := @enterAll_withPassthrough { context } .empty
    (props.contains Setting.dynamicConfigFile.key) props.toList
  refine hall.trans ?_
  unfold ofProperties
  rw [hcontains]
  exact congrArg (fun t => (withPassthrough · t) <$> _) hunknown

end Settings

/-! ### Checks -/

namespace Config

open Settings

/-- The same configuration with other entries that pass through. -/
def withPassthrough (c : Config) (t : Properties) : Config :=
  { c with settings := c.settings.withPassthrough t }

variable {base : Context} {configFile : Option Path} {s : Settings} {c : Config} {t : Properties}

theorem raiseSnapRetainCount_withPassthrough : (s.withPassthrough t).raiseSnapRetainCount =
    (Settings.withPassthrough · t) <$> s.raiseSnapRetainCount := by
  unfold raiseSnapRetainCount
  by_cases h : s.snapRetainCount < snapRetainFloor
  · rw [if_pos h, if_pos (by exact h)]
    exact bind_eq_map_self fun _ => rfl
  · rw [if_neg h, if_neg (by exact h)]
    rfl

theorem placeLog_withPassthrough : (s.withPassthrough t).placeLog =
    (Settings.withPassthrough · t) <$> s.placeLog := by
  unfold placeLog Settings.withPassthrough
  cases s.dataDir <;> rfl

theorem ofSettings_withPassthrough : ofSettings base configFile (s.withPassthrough t) =
    (withPassthrough · t) <$> ofSettings base configFile s := by
  refine bind_eq_map_self fun _ => ?_
  refine bind_eq_map raiseSnapRetainCount_withPassthrough fun s => ?_
  refine bind_eq_map (k := (Settings.withPassthrough · t)) ?_ fun s => ?_
  · rw [placeLog_withPassthrough]
    exact Reported.map_lift
  refine bind_eq_map_self fun client => ?_
  refine bind_eq_map_self fun secureClient => ?_
  have hsame : (s.withPassthrough t).client = s.client ∧
      (s.withPassthrough t).secureClient = s.secureClient := ⟨rfl, rfl⟩
  rw [hsame.1, hsame.2]
  -- both addresses are compared, if both are there
  cases s.client.explicit? with
  | none => exact bind_eq_map_self fun _ => rfl
  | some a =>
    cases s.secureClient.explicit? with
    | none => exact bind_eq_map_self fun _ => rfl
    | some b =>
      refine bind_eq_map_self fun _ => ?_
      exact bind_eq_map_self fun _ => rfl

/-! ### Taking up a membership -/

theorem takeDeclaredClient_withPassthrough : (c.withPassthrough t).takeDeclaredClient =
    (withPassthrough · t) <$> c.takeDeclaredClient := by
  unfold takeDeclaredClient
  simp only
  have hsame : (c.withPassthrough t).serverId = c.serverId ∧
      (c.withPassthrough t).membership = c.membership ∧ (c.withPassthrough t).client = c.client :=
    ⟨rfl, rfl, rfl⟩
  rw [hsame.1, hsame.2.1, hsame.2.2]
  split
  · rfl
  · rename_i id declared hdeclared
    cases c.client with
    | none => rfl
    | some configured => cases hagrees : configured.agreesWith declared <;> simp [hagrees] <;> rfl

theorem takeListedRole_withPassthrough : (c.withPassthrough t).takeListedRole =
    (withPassthrough · t) <$> c.takeListedRole := by
  have hsame : (c.withPassthrough t).listedRole = c.listedRole ∧
      (c.withPassthrough t).settings.peerType = c.settings.peerType := ⟨rfl, rfl⟩
  unfold takeListedRole
  rw [hsame.1, hsame.2]
  split
  · exact bind_eq_map_self fun _ => rfl
  · rfl

theorem settle_withPassthrough : settle (c.withPassthrough t) =
    (withPassthrough · t) <$> settle c := by
  refine bind_eq_map (k := (withPassthrough · t)) ?_ fun c => ?_
  · rw [takeDeclaredClient_withPassthrough]
    exact Reported.map_lift
  refine bind_eq_map takeListedRole_withPassthrough fun c => ?_
  exact bind_eq_map_self fun _ => rfl

theorem adopt_withPassthrough {props : Properties} {lenient : Bool} :
    (c.withPassthrough t).adopt props lenient =
      (withPassthrough · t) <$> c.adopt props lenient := by
  rw [adopt_eq, adopt_eq]
  refine bind_eq_map_self fun v => ?_
  refine bind_eq_map_self fun id => ?_
  rw [← Action.ofReported_map, ← settle_withPassthrough]
  rfl

theorem adoptFile_withPassthrough {file : Path} :
    (c.withPassthrough t).adoptFile file = (withPassthrough · t) <$> c.adoptFile file := by
  unfold adoptFile
  refine bind_eq_map_self fun file => ?_
  refine bind_eq_map_self fun props => ?_
  cases props.contains MembershipKey.version with
  | true => rfl
  | false =>
    simp only [Bool.false_eq_true, if_false]
    refine bind_eq_map adopt_withPassthrough fun c => ?_
    exact bind_eq_map_self fun _ => rfl

theorem adopt_of_membership {props props' : Properties} (h : props.membership = props'.membership) :
    c.adopt props true = c.adopt props' true := by
  have hread : ∀ electionAlg warnings context, readMembership props electionAlg warnings true context =
      readMembership props' electionAlg warnings true context := by
    intro electionAlg warnings context
    unfold readMembership
    rw [← Verifier.ofProperties_membership props, h, Verifier.ofProperties_membership]
    rfl
  rw [adopt_eq, adopt_eq, hread]

theorem takeUp_withPassthrough {props props' : Properties}
    (h : props.membership = props'.membership) :
    (c.withPassthrough t).takeUp props = (withPassthrough · t) <$> c.takeUp props' := by
  cases hfile : c.dynamicFile with
  | none =>
    rw [takeUp_of_none (c := c.withPassthrough t) hfile, takeUp_of_none hfile, ← adopt_of_membership h]
    exact adopt_withPassthrough
  | some file =>
    rw [takeUp_of_dynamicFile (c := c.withPassthrough t) hfile, takeUp_of_dynamicFile hfile]
    exact adoptFile_withPassthrough

/-! ### Known and unknown entries -/

theorem membership_known (props : Properties) : props.known.membership = props.membership := by
  refine Table.eq_of_toList ?_
  change (props.toList.filter _).filter _ = props.toList.filter _
  rw [List.filter_filter]
  refine List.filter_congr fun e _ => ?_
  by_cases h : IsForeign e.1
  · simp [h]
  · simp [h, IsUnknown]

theorem ofStatic_eq_known (props : Properties) : ofStatic base configFile props =
    (withPassthrough · props.unknown) <$> ofStatic base configFile props.known := by
  rw [ofStatic_eq, ofStatic_eq]
  exact bind_eq_map (Settings.ofProperties_eq base props) fun s => ofSettings_withPassthrough

/-- **Loading** is decided by the known entries, and the unknown ones pass through. -/
theorem load_eq_known (props : Properties) : load base configFile props =
    (withPassthrough · props.unknown) <$> load base configFile props.known := by
  rw [load_eq, load_eq]
  refine bind_eq_map (k := (withPassthrough · props.unknown)) ?_ fun c =>
    takeUp_withPassthrough (membership_known props).symm
  rw [ofStatic_eq_known, Action.ofReported_map]

end Config

/-! ### More entries -/

/-- The same configuration with more entries that pass through. -/
def Config.passing (c : Config) (extra : Properties) : Config :=
  c.withPassthrough (c.settings.passthrough.withAll extra)

theorem Properties.withAll_of_isUnknown {props extra : Properties}
    (h : ∀ key ∈ extra.keys, IsUnknown key) : known (props.withAll extra) = props.known ∧
      unknown (props.withAll extra) = props.unknown.withAll extra := by
  have hentries : ∀ e ∈ extra.toList, IsUnknown e.1 := fun e he => h _ (Table.mem_keys_of_mem he)
  have hknown : extra.known = .empty := by
    refine Table.eq_of_toList (List.filter_eq_nil_iff.mpr fun e he => ?_)
    simp [hentries e he]
  have hunknown : extra.unknown = extra := by
    refine Table.eq_of_toList (List.filter_eq_self.mpr fun e he => ?_)
    simp [hentries e he]
  unfold known unknown at *
  rw [Table.filter_withAll, hknown, Table.filter_withAll, hunknown]
  refine ⟨?_, rfl⟩
  refine Table.ext_get? fun k => ?_
  rw [Table.get?_withAll, Table.get?_empty, Option.none_or]

namespace Config

variable {base : Context} {configFile : Option Path} {props extra : Properties}

theorem load_withAll (hextra : ∀ key ∈ extra.keys, IsUnknown key) :
    load base configFile (props.withAll extra) = (passing · extra) <$> load base configFile props := by
  obtain ⟨hknown, hunknown⟩ := @Properties.withAll_of_isUnknown props extra hextra
  rw [load_eq_known (props.withAll extra), load_eq_known props, hknown, hunknown, Functor.map_map]
  rfl

/-- **Unknown entries never interfere**: with more of them, loading is refused for the same reason,
and if it succeeds it comes to the same configuration on every disk, where they pass through with
their values. -/
theorem ofProperties_withAll (hextra : ∀ key ∈ extra.keys, IsUnknown key) :
    ofProperties base (props.withAll extra) = (passing · extra) <$> ofProperties base props ∧
    (∀ d, ((ofProperties base (props.withAll extra)).run.run d).value =
      ((ofProperties base props).run.run d).value.map (passing · extra)) ∧
    ∀ (c : Config) key, (c.passing extra).settings.passthrough.get? key =
      (extra.get? key).or (c.settings.passthrough.get? key) := by
  have hload : ofProperties base (props.withAll extra) =
      (passing · extra) <$> ofProperties base props := load_withAll hextra
  refine ⟨hload, fun d => ?_, fun c key => Table.get?_withAll _ _ _⟩
  rw [hload, Action.value_map]

/-- Settings that name a dynamic file. -/
def dynamicSettings : Properties :=
  .ofList [("dataDir", "/data"), ("dynamicConfigFile", "zoo.cfg.dynamic.b")]

def customEntry : Properties := .ofList [("custom", "a b")]

/-- An unknown entry beside a dynamic file. -/
theorem ofProperties_withAll_customEntry : (∀ key ∈ customEntry.keys, IsUnknown key) ∧
    ∃ c, ((ofProperties {} dynamicSettings).run.run relocatedDisk).value = .ok c ∧
      ((ofProperties {} (dynamicSettings.withAll customEntry)).run.run relocatedDisk).value =
        .ok (c.passing customEntry) ∧
      (c.passing customEntry).settings.passthrough.get? "custom" = some "a b" := by
  have hextra : ∀ key ∈ customEntry.keys, IsUnknown key := by decide
  obtain ⟨-, hvalue, hget⟩ := @ofProperties_withAll {} dynamicSettings customEntry hextra
  have hloads : ((ofProperties {} dynamicSettings).run.run relocatedDisk).value.toOption.isSome := by
    decide +kernel
  refine ⟨hextra, ?_⟩
  cases hc : ((ofProperties {} dynamicSettings).run.run relocatedDisk).value with
  | error e =>
    rw [hc] at hloads
    cases hloads
  | ok c =>
    refine ⟨c, rfl, ?_, ?_⟩
    · rw [hvalue, hc]
      rfl
    · rw [hget]
      rfl

end Config

end Ensemble
