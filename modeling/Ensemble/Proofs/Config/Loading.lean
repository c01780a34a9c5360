import Ensemble.Proofs.Config.Checks
import Ensemble.Proofs.Script.Files

/-!
# What loading reads

Loading a configuration succeeds exactly if each of its files can be read and each of its checks
passes, and it leaves the disk as it was: `Config.ofFile_leaves_iff`, `Config.adoptFile_leaves_iff`
and `Config.adopt_leaves_iff`.
-/

namespace Ensemble

open Script Disk Text

variable {d d' : Disk} {p : Path}

namespace Config

variable {base : Context} {props : Properties} {c c' : Config} {lenient : Bool}

/-! ### The id of the server -/

/-- The number on the first line of a text, blanks around it aside. -/
def firstNumber? (text : String) : Option UInt64 :=
  uint64? (String.ofList (trim ((lines text.toList).headD [])))

/-- The file that holds the id of the server. -/
def idFile (dataDir : Path) : Path := dataDir.join ⟨"myid"⟩

theorem readServerId_leaves_iff {dataDir : Path} {id : Option ServerId} :
    (readServerId dataDir).run.Leaves d (.ok id) d' ↔ d' = d ∧
      (d.isFile (idFile dataDir) = false ∧ id = none ∨
        ∃ l text n, IsShort (idFile dataDir) ∧ d.LeadsTo (idFile dataDir) l ∧
          d.text? l = some text ∧ firstNumber? text = some n ∧ id = some n) := by
  unfold readServerId
  rw [Action.leaves_ok_bind_iff]
  constructor
  · rintro ⟨b, d₁, hask, h⟩
    obtain ⟨hb, rfl⟩ := leaves_isFile_iff.mp (Action.leaves_ok_lift_iff.mp hask)
    cases b with
    | false =>
      obtain ⟨rfl, rfl⟩ := Action.leaves_ok_pure_iff.mp h
      exact ⟨rfl, Or.inl ⟨hb, rfl⟩⟩
    | true =>
      obtain ⟨text, d₁, hread, hline⟩ := Action.leaves_ok_bind_iff.mp h
      obtain ⟨rfl, hshort, l, hleads, htext⟩ :=
        readText_leaves_iff.mp (Action.leaves_ok_onFile_iff.mp hread)
      cases hn : firstNumber? text with
      | none =>
        unfold firstNumber? at hn
        simp only [hn] at hline
        exact absurd hline Action.leaves_ok_throw
      | some n =>
        have hnumber := hn
        unfold firstNumber? at hn
        simp only [hn] at hline
        obtain ⟨rfl, rfl⟩ := Action.leaves_ok_pure_iff.mp hline
        exact ⟨rfl, Or.inr ⟨l, text, n, hshort, hleads, htext, hnumber, rfl⟩⟩
  · rintro ⟨rfl, ⟨hfile, rfl⟩ | ⟨l, text, n, hshort, hleads, htext, hn, rfl⟩⟩
    · refine ⟨false, d', ?_, Action.leaves_ok_pure_iff.mpr ⟨rfl, rfl⟩⟩
      exact Action.leaves_ok_lift_iff.mpr (leaves_isFile_iff.mpr ⟨hfile, rfl⟩)
    · obtain ⟨content, hcontent, -⟩ := Option.bind_eq_some_iff.mp htext
      have hfile : d'.isFile (idFile dataDir) = true :=
        isFile_iff.mpr ⟨hshort, l, hleads, by rw [hcontent]; rfl⟩
      refine ⟨true, d', Action.leaves_ok_lift_iff.mpr (leaves_isFile_iff.mpr ⟨hfile, rfl⟩), ?_⟩
      refine Action.leaves_ok_bind_iff.mpr ⟨text, d', Action.leaves_ok_onFile_iff.mpr
        (readText_leaves_iff.mpr ⟨rfl, hshort, l, hleads, htext⟩), ?_⟩
      unfold firstNumber? at hn
      simp only [hn]
      exact Action.leaves_ok_pure_iff.mpr ⟨rfl, rfl⟩

theorem keepsDisk_readText (p : Path) : (readText p).run.KeepsDisk := by
  refine Action.keepsDisk_bind (fun _ => rfl) fun bytes => ?_
  cases String.fromUTF8? bytes <;> exact keepsDisk_pure _

theorem keepsDisk_readServerId (dataDir : Path) : (readServerId dataDir).run.KeepsDisk := by
  refine Action.keepsDisk_bind (Action.keepsDisk_lift fun _ => rfl) fun b => ?_
  cases b with
  | false => exact keepsDisk_pure _
  | true =>
    refine Action.keepsDisk_bind (Action.keepsDisk_onFile (keepsDisk_readText _)) fun text => ?_
    dsimp only
    split <;> exact keepsDisk_pure _

/-- The id of this server, as the data directory has it. -/
def ownId (c : Config) : Action (Option ServerId) :=
  match c.settings.dataDir with
  | some dir => readServerId dir
  | none => pure none

/-- The id is read as before where its file is as before. -/
theorem ownId_leaves_congr {id : Option ServerId} (hsame : SameTree d d')
    (hkept : ∀ dir l, c.settings.dataDir = some dir → d.LeadsTo (idFile dir) l →
      d'.file? l = d.file? l) :
    c.ownId.run.Leaves d' (.ok id) d' ↔ c.ownId.run.Leaves d (.ok id) d := by
  unfold ownId
  cases hdir : c.settings.dataDir with
  | none => simp only [Action.leaves_ok_pure_iff, and_true]
  | some dir =>
    have hfile : d'.isFile (idFile dir) = d.isFile (idFile dir) := by
      rw [Bool.eq_iff_iff, isFile_iff, isFile_iff]
      refine and_congr_right fun _ => exists_congr fun l => ?_
      rw [hsame.leadsTo_iff]
      exact and_congr_right fun hleads => by rw [hkept dir l hdir hleads]
    simp only [readServerId_leaves_iff, true_and, hfile, hsame.leadsTo_iff]
    refine or_congr_right (exists_congr fun l => exists_congr fun text => exists_congr fun n => ?_)
    refine and_congr_right fun _ => and_congr_right fun hleads => ?_
    rw [text?_congr (hkept dir l hdir hleads)]

theorem keepsDisk_ownId (c : Config) : c.ownId.run.KeepsDisk := by
  unfold ownId
  cases c.settings.dataDir with
  | none => exact keepsDisk_pure _
  | some dir => exact keepsDisk_readServerId dir

/-! ### A proposal -/

theorem keepsDisk_readPending (p : Path) : (readPending p).run.KeepsDisk := by
  refine Action.keepsDisk_bind (Action.keepsDisk_lift fun _ => rfl) fun b => ?_
  cases b with
  | false => exact keepsDisk_pure _
  | true =>
    refine Action.keepsDisk_bind (Action.keepsDisk_lift (keepsDisk_readText p)) fun r => ?_
    cases r with
    | ok text => exact Action.keepsDisk_bind (keepsDisk_pure _) fun _ => keepsDisk_pure _
    | error e =>
      exact Action.keepsDisk_bind (Action.keepsDisk_lift (keepsDisk_notify _)) fun _ =>
        keepsDisk_pure _

/-- No file, no proposal. -/
theorem readPending_of_not_isFile (h : d.isFile p = false) :
    (readPending p).run.Leaves d (.ok none) d := by
  unfold readPending
  refine Action.leaves_ok_bind_iff.mpr ⟨d.isPresent p, d,
    Action.leaves_ok_lift_iff.mpr (leaves_isPresent_iff.mpr ⟨rfl, rfl⟩), ?_⟩
  cases d.isPresent p with
  | false => exact Action.leaves_ok_pure_iff.mpr ⟨rfl, rfl⟩
  | true =>
    obtain ⟨r, hr⟩ : ∃ r, (readText p).run.Leaves d r d := ⟨_, rfl, keepsDisk_readText p d⟩
    refine Action.leaves_ok_bind_iff.mpr ⟨r, d, Action.leaves_ok_lift_iff.mpr hr, ?_⟩
    cases r with
    | ok text =>
      obtain ⟨-, hshort, l, hleads, htext⟩ := readText_leaves_iff.mp hr
      obtain ⟨content, hcontent, -⟩ := Option.bind_eq_some_iff.mp htext
      have hfile : d.isFile p = true := isFile_iff.mpr ⟨hshort, l, hleads, by rw [hcontent]; rfl⟩
      rw [h] at hfile
      cases hfile
    | error e =>
      exact Action.leaves_ok_bind_iff.mpr ⟨(), d,
        Action.leaves_ok_lift_iff.mpr (leaves_notify_iff.mpr rfl),
        Action.leaves_ok_pure_iff.mpr ⟨rfl, rfl⟩⟩

/-- A file of text proposes what it is read as, refusals included. -/
theorem value_readPending_of_text {l : Location} {text : String} (hshort : IsShort p)
    (hleads : d.LeadsTo p l) (htext : d.text? l = some text) :
    ((readPending p).run.run d).value = (Verifier.ofText text).map some := by
  have hpresent : (isPresent p).Leaves d true d :=
    leaves_isPresent_iff.mpr ⟨isPresent_of_text? hshort hleads htext, rfl⟩
  have hread : (readText p).run.Leaves d (.ok text) d :=
    readText_leaves_iff.mpr ⟨rfl, hshort, l, hleads, htext⟩
  unfold readPending
  refine (Action.value_bind_of_leaves (Action.leaves_ok_lift_iff.mpr hpresent)).trans ?_
  refine (Action.value_bind_of_leaves (Action.leaves_ok_lift_iff.mpr hread)).trans ?_
  change ((Action.ofExcept (Verifier.ofText text) >>= fun v => pure (some v)).run.run d).value = _
  cases Verifier.ofText text <;> rfl

theorem readPending_leaves_iff_of_text {l : Location} {text : String} {pending : Option Verifier}
    (hshort : IsShort p) (hleads : d.LeadsTo p l) (htext : d.text? l = some text) :
    (readPending p).run.Leaves d (.ok pending) d ↔
      ∃ v, Verifier.ofText text = .ok v ∧ pending = some v := by
  unfold Leaves
  rw [value_readPending_of_text hshort hleads htext, and_iff_left (keepsDisk_readPending p d),
    Except.map_eq_ok_iff]
  exact exists_congr fun v => and_congr_right fun _ => eq_comm

/-! ### The membership -/

theorem adopt_eq : c.adopt props lenient = (do
    let v ← Action.ofReported
      (readMembership props c.settings.electionAlg true lenient c.context)
    let serverId ← c.ownId
    Action.ofReported (settle { c with membership := some v, serverId })) := by
  unfold adopt ownId
  cases c.settings.dataDir <;> rfl

theorem adopt_leaves_iff : (c.adopt props lenient).run.Leaves d (.ok c') d' ↔ d' = d ∧
    ∃ v id, (readMembership props c.settings.electionAlg true lenient c.context).outcome = .ok v ∧
      c.ownId.run.Leaves d (.ok id) d ∧
      (settle { c with membership := some v, serverId := id }).outcome = .ok c' := by
  rw [adopt_eq, Action.leaves_ok_bind_iff]
  constructor
  · rintro ⟨v, d₁, hread, h⟩
    obtain ⟨hv, rfl⟩ := Action.leaves_ok_ofReported_iff.mp hread
    obtain ⟨id, d₂, hid, hsettle⟩ := Action.leaves_ok_bind_iff.mp h
    obtain ⟨hc', rfl⟩ := Action.leaves_ok_ofReported_iff.mp hsettle
    obtain rfl := c.keepsDisk_ownId.eq hid
    exact ⟨rfl, v, id, hv, hid, hc'⟩
  · rintro ⟨rfl, v, id, hv, hid, hc'⟩
    refine ⟨v, d', Action.leaves_ok_ofReported_iff.mpr ⟨hv, rfl⟩, ?_⟩
    exact Action.leaves_ok_bind_iff.mpr ⟨id, d', hid,
      Action.leaves_ok_ofReported_iff.mpr ⟨hc', rfl⟩⟩

theorem keepsDisk_adopt : (c.adopt props lenient).run.KeepsDisk := by
  rw [adopt_eq]
  refine Action.keepsDisk_bind (Action.keepsDisk_ofReported _) fun v => ?_
  exact Action.keepsDisk_bind c.keepsDisk_ownId fun _ => Action.keepsDisk_ofReported _

/-- What taking up a membership comes to, refusals included. -/
theorem value_adopt (d : Disk) : ((c.adopt props lenient).run.run d).value = (do
    let v ← (readMembership props c.settings.electionAlg true lenient c.context).outcome
    let id ← (c.ownId.run.run d).value
    (settle { c with membership := some v, serverId := id }).outcome) := by
  rw [adopt_eq, Action.value_bind (Action.keepsDisk_ofReported _), Action.value_ofReported]
  refine congrArg _ (funext fun v => ?_)
  rw [Action.value_bind c.keepsDisk_ownId]
  exact congrArg _ (funext fun id => Action.value_ofReported _ d)

/-- Once the membership and the id are read, taking them up is a matter of settling. -/
theorem adopt_leaves_iff_of_read {v : Verifier} {id : Option ServerId}
    (hv : (readMembership props c.settings.electionAlg true lenient c.context).outcome = .ok v)
    (hid : c.ownId.run.Leaves d (.ok id) d) : (c.adopt props lenient).run.Leaves d (.ok c') d ↔
      (settle { c with membership := some v, serverId := id }).outcome = .ok c' := by
  rw [adopt_leaves_iff]
  constructor
  · rintro ⟨-, w, id', hw, hid', hc'⟩
    obtain rfl := Except.ok.inj (hv.symm.trans hw)
    obtain rfl := Except.ok.inj (hid.1.symm.trans hid'.1)
    exact hc'
  · intro hc'
    exact ⟨rfl, v, id, hv, hid, hc'⟩

theorem adopt_leaves_congr (hid : ∀ id, c.ownId.run.Leaves d' (.ok id) d' ↔
    c.ownId.run.Leaves d (.ok id) d) : (c.adopt props lenient).run.Leaves d' (.ok c') d' ↔
      (c.adopt props lenient).run.Leaves d (.ok c') d := by
  simp only [adopt_leaves_iff, hid, true_and]

/-- The entries of a dynamic file, with the version that its name states. -/
def withVersionOf (file : Path) (props : Properties) : Properties :=
  match file.version? with
  | some v => props.insert MembershipKey.version (hex v.toNat)
  | none => props

theorem adoptFile_leaves_iff {file : Path} : (c.adoptFile file).run.Leaves d (.ok c') d' ↔
    d' = d ∧ ∃ l text props c₁ pending, IsShort file ∧ d.LeadsTo file l ∧ d.text? l = some text ∧
      Properties.ofText text = .ok props ∧ props.contains MembershipKey.version = false ∧
      (c.adopt (withVersionOf file props) false).run.Leaves d (.ok c₁) d ∧
      (readPending file.nextFile).run.Leaves d (.ok pending) d ∧ c' = { c₁ with pending } := by
  unfold adoptFile
  rw [Action.leaves_ok_bind_iff]
  constructor
  · rintro ⟨q, d₁, hverify, h⟩
    obtain ⟨-, rfl, rfl⟩ := PathCheck.strict_leaves_iff.mp hverify
    obtain ⟨props, d₁, hread, hrest⟩ := Action.leaves_ok_bind_iff.mp h
    obtain ⟨rfl, hshort, l, text, hleads, htext, hprops⟩ := Properties.ofFile_leaves_iff.mp hread
    cases hversion : props.contains MembershipKey.version with
    | true =>
      rw [hversion] at hrest
      obtain ⟨u, d₂, hthrow, -⟩ := Action.leaves_ok_bind_iff.mp hrest
      exact absurd hthrow Action.leaves_ok_throw
    | false =>
      rw [hversion] at hrest
      obtain ⟨c₁, d₂, hadopt, hnext⟩ := Action.leaves_ok_bind_iff.mp hrest
      have hd₂ := (adopt_leaves_iff.mp hadopt).1
      obtain ⟨pending, d₃, hpending, hdone⟩ := Action.leaves_ok_bind_iff.mp hnext
      have hd₃ := (keepsDisk_readPending _).eq hpending
      obtain ⟨rfl, hd'⟩ := Action.leaves_ok_pure_iff.mp hdone
      rw [hd₃, hd₂] at hd'
      rw [hd₃, hd₂] at hpending
      rw [hd₂] at hadopt
      exact ⟨hd', l, text, props, c₁, pending, hshort, hleads, htext, hprops, hversion, hadopt,
        hpending, rfl⟩
  · rintro ⟨rfl, l, text, props, c₁, pending, hshort, hleads, htext, hprops, hversion, hadopt,
      hpending, rfl⟩
    have hpresent := isPresent_of_text? hshort hleads htext
    refine ⟨file, d', PathCheck.strict_leaves_iff.mpr ⟨hpresent, rfl, rfl⟩, ?_⟩
    refine Action.leaves_ok_bind_iff.mpr ⟨props, d', Properties.ofFile_leaves_iff.mpr
      ⟨rfl, hshort, l, text, hleads, htext, hprops⟩, ?_⟩
    rw [hversion]
    refine Action.leaves_ok_bind_iff.mpr ⟨c₁, d', hadopt, ?_⟩
    exact Action.leaves_ok_bind_iff.mpr ⟨pending, d', hpending,
      Action.leaves_ok_pure_iff.mpr ⟨rfl, rfl⟩⟩

theorem adoptFile_leaves_iff_of_text {file : Path} {l : Location} {text : String}
    {pending : Option Verifier} (hshort : IsShort file) (hleads : d.LeadsTo file l)
    (htext : d.text? l = some text) (hprops : Properties.ofText text = .ok props)
    (hversion : props.contains MembershipKey.version = false)
    (hpending : (readPending file.nextFile).run.Leaves d (.ok pending) d) :
    (c.adoptFile file).run.Leaves d (.ok c') d ↔ ∃ c₁,
      (c.adopt (withVersionOf file props) false).run.Leaves d (.ok c₁) d ∧
        c' = { c₁ with pending } := by
  rw [adoptFile_leaves_iff]
  constructor
  · rintro ⟨-, m, text', props', c₁, pending', -, hm, htext', hprops', -, hadopt, hpending', rfl⟩
    obtain rfl := hleads.unique hm
    obtain rfl := Option.some.inj (htext.symm.trans htext')
    obtain rfl := Except.ok.inj (hprops.symm.trans hprops')
    obtain rfl := Except.ok.inj (hpending.1.symm.trans hpending'.1)
    exact ⟨c₁, hadopt, rfl⟩
  · rintro ⟨c₁, hadopt, rfl⟩
    exact ⟨rfl, l, text, props, c₁, pending, hshort, hleads, htext, hprops, hversion, hadopt,
      hpending, rfl⟩

/-! ### The static file -/

/-- Takes up the membership that static settings name or state. -/
def takeUp (c : Config) (props : Properties) : Action Config :=
  match c.dynamicFile with
  | some file => c.adoptFile file
  | none => c.adopt props true

theorem takeUp_of_none (h : c.dynamicFile = none) : c.takeUp props = c.adopt props true := by
  rw [takeUp, h]

theorem takeUp_of_dynamicFile {file : Path} (h : c.dynamicFile = some file) :
    c.takeUp props = c.adoptFile file := by
  rw [takeUp, h]

theorem load_eq (configFile : Option Path) : load base configFile props = (do
    let c ← Action.ofReported (ofStatic base configFile props)
    c.takeUp props) := rfl

/-- What loading comes to, refusals included. -/
theorem value_load (configFile : Option Path) (d : Disk) :
    ((load base configFile props).run.run d).value = (do
      let c ← (ofStatic base configFile props).outcome
      ((c.takeUp props).run.run d).value) := by
  rw [load_eq, Action.value_bind (Action.keepsDisk_ofReported _), Action.value_ofReported]

theorem eq_of_takeUp_leaves (h : (c.takeUp props).run.Leaves d (.ok c') d') : d' = d := by
  unfold takeUp at h
  cases hfile : c.dynamicFile with
  | none =>
    rw [hfile] at h
    exact (adopt_leaves_iff.mp h).1
  | some file =>
    rw [hfile] at h
    exact (adoptFile_leaves_iff.mp h).1

theorem ofFile_leaves_iff : (ofFile base p).run.Leaves d (.ok c) d' ↔ d' = d ∧
    ∃ l text props c₀, IsShort p ∧ d.LeadsTo p l ∧ d.text? l = some text ∧
      Properties.ofText text = .ok props ∧ (ofStatic base (some p) props).outcome = .ok c₀ ∧
      (c₀.takeUp props).run.Leaves d (.ok c) d := by
  unfold ofFile
  rw [Action.leaves_ok_bind_iff]
  constructor
  · rintro ⟨q, d₁, hverify, h⟩
    obtain ⟨-, rfl, rfl⟩ := PathCheck.strict_leaves_iff.mp hverify
    obtain ⟨props, d₁, hread, hload⟩ := Action.leaves_ok_bind_iff.mp h
    obtain ⟨rfl, hshort, l, text, hleads, htext, hprops⟩ := Properties.ofFile_leaves_iff.mp hread
    rw [load_eq, Action.leaves_ok_bind_iff] at hload
    obtain ⟨c₀, d₂, hask, htake⟩ := hload
    obtain ⟨hstatic, rfl⟩ := Action.leaves_ok_ofReported_iff.mp hask
    obtain rfl := eq_of_takeUp_leaves htake
    exact ⟨rfl, l, text, props, c₀, hshort, hleads, htext, hprops, hstatic, htake⟩
  · rintro ⟨rfl, l, text, props, c₀, hshort, hleads, htext, hprops, hstatic, htake⟩
    have hpresent := isPresent_of_text? hshort hleads htext
    refine ⟨p, d', PathCheck.strict_leaves_iff.mpr ⟨hpresent, rfl, rfl⟩, ?_⟩
    refine Action.leaves_ok_bind_iff.mpr ⟨props, d', Properties.ofFile_leaves_iff.mpr
      ⟨rfl, hshort, l, text, hleads, htext, hprops⟩, ?_⟩
    rw [load_eq, Action.leaves_ok_bind_iff]
    exact ⟨c₀, d', Action.leaves_ok_ofReported_iff.mpr ⟨hstatic, rfl⟩, htake⟩

theorem ofFile_value_iff : ((ofFile base p).run.run d).value = .ok c ↔
    (ofFile base p).run.Leaves d (.ok c) d := by
  constructor
  · intro h
    have hleaves := leaves_of_value h
    rwa [(ofFile_leaves_iff.mp hleaves).1] at hleaves
  · intro h
    exact h.1

theorem ofFile_leaves_iff_of_text {l : Location} {text : String} {c₀ : Config} (hshort : IsShort p)
    (hleads : d.LeadsTo p l) (htext : d.text? l = some text)
    (hprops : Properties.ofText text = .ok props)
    (hstatic : (ofStatic base (some p) props).outcome = .ok c₀) :
    (ofFile base p).run.Leaves d (.ok c) d ↔ (c₀.takeUp props).run.Leaves d (.ok c) d := by
  rw [ofFile_leaves_iff]
  constructor
  · rintro ⟨-, m, text', props', c₀', -, hm, htext', hprops', hstatic', htake⟩
    obtain rfl := hleads.unique hm
    obtain rfl := Option.some.inj (htext.symm.trans htext')
    obtain rfl := Except.ok.inj (hprops.symm.trans hprops')
    obtain rfl := Except.ok.inj (hstatic.symm.trans hstatic')
    exact htake
  · intro htake
    exact ⟨rfl, l, text, props, c₀, hshort, hleads, htext, hprops, hstatic, htake⟩

end Config

end Ensemble
