import Ensemble.Proofs.Disk.Ways
import Ensemble.Proofs.Script.Leaves
import Ensemble.Proofs.Script.Yields

/-!
# Scripts on a disk that may fail

`Script.Reaches F s d o d'` says that `s`, begun on the disk `d`, may come to the disk `d'`: cut off
at any point (`o` is `none`), or at its end with a value. The operations in `F` may fail at any time,
and may leave some of their work half done (`Disk.Spoils`).

`Script.Guards F s d I Q` says that every disk `s` comes to satisfies `I`, and that `Q` holds at its
end. It is shown part by part: `Script.Guards.bind`, `Script.guards_perform`, and for actions
`Action.guards_bind`.
-/

namespace Ensemble

/-! ### Operations that fail -/

/-- What is answered where an operation fails. -/
def FileOp.refuse (e : FileError) : (op : FileOp) → op.Answer
  | .isPresent _ => false
  | .isFile _ => false
  | .read _ => .error e
  | .canonical _ => .error e
  | .makeDirectories _ => .error e
  | .create _ => .error e
  | .writeAt .. => .error e
  | .rename .. => .error e
  | .remove _ => .error e

namespace Disk

/-- What an operation that fails may leave. -/
inductive Spoils (d : Disk) : FileOp → Disk → Prop
  | nothing (op : FileOp) : Spoils d op d
  /-- Some of the directories that were to be made. -/
  | directories {p : Path} {d' : Disk} (h : MakesWay p.ancestors d d') :
      Spoils d (.makeDirectories p) d'
  /-- Other bytes in the file that was to be written. -/
  | bytes {h : Handle} {l : Location} {content : ByteArray} (hl : d.locate h = some (l, content))
      (offset : Nat) (bytes other : ByteArray) :
      Spoils d (.writeAt h offset bytes) (d.set l (.file h.file other))

/-- What an operation may answer and leave, where those in `F` may fail. -/
inductive Answers (F : FileOp → Prop) (d : Disk) : (op : FileOp) → op.Answer → Disk → Prop
  | carriedOut (op : FileOp) : Answers F d op (d.perform op).1 (d.perform op).2
  | failed {op : FileOp} {d' : Disk} (hF : F op) (e : FileError) (h : Spoils d op d') :
      Answers F d op (op.refuse e) d'

end Disk

namespace Script

variable {α β : Type} {F : FileOp → Prop} {d d' : Disk}

/-- What a script may come to, where the operations in `F` may fail. -/
inductive Reaches (F : FileOp → Prop) : Script α → Disk → Option α → Disk → Prop
  /-- It is cut off. -/
  | stopped (s : Script α) (d : Disk) : Reaches F s d none d
  | done (a : α) (d : Disk) : Reaches F (.done a) d (some a) d
  | ask {op : FileOp} {next : op.Answer → Script α} {r : op.Answer} {d d₁ d' : Disk} {o : Option α}
      (h : d.Answers F op r d₁) (hr : Reaches F (next r) d₁ o d') : Reaches F (.ask op next) d o d'
  | report {n : Notice} {next : Script α} {d d' : Disk} {o : Option α}
      (h : Reaches F next d o d') : Reaches F (.report n next) d o d'

/-- Every disk that the script comes to satisfies `I`, and at the end `Q` holds. -/
structure Guards (F : FileOp → Prop) (s : Script α) (d : Disk) (I : Disk → Prop)
    (Q : α → Disk → Prop) : Prop where
  onWay : ∀ {o d'}, s.Reaches F d o d' → I d'
  atEnd : ∀ {a d'}, s.Reaches F d (some a) d' → Q a d'

/-! ### Disks that a script comes to -/

theorem reaches_done_iff {a : α} {o : Option α} :
    (done a).Reaches F d o d' ↔ (o = none ∨ o = some a) ∧ d' = d := by
  constructor
  · intro h
    cases h with
    | stopped => exact ⟨Or.inl rfl, rfl⟩
    | done => exact ⟨Or.inr rfl, rfl⟩
  · rintro ⟨rfl | rfl, rfl⟩
    · exact .stopped _ _
    · exact .done _ _

theorem reaches_bind_iff {s : Script α} {f : α → Script β} {o : Option β} :
    (s >>= f).Reaches F d o d' ↔ (o = none ∧ s.Reaches F d none d') ∨
      ∃ a d₁, s.Reaches F d (some a) d₁ ∧ (f a).Reaches F d₁ o d' := by
  change (s.bind f).Reaches F d o d' ↔ _
  induction s generalizing d with
  | done a =>
    constructor
    · intro h
      exact Or.inr ⟨a, d, .done a d, h⟩
    · rintro (⟨rfl, h⟩ | ⟨a', d₁, h, hf⟩)
      · obtain ⟨-, rfl⟩ := reaches_done_iff.mp h
        exact .stopped _ _
      · cases h
        exact hf
  | ask op next ih =>
    constructor
    · intro h
      cases h with
      | stopped => exact Or.inl ⟨rfl, .stopped _ _⟩
      | ask h hr =>
        rcases (ih _).mp hr with ⟨ho, hs⟩ | ⟨a, d₁, hs, hf⟩
        · exact Or.inl ⟨ho, .ask h hs⟩
        · exact Or.inr ⟨a, d₁, .ask h hs, hf⟩
    · rintro (⟨rfl, h⟩ | ⟨a, d₁, h, hf⟩)
      · cases h with
        | stopped => exact .stopped _ _
        | ask h hr => exact .ask h ((ih _).mpr (Or.inl ⟨rfl, hr⟩))
      · cases h with
        | ask h hr => exact .ask h ((ih _).mpr (Or.inr ⟨a, d₁, hr, hf⟩))
  | report n next ih =>
    constructor
    · intro h
      cases h with
      | stopped => exact Or.inl ⟨rfl, .stopped _ _⟩
      | report h =>
        rcases ih.mp h with ⟨ho, hs⟩ | ⟨a, d₁, hs, hf⟩
        · exact Or.inl ⟨ho, .report hs⟩
        · exact Or.inr ⟨a, d₁, .report hs, hf⟩
    · rintro (⟨rfl, h⟩ | ⟨a, d₁, h, hf⟩)
      · cases h with
        | stopped => exact .stopped _ _
        | report h => exact .report (ih.mpr (Or.inl ⟨rfl, h⟩))
      · cases h with
        | report h => exact .report (ih.mpr (Or.inr ⟨a, d₁, h, hf⟩))

/-- A script on a disk on which nothing fails comes to its outcome. -/
theorem reaches_run (s : Script α) (d : Disk) :
    s.Reaches F d (some (s.run d).value) (s.run d).disk := by
  induction s generalizing d with
  | done a => exact .done a d
  | ask op next ih => exact .ask (.carriedOut op) (ih _ _)
  | report n next ih => exact .report (ih d)

theorem Leaves.reaches {s : Script α} {a : α} (h : s.Leaves d a d') : s.Reaches F d (some a) d' := by
  obtain ⟨rfl, rfl⟩ := h
  exact s.reaches_run d

/-- The disk after some operations, if none of them fails. -/
def diskAfter : Script α → Nat → Disk → Disk
  | .ask op next, n + 1, d => (next (d.perform op).1).diskAfter n (d.perform op).2
  | .report _ next, n + 1, d => next.diskAfter (n + 1) d
  | _, _, d => d

/-- A script may be cut off after any number of operations. -/
theorem reaches_diskAfter (s : Script α) (n : Nat) (d : Disk) :
    s.Reaches F d none (s.diskAfter n d) := by
  induction s generalizing n d with
  | done a => exact .stopped _ _
  | ask op next ih =>
    cases n with
    | zero => exact .stopped _ _
    | succ n => exact .ask (.carriedOut op) (ih _ n _)
  | report notice next ih =>
    cases n with
    | zero => exact .stopped _ _
    | succ n => exact .report (ih _ d)

/-! ### Disks that are guarded -/

variable {I : Disk → Prop} {Q R : α → Disk → Prop} {P : β → Disk → Prop}

theorem guards_pure {a : α} (hI : I d) (hQ : Q a d) : (pure a : Script α).Guards F d I Q := by
  constructor
  · intro o d' h
    obtain ⟨-, rfl⟩ := reaches_done_iff.mp h
    exact hI
  · intro b d' h
    obtain ⟨hb, rfl⟩ := reaches_done_iff.mp h
    obtain rfl : b = a := by simpa using hb
    exact hQ

theorem Guards.bind {s : Script α} {f : α → Script β} (hs : s.Guards F d I R)
    (hf : ∀ a d₁, R a d₁ → (f a).Guards F d₁ I P) : (s >>= f).Guards F d I P := by
  constructor
  · intro o d' h
    rcases reaches_bind_iff.mp h with ⟨-, h⟩ | ⟨a, d₁, h, h'⟩
    · exact hs.onWay h
    · exact (hf a d₁ (hs.atEnd h)).onWay h'
  · intro b d' h
    rcases reaches_bind_iff.mp h with ⟨hb, -⟩ | ⟨a, d₁, h, h'⟩
    · cases hb
    · exact (hf a d₁ (hs.atEnd h)).atEnd h'

theorem Guards.mono {s : Script α} {I' : Disk → Prop} (hs : s.Guards F d I R)
    (hI : ∀ d', I d' → I' d') (hQ : ∀ a d', R a d' → Q a d') : s.Guards F d I' Q :=
  ⟨fun h => hI _ (hs.onWay h), fun h => hQ _ _ (hs.atEnd h)⟩

theorem guards_perform {op : FileOp} {Q : op.Answer → Disk → Prop} (hI : I d)
    (h : ∀ r d', d.Answers F op r d' → I d' ∧ Q r d') : (perform op).Guards F d I Q := by
  constructor
  · intro o d' hr
    cases hr with
    | stopped => exact hI
    | ask hr hdone =>
      obtain ⟨-, rfl⟩ := reaches_done_iff.mp hdone
      exact (h _ _ hr).1
  · intro a d' hr
    cases hr with
    | ask hr hdone =>
      cases hdone
      exact (h _ _ hr).2

theorem guards_notify {ns : List Notice} {Q : Unit → Disk → Prop} (hI : I d) (hQ : Q () d) :
    (notify ns).Guards F d I Q := by
  induction ns with
  | nil => exact guards_pure hI hQ
  | cons n ns ih =>
    constructor
    · intro o d' h
      cases h with
      | stopped => exact hI
      | report h => exact ih.onWay h
    · intro u d' h
      cases h with
      | report h => exact ih.atEnd h

end Script

/-! ### Questions and removals -/

namespace Disk

variable {F : FileOp → Prop} {d d' : Disk} {op : FileOp} {p : Path}

theorem answers_iff {r : op.Answer} : d.Answers F op r d' ↔
    d.perform op = (r, d') ∨ F op ∧ ∃ e, r = op.refuse e ∧ d.Spoils op d' := by
  constructor
  · intro h
    cases h with
    | carriedOut => exact Or.inl rfl
    | failed hF e h => exact Or.inr ⟨hF, e, rfl, h⟩
  · rintro (h | ⟨hF, e, rfl, h⟩)
    · have hr : (d.perform op).1 = r ∧ (d.perform op).2 = d' := Prod.ext_iff.mp h
      rw [← hr.1, ← hr.2]
      exact .carriedOut op
    · exact .failed hF e h

theorem Answers.isPresent {b : Bool} (h : d.Answers F (.isPresent p) b d') :
    d' = d ∧ (b = true → d.isPresent p) := by
  rcases answers_iff.mp h with hdone | ⟨-, e, rfl, hspoils⟩
  · obtain ⟨rfl, rfl⟩ := Prod.mk.inj hdone
    exact ⟨rfl, id⟩
  · cases hspoils
    exact ⟨rfl, fun h => by cases h⟩

theorem Answers.read {r : Except FileError ByteArray} (h : d.Answers F (.read p) r d') :
    d' = d ∧ ∀ bytes, r = .ok bytes → d.read p = .ok bytes := by
  rcases answers_iff.mp h with hdone | ⟨-, e, rfl, hspoils⟩
  · obtain ⟨rfl, rfl⟩ := Prod.mk.inj hdone
    exact ⟨rfl, fun _ => id⟩
  · cases hspoils
    exact ⟨rfl, fun _ h => by cases h⟩

theorem Answers.canonical {r : Except FileError Path} (h : d.Answers F (.canonical p) r d') :
    d' = d ∧ ∀ q, r = .ok q → d.canonical p = .ok q := by
  rcases answers_iff.mp h with hdone | ⟨-, e, rfl, hspoils⟩
  · obtain ⟨rfl, rfl⟩ := Prod.mk.inj hdone
    exact ⟨rfl, fun _ => id⟩
  · cases hspoils
    exact ⟨rfl, fun _ h => by cases h⟩

/-- Where the question cannot fail, the answer is right. -/
theorem Answers.eq_isPresent {b : Bool} (h : d.Answers F (.isPresent p) b d')
    (hF : ¬ F (.isPresent p)) : b = d.isPresent p := by
  rcases answers_iff.mp h with hdone | ⟨hfails, -⟩
  · exact (Prod.mk.inj hdone).1.symm
  · exact absurd hfails hF

/-- The file that a path leads to is removed, or nothing is. -/
theorem Answers.remove {r : Except FileError Unit} (h : d.Answers F (.remove p) r d') :
    (∃ l, d.LeadsTo p l ∧ ChangedAt d d' l none) ∨
      d' = d ∧ (F (.remove p) ∨ ∀ l, d.LeadsTo p l → IsShort p → d.file? l = none) := by
  rcases answers_iff.mp h with hdone | ⟨hF, e, rfl, hspoils⟩
  · simp only [Disk.perform, Disk.attempt] at hdone
    rcases remove_cases d p with ⟨l, hl, -, -, d₁, hremove, hchanged⟩ | ⟨⟨e, he⟩, hnone⟩
    · rw [hremove] at hdone
      obtain ⟨-, rfl⟩ := Prod.mk.inj hdone
      exact .inl ⟨l, hl, hchanged⟩
    · rw [he] at hdone
      obtain ⟨-, rfl⟩ := Prod.mk.inj hdone
      exact .inr ⟨rfl, .inr hnone⟩
  · cases hspoils
    exact .inr ⟨rfl, .inl hF⟩

end Disk

/-! ## Actions -/

namespace Action

open Script

variable {α β ε : Type} {F : FileOp → Prop} {d : Disk} {I : Disk → Prop}
  {R : Except ε α → Disk → Prop} {Q : Except ε β → Disk → Prop}

theorem guards_bind {x : ExceptT ε Script α} {f : α → ExceptT ε Script β}
    (hx : x.run.Guards F d I R) (hok : ∀ a d', R (.ok a) d' → (f a).run.Guards F d' I Q)
    (herror : ∀ e d', R (.error e) d' → I d' ∧ Q (.error e) d') : (x >>= f).run.Guards F d I Q := by
  rw [ExceptT.run_bind]
  refine hx.bind fun r d' hr => ?_
  cases r with
  | error e => exact guards_pure (herror e d' hr).1 (herror e d' hr).2
  | ok a => exact hok a d' hr

/-- A script that cannot refuse goes on with its value. -/
theorem guards_lift_bind {γ : Type} {s : Script γ} {f : γ → ExceptT ε Script β}
    {P : γ → Disk → Prop} (hs : s.Guards F d I P)
    (hf : ∀ a d', P a d' → (f a).run.Guards F d' I Q) :
    ((ExceptT.lift s : ExceptT ε Script γ) >>= f).run.Guards F d I Q := by
  have hlift : (ExceptT.lift s >>= f).run = s >>= fun a => (f a).run := by
    rw [ExceptT.run_bind_lift]
  rw [hlift]
  exact hs.bind hf

theorem guards_ofExcept {x : Except ConfigError β} {Q : Except ConfigError β → Disk → Prop}
    (hI : I d) (hQ : Q x d) : (ofExcept x).run.Guards F d I Q :=
  guards_pure hI hQ

theorem guards_ofReported {x : Reported β} {Q : Except ConfigError β → Disk → Prop}
    (hI : I d) (hQ : Q x.outcome d) : (ofReported x).run.Guards F d I Q := by
  change (notify x.notices >>= fun _ => pure x.outcome).Guards F d I Q
  exact (guards_notify (Q := fun _ d' => d' = d) hI rfl).bind fun u d' hd' =>
    guards_pure (by rwa [hd']) (by rwa [hd'])

theorem guards_onFile {p : Path} {x : FileAction β} {P : Except FileError β → Disk → Prop}
    {Q : Except ConfigError β → Disk → Prop} (hx : x.run.Guards F d I P)
    (h : ∀ r d', P r d' → I d' ∧ Q (r.mapError (.diskFailure p)) d') :
    (onFile p x).run.Guards F d I Q := by
  change (x.run >>= fun r => pure (r.mapError (ConfigError.diskFailure p))).Guards F d I Q
  exact hx.bind fun r d' hr => guards_pure (h r d' hr).1 (h r d' hr).2

end Action

end Ensemble
