import Ensemble.Script.File

/-!
# Scripts on any file system

`Script.Yields s a` says that `s` ends in `a` when its file operations answer in some way, whatever
the files are and whichever operations fail. What holds of every yield holds on every file system;
`Script.yields_run` says so of disks that never fail by themselves. Main statements:
`Script.yields_bind_iff` and, for actions, `Action.yields_ok_bind_iff` and
`Action.yields_error_bind_iff`. `Action.RefusesOnly` bounds the errors an action may end in.
-/

namespace Ensemble

namespace Script

variable {α β : Type}

/-- The script may end in a value: it does when the operations answer in some way. -/
inductive Yields : Script α → α → Prop
  | done (a : α) : Yields (.done a) a
  | ask {op : FileOp} {next : op.Answer → Script α} {a : α} (r : op.Answer)
      (h : Yields (next r) a) : Yields (.ask op next) a
  | report {n : Notice} {next : Script α} {a : α} (h : Yields next a) : Yields (.report n next) a

theorem yields_pure_iff {a b : α} : (pure a : Script α).Yields b ↔ b = a := by
  constructor
  · rintro ⟨⟩; rfl
  · rintro rfl; exact .done b

theorem yields_bind_iff {s : Script α} {f : α → Script β} {b : β} :
    (s >>= f).Yields b ↔ ∃ a, s.Yields a ∧ (f a).Yields b := by
  change (s.bind f).Yields b ↔ _
  induction s with
  | done a =>
    constructor
    · intro h; exact ⟨a, .done a, h⟩
    · rintro ⟨_, ⟨⟩, h⟩; exact h
  | ask op next ih =>
    constructor
    · rintro ⟨⟩
      rename_i r h
      obtain ⟨a, ha, hb⟩ := (ih r).mp h
      exact ⟨a, .ask r ha, hb⟩
    · rintro ⟨a, ⟨⟩, hb⟩
      rename_i r ha
      exact .ask r ((ih r).mpr ⟨a, ha, hb⟩)
  | report n next ih =>
    constructor
    · rintro ⟨⟩
      rename_i h
      obtain ⟨a, ha, hb⟩ := ih.mp h
      exact ⟨a, .report ha, hb⟩
    · rintro ⟨a, ⟨⟩, hb⟩
      rename_i ha
      exact .report (ih.mpr ⟨a, ha, hb⟩)

theorem yields_map_iff {s : Script α} {f : α → β} {b : β} :
    (f <$> s).Yields b ↔ ∃ a, s.Yields a ∧ b = f a := by
  rw [map_eq_pure_bind, yields_bind_iff]
  simp only [yields_pure_iff]

/-- What a disk answers is one way to answer. -/
theorem yields_run (s : Script α) (d : Disk) : s.Yields (s.run d).value := by
  induction s generalizing d with
  | done a => exact .done a
  | ask op next ih => exact .ask (d.perform op).1 (ih _ _)
  | report n next ih => exact .report (ih d)

theorem yields_of_run {s : Script α} {a : α} (d : Disk) (h : (s.run d).value = a) : s.Yields a :=
  h ▸ s.yields_run d

theorem exists_yields (s : Script α) : ∃ a, s.Yields a :=
  ⟨_, s.yields_run ⟨.empty, [], 0⟩⟩

end Script

/-! ## Actions -/

namespace Action

variable {α β ε : Type}

theorem yields_bind_iff {x : ExceptT ε Script α} {f : α → ExceptT ε Script β} {r : Except ε β} :
    (x >>= f).run.Yields r ↔
      (∃ a, x.run.Yields (.ok a) ∧ (f a).run.Yields r) ∨ ∃ e, x.run.Yields (.error e) ∧ r = .error e := by
  rw [ExceptT.run_bind, Script.yields_bind_iff]
  constructor
  · rintro ⟨_ | a, hx, hf⟩
    · exact Or.inr ⟨_, hx, Script.yields_pure_iff.mp hf⟩
    · exact Or.inl ⟨a, hx, hf⟩
  · rintro (⟨a, hx, hf⟩ | ⟨e, hx, rfl⟩)
    · exact ⟨.ok a, hx, hf⟩
    · exact ⟨.error e, hx, .done _⟩

theorem yields_ok_bind_iff {x : ExceptT ε Script α} {f : α → ExceptT ε Script β} {b : β} :
    (x >>= f).run.Yields (.ok b) ↔ ∃ a, x.run.Yields (.ok a) ∧ (f a).run.Yields (.ok b) := by
  rw [yields_bind_iff]
  simp

theorem yields_error_bind_iff {x : ExceptT ε Script α} {f : α → ExceptT ε Script β} {e : ε} :
    (x >>= f).run.Yields (.error e) ↔
      (∃ a, x.run.Yields (.ok a) ∧ (f a).run.Yields (.error e)) ∨ x.run.Yields (.error e) := by
  rw [yields_bind_iff]
  simp

theorem yields_lift_iff {s : Script α} {r : Except ε α} :
    (ExceptT.lift s : ExceptT ε Script α).run.Yields r ↔ ∃ a, s.Yields a ∧ r = .ok a :=
  Script.yields_map_iff

theorem yields_ofExcept_iff {x r : Except ConfigError α} :
    (ofExcept x).run.Yields r ↔ r = x := Script.yields_pure_iff

theorem yields_ofReported_iff {x : Reported α} {r : Except ConfigError α} :
    (ofReported x).run.Yields r ↔ r = x.outcome := by
  change (Script.notify x.notices >>= fun _ => pure x.outcome).Yields r ↔ _
  simp only [Script.yields_bind_iff, Script.yields_pure_iff]
  constructor
  · rintro ⟨-, -, h⟩; exact h
  · intro h
    obtain ⟨u, hu⟩ := (Script.notify x.notices).exists_yields
    exact ⟨u, hu, h⟩

/-! ### Refusals -/

/-- Every error that the action may end in satisfies `P`. -/
def RefusesOnly (P : ε → Prop) (x : ExceptT ε Script α) : Prop :=
  ∀ e, x.run.Yields (.error e) → P e

variable {P : ε → Prop}

theorem refusesOnly_pure (a : α) : RefusesOnly P (pure a : ExceptT ε Script α) := by
  intro e h
  cases Script.yields_pure_iff.mp h

theorem refusesOnly_throw {e : ε} (h : P e) : RefusesOnly P (throw e : ExceptT ε Script α) := by
  intro e' h'
  cases Script.yields_pure_iff.mp h'
  exact h

theorem refusesOnly_lift (s : Script α) : RefusesOnly P (ExceptT.lift s : ExceptT ε Script α) := by
  intro e h
  obtain ⟨a, -, ha⟩ := yields_lift_iff.mp h
  cases ha

theorem refusesOnly_bind {x : ExceptT ε Script α} {f : α → ExceptT ε Script β}
    (hx : RefusesOnly P x) (hf : ∀ a, RefusesOnly P (f a)) : RefusesOnly P (x >>= f) := by
  intro e h
  rcases yields_error_bind_iff.mp h with ⟨a, -, hfa⟩ | hxe
  · exact hf a e hfa
  · exact hx e hxe

theorem refusesOnly_ofExcept {P : ConfigError → Prop} {x : Except ConfigError α}
    (h : ∀ e, x = .error e → P e) : RefusesOnly P (ofExcept x) := by
  intro e he
  exact h e (yields_ofExcept_iff.mp he).symm

/-- Work on a file is refused for the file. -/
theorem refusesOnly_onFile {P : ConfigError → Prop} {p : Path} (a : FileAction α)
    (h : ∀ e, P (.diskFailure p e)) : RefusesOnly P (onFile p a) := by
  intro e he
  obtain ⟨r, -, hr⟩ := Script.yields_bind_iff.mp he
  cases r with
  | error fe =>
    obtain rfl := Except.error.inj (Script.yields_pure_iff.mp hr)
    exact h fe
  | ok a => cases Script.yields_pure_iff.mp hr

end Action

end Ensemble
