import Ensemble.Script.File

/-!
# Scripts on a disk

`Script.Leaves s d a d'` says that `s`, carried out on the disk `d`, gives `a` and leaves the disk
`d'`. An action succeeds exactly if its parts do, one on the disk that the other leaves
(`Action.leaves_ok_bind_iff`).
-/

namespace Ensemble

namespace Script

variable {α β : Type}

/-- Carried out on `d`, the script gives `a` and leaves `d'`. -/
def Leaves (s : Script α) (d : Disk) (a : α) (d' : Disk) : Prop :=
  (s.run d).value = a ∧ (s.run d).disk = d'

variable {d d' : Disk}

theorem leaves_of_value {s : Script α} {a : α} (h : (s.run d).value = a) :
    s.Leaves d a (s.run d).disk :=
  ⟨h, rfl⟩

theorem leaves_pure_iff {a b : α} : (pure a : Script α).Leaves d b d' ↔ b = a ∧ d' = d := by
  constructor
  · rintro ⟨rfl, rfl⟩
    exact ⟨rfl, rfl⟩
  · rintro ⟨rfl, rfl⟩
    exact ⟨rfl, rfl⟩

theorem leaves_bind_iff {s : Script α} {f : α → Script β} {b : β} :
    (s >>= f).Leaves d b d' ↔ ∃ a d₁, s.Leaves d a d₁ ∧ (f a).Leaves d₁ b d' := by
  unfold Leaves
  rw [run_bind]
  constructor
  · rintro ⟨hvalue, hdisk⟩
    exact ⟨_, _, ⟨rfl, rfl⟩, hvalue, hdisk⟩
  · rintro ⟨_, _, ⟨rfl, rfl⟩, hvalue, hdisk⟩
    exact ⟨hvalue, hdisk⟩

theorem leaves_map_iff {s : Script α} {f : α → β} {b : β} :
    (f <$> s).Leaves d b d' ↔ ∃ a, s.Leaves d a d' ∧ b = f a := by
  rw [map_eq_pure_bind, leaves_bind_iff]
  constructor
  · rintro ⟨a, d₁, hs, hb⟩
    obtain ⟨rfl, rfl⟩ := leaves_pure_iff.mp hb
    exact ⟨a, hs, rfl⟩
  · rintro ⟨a, hs, rfl⟩
    exact ⟨a, d', hs, leaves_pure_iff.mpr ⟨rfl, rfl⟩⟩

theorem leaves_perform_iff {op : FileOp} {a : op.Answer} :
    (perform op).Leaves d a d' ↔ d.perform op = (a, d') := by
  unfold Leaves
  rw [Prod.ext_iff]
  exact Iff.rfl

theorem leaves_notify_iff {ns : List Notice} {u : Unit} :
    (notify ns).Leaves d u d' ↔ d' = d := by
  have hrun : ((notify ns).run d).disk = d := by
    induction ns with
    | nil => rfl
    | cons n ns ih => exact ih
  constructor
  · rintro ⟨-, rfl⟩
    exact hrun
  · rintro rfl
    exact ⟨rfl, hrun⟩

/-- Whatever the script answers, it leaves the disk as it was. -/
def KeepsDisk (s : Script α) : Prop := ∀ d, (s.run d).disk = d

theorem KeepsDisk.eq {s : Script α} {a : α} (hs : s.KeepsDisk) (h : s.Leaves d a d') : d' = d := by
  rw [← h.2]
  exact hs d

theorem keepsDisk_pure (a : α) : (pure a : Script α).KeepsDisk := fun _ => rfl

theorem keepsDisk_bind {s : Script α} {f : α → Script β} (hs : s.KeepsDisk)
    (hf : ∀ a, (f a).KeepsDisk) : (s >>= f).KeepsDisk := by
  intro d
  rw [run_bind]
  exact (hf _ _).trans (hs d)

theorem keepsDisk_notify (ns : List Notice) : (notify ns).KeepsDisk := fun _ =>
  leaves_notify_iff.mp ⟨rfl, rfl⟩

end Script

/-! ## Actions -/

namespace Action

open Script

variable {α β ε : Type} {d d' : Disk}

theorem leaves_ok_pure_iff {a b : α} :
    (pure a : ExceptT ε Script α).run.Leaves d (.ok b) d' ↔ b = a ∧ d' = d := by
  rw [ExceptT.run_pure, leaves_pure_iff, Except.ok.injEq]

theorem leaves_ok_throw {e : ε} {a : α} :
    ¬ (throw e : ExceptT ε Script α).run.Leaves d (.ok a) d' := by
  rintro ⟨⟨⟩, -⟩

theorem leaves_ok_bind_iff {x : ExceptT ε Script α} {f : α → ExceptT ε Script β} {b : β} :
    (x >>= f).run.Leaves d (.ok b) d' ↔
      ∃ a d₁, x.run.Leaves d (.ok a) d₁ ∧ (f a).run.Leaves d₁ (.ok b) d' := by
  rw [ExceptT.run_bind, leaves_bind_iff]
  constructor
  · rintro ⟨r, d₁, hx, hf⟩
    cases r with
    | error e => cases (leaves_pure_iff.mp hf).1
    | ok a => exact ⟨a, d₁, hx, hf⟩
  · rintro ⟨a, d₁, hx, hf⟩
    exact ⟨.ok a, d₁, hx, hf⟩

theorem keepsDisk_bind {x : ExceptT ε Script α} {f : α → ExceptT ε Script β}
    (hx : x.run.KeepsDisk) (hf : ∀ a, (f a).run.KeepsDisk) : (x >>= f).run.KeepsDisk := by
  rw [ExceptT.run_bind]
  refine Script.keepsDisk_bind hx fun r => ?_
  cases r with
  | error e => exact keepsDisk_pure _
  | ok a => exact hf a

theorem keepsDisk_lift {s : Script α} (hs : s.KeepsDisk) :
    (ExceptT.lift s : ExceptT ε Script α).run.KeepsDisk :=
  Script.keepsDisk_bind hs fun _ => keepsDisk_pure _

theorem keepsDisk_onFile {p : Path} {x : FileAction α} (hx : x.run.KeepsDisk) :
    (onFile p x).run.KeepsDisk :=
  Script.keepsDisk_bind hx fun _ => keepsDisk_pure _

theorem keepsDisk_ofReported (x : Reported α) : (ofReported x).run.KeepsDisk :=
  Script.keepsDisk_bind (keepsDisk_notify _) fun _ => keepsDisk_pure _

theorem leaves_ok_lift_iff {s : Script α} {a : α} :
    (ExceptT.lift s : ExceptT ε Script α).run.Leaves d (.ok a) d' ↔ s.Leaves d a d' := by
  refine leaves_map_iff.trans ?_
  constructor
  · rintro ⟨b, hs, hb⟩
    rwa [Except.ok.inj hb]
  · intro hs
    exact ⟨a, hs, rfl⟩

theorem leaves_ok_ofExcept_iff {x : Except ConfigError α} {a : α} :
    (ofExcept x).run.Leaves d (.ok a) d' ↔ x = .ok a ∧ d' = d := by
  refine leaves_pure_iff.trans (and_congr_left fun _ => ?_)
  exact eq_comm

theorem leaves_ok_ofReported_iff {x : Reported α} {a : α} :
    (ofReported x).run.Leaves d (.ok a) d' ↔ x.outcome = .ok a ∧ d' = d := by
  change (notify x.notices >>= fun _ => pure x.outcome).Leaves d (.ok a) d' ↔ _
  rw [leaves_bind_iff]
  constructor
  · rintro ⟨u, d₁, hns, h⟩
    obtain rfl := leaves_notify_iff.mp hns
    obtain ⟨hx, rfl⟩ := leaves_pure_iff.mp h
    exact ⟨hx.symm, rfl⟩
  · rintro ⟨hx, rfl⟩
    exact ⟨(), d', leaves_notify_iff.mpr rfl, leaves_pure_iff.mpr ⟨hx.symm, rfl⟩⟩

theorem leaves_ok_onFile_iff {p : Path} {x : FileAction α} {a : α} :
    (onFile p x).run.Leaves d (.ok a) d' ↔ x.run.Leaves d (.ok a) d' := by
  change (x.run >>= fun r => pure (r.mapError (ConfigError.diskFailure p))).Leaves d (.ok a) d' ↔ _
  rw [leaves_bind_iff]
  constructor
  · rintro ⟨r, d₁, hx, h⟩
    obtain ⟨hr, rfl⟩ := leaves_pure_iff.mp h
    cases r with
    | error e => cases hr
    | ok b =>
      obtain rfl := Except.ok.inj hr
      exact hx
  · intro hx
    exact ⟨.ok a, d', hx, leaves_pure_iff.mpr ⟨rfl, rfl⟩⟩

/-! ### Values -/

/-- An action that reads comes to a check. -/
theorem value_bind {x : ExceptT ε Script α} {f : α → ExceptT ε Script β} (hx : x.run.KeepsDisk)
    (d : Disk) : ((x >>= f).run.run d).value =
      (x.run.run d).value >>= fun a => ((f a).run.run d).value := by
  rw [ExceptT.run_bind, run_bind]
  dsimp only
  rw [hx d]
  cases (x.run.run d).value with
  | error e => rfl
  | ok a => rfl

theorem value_bind_of_leaves {x : ExceptT ε Script α} {f : α → ExceptT ε Script β} {a : α}
    (hx : x.run.Leaves d (.ok a) d') :
    ((x >>= f).run.run d).value = ((f a).run.run d').value := by
  rw [ExceptT.run_bind, run_bind]
  dsimp only
  rw [hx.1, hx.2]

theorem value_ofReported (x : Reported α) (d : Disk) :
    ((ofReported x).run.run d).value = x.outcome := by
  change ((notify x.notices >>= fun _ => pure x.outcome).run d).value = _
  rw [run_bind]
  rfl

end Action

end Ensemble
