import Ensemble.Disk.Change
import Ensemble.Reported

/-!
# Scripts

What the library does to a disk, as data: a script asks for one file operation at a time and goes on
with the answer, and reports notices in between. `Script.run` carries a script out on a disk that
never fails by itself; other disks are other ways to answer. Main statements: the monad laws and
`Script.run_bind`.
-/

namespace Ensemble

/-- A file operation. -/
inductive FileOp
  | isPresent (p : Path)
  | isFile (p : Path)
  | read (p : Path)
  | canonical (p : Path)
  | makeDirectories (p : Path)
  | create (p : Path)
  | writeAt (h : Handle) (offset : Nat) (bytes : ByteArray)
  | rename (p q : Path)
  | remove (p : Path)

/-- What a file operation answers. -/
abbrev FileOp.Answer : FileOp → Type
  | .isPresent _ | .isFile _ => Bool
  | .read _ => Except FileError ByteArray
  | .canonical _ => Except FileError Path
  | .create _ => Except FileError Handle
  | .makeDirectories _ | .writeAt .. | .rename .. | .remove _ => Except FileError Unit

/-- A change that answers nothing, or the refusal and the same disk. -/
def Disk.attempt (d : Disk) : Except FileError Disk → Except FileError Unit × Disk
  | .ok d' => (.ok (), d')
  | .error e => (.error e, d)

/-- Carries out a file operation. -/
def Disk.perform (d : Disk) : (op : FileOp) → op.Answer × Disk
  | .isPresent p => (d.isPresent p, d)
  | .isFile p => (d.isFile p, d)
  | .read p => (d.read p, d)
  | .canonical p => (d.canonical p, d)
  | .makeDirectories p => d.makeDirectories p
  | .create p => match d.create p with
    | .ok (h, d') => (.ok h, d')
    | .error e => (.error e, d)
  | .writeAt h offset bytes => (.ok (), d.writeAt h offset bytes)
  | .rename p q => d.attempt (d.rename p q)
  | .remove p => d.attempt (d.remove p)

/-- File operations in turn, each chosen by the answers before it, with notices in between. -/
inductive Script (α : Type) : Type
  | done (a : α)
  | ask (op : FileOp) (next : op.Answer → Script α)
  | report (n : Notice) (next : Script α)

namespace Script

variable {α β γ : Type}

def bind : Script α → (α → Script β) → Script β
  | .done a, f => f a
  | .ask op next, f => .ask op fun r => (next r).bind f
  | .report n next, f => .report n (next.bind f)

instance : Monad Script where
  pure := .done
  bind := .bind

theorem bind_done (s : Script α) : s.bind .done = s := by
  induction s with
  | done a => rfl
  | ask op next ih => simp only [bind, ih]
  | report n next ih => simp only [bind, ih]

theorem bind_assoc (s : Script α) (f : α → Script β) (g : β → Script γ) :
    (s.bind f).bind g = s.bind fun a => (f a).bind g := by
  induction s with
  | done a => rfl
  | ask op next ih => simp only [bind, ih]
  | report n next ih => simp only [bind, ih]

instance : LawfulMonad Script := LawfulMonad.mk' Script
  (fun s => bind_done s) (fun _ _ => rfl) (fun s f g => bind_assoc s f g)

/-- One file operation. -/
def perform (op : FileOp) : Script op.Answer := .ask op .done

/-- Notices, in order. -/
def notify (ns : List Notice) : Script Unit := ns.foldr .report (.done ())

/-! ## Carrying out -/

/-- What carrying out a script leaves. -/
structure Outcome (α : Type) where
  value : α
  disk : Disk
  notices : List Notice

/-- Carries out a script on a disk. -/
def run : Script α → Disk → Outcome α
  | .done a, d => ⟨a, d, []⟩
  | .ask op next, d => (next (d.perform op).1).run (d.perform op).2
  | .report n next, d =>
    let o := next.run d
    { o with notices := n :: o.notices }

theorem run_bind (s : Script α) (f : α → Script β) (d : Disk) :
    (s >>= f).run d =
      let o := s.run d
      let o' := (f o.value).run o.disk
      { o' with notices := o.notices ++ o'.notices } := by
  change (s.bind f).run d = _
  induction s generalizing d with
  | done a => simp [bind, run]
  | ask op next ih => simp only [bind, run, ih]
  | report n next ih => simp only [bind, run, ih, List.cons_append]

end Script

/-! ## Actions -/

/-- A script that may refuse. -/
abbrev Action (α : Type) : Type := ExceptT ConfigError Script α

/-- A script on files that may fail. -/
abbrev FileAction (α : Type) : Type := ExceptT FileError Script α

namespace Action

variable {α : Type}

/-- A result with notices, as an action that touches no file. -/
def ofReported (r : Reported α) : Action α :=
  ExceptT.mk do
    Script.notify r.notices
    return r.outcome

def ofExcept (r : Except ConfigError α) : Action α := ExceptT.mk (pure r)

/-- A file action, the failure of which refuses the work on `p`. -/
def onFile (p : Path) (a : FileAction α) : Action α :=
  ExceptT.mk do return (← a.run).mapError (.diskFailure p)

end Action

end Ensemble
