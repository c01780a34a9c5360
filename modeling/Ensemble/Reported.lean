import Ensemble.Notice

/-!
# Results with notices

A computation that may refuse and gives notices on the way. Those given before a refusal stay given.
Main statements: `outcome_bind` and the monad laws.
-/

namespace Ensemble

structure Reported (α : Type) where
  notices : List Notice
  outcome : Except ConfigError α

namespace Reported

instance : Monad Reported where
  pure a := ⟨[], .ok a⟩
  bind x f := match x.outcome with
    | .ok a => ⟨x.notices ++ (f a).notices, (f a).outcome⟩
    | .error e => ⟨x.notices, .error e⟩

instance : MonadLift (Except ConfigError) Reported := ⟨fun x => ⟨[], x⟩⟩

/-- Gives notices. -/
def notify (ns : List Notice) : Reported Unit := ⟨ns, .ok ()⟩

def refuse {α : Type} (e : ConfigError) : Reported α := ⟨[], .error e⟩

theorem outcome_bind {α β : Type} (x : Reported α) (f : α → Reported β) :
    (x >>= f).outcome = x.outcome >>= fun a => (f a).outcome := by
  obtain ⟨ns, r⟩ := x
  cases r <;> rfl

instance : LawfulMonad Reported := LawfulMonad.mk' Reported
  (fun x => by obtain ⟨ns, r⟩ := x; cases r <;> simp [Functor.map])
  (fun a f => by simp [bind, pure])
  (fun x f g => by
    obtain ⟨ns, r⟩ := x
    cases r with
    | error e => rfl
    | ok a => cases h : (f a).outcome <;> simp [bind, h])

end Reported

end Ensemble
