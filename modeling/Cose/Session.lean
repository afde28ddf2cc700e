import Cose.Error
import Cose.Provider

namespace Cose

/-- The calls that a computation made, and what came of it. -/
structure Session (α : Type) where
  calls : List Call
  outcome : Except Error α

namespace Session

variable {α β : Type}

@[ext] theorem ext {s t : Session α} (hc : s.calls = t.calls) (ho : s.outcome = t.outcome) :
    s = t := by
  cases s
  cases t
  congr

/-- A computation that makes no call. -/
def ofExcept (e : Except Error α) : Session α := ⟨[], e⟩

/-- One computation after another, unless the first fails. -/
def andThen (s : Session α) (f : α → Session β) : Session β :=
  match s.outcome with
  | .ok a => ⟨s.calls ++ (f a).calls, (f a).outcome⟩
  | .error e => ⟨s.calls, .error e⟩

instance : Monad Session where
  pure a := ofExcept (.ok a)
  bind := andThen

instance : MonadLift (Except Error) Session := ⟨ofExcept⟩

theorem pure_def (a : α) : (pure a : Session α) = ⟨[], .ok a⟩ := rfl

theorem bind_def (s : Session α) (f : α → Session β) : s >>= f = s.andThen f := rfl

instance : LawfulMonad Session :=
  LawfulMonad.mk' _
    (fun s => by
      obtain ⟨calls, outcome⟩ := s
      cases outcome <;> simp [Functor.map, andThen, ofExcept])
    (fun a f => by simp [bind_def, pure_def, andThen])
    (fun s f g => by
      obtain ⟨calls, outcome⟩ := s
      cases outcome with
      | error e => rfl
      | ok a =>
        simp only [bind_def, andThen]
        cases (f a).outcome <;> simp)

def ask (p : Provider) (c : Call) : Session c.Reply :=
  ⟨[c], (p.reply c).mapError .crypto⟩

end Session

end Cose
