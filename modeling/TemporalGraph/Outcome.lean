import TemporalGraph.Error
/-!
Outcomes: what a step reports on the way, and how it ends. A step that fails keeps what it had
reported before.
-/

namespace TemporalGraph

inductive Level where
  | warn
  | info
  | debug
  deriving Repr, DecidableEq

structure Event where
  level : Level
  message : String
  fields : List (String × String) := []
  deriving Repr, DecidableEq

/-- How a step can fail: with an error that the caller handles, or by a defect that ends the run. -/
inductive Fault where
  | error (e : Error)
  /-- A projection ends before the text that is already copied. -/
  | scopeOutOfOrder
  /-- An instant lies outside the years that the calendar covers. -/
  | instantOutOfRange
  deriving Repr, DecidableEq

structure Outcome (α : Type) where
  events : List Event
  result : Except Fault α

namespace Outcome

variable {α β : Type}

protected def pure (a : α) : Outcome α := ⟨[], .ok a⟩

protected def bind (x : Outcome α) (f : α → Outcome β) : Outcome β :=
  match x.result with
  | .ok a => ⟨x.events ++ (f a).events, (f a).result⟩
  | .error e => ⟨x.events, .error e⟩

instance : Monad Outcome where
  pure := Outcome.pure
  bind := Outcome.bind

def report (e : Event) : Outcome Unit := ⟨[e], .ok ()⟩

def fault (f : Fault) : Outcome α := ⟨[], .error f⟩

def fail (e : Error) : Outcome α := fault (.error e)

def ofExcept : Except Error α → Outcome α
  | .ok a => .pure a
  | .error e => fail e

/-- The error of a step becomes part of its value; a defect still ends the run. -/
def attempt (x : Outcome α) : Outcome (Except Error α) :=
  match x.result with
  | .ok a => ⟨x.events, .ok (.ok a)⟩
  | .error (.error e) => ⟨x.events, .ok (.error e)⟩
  | .error f => ⟨x.events, .error f⟩

@[simp] theorem bind_ok {events : List Event} {a : α} (f : α → Outcome β) :
    (Outcome.mk events (.ok a) >>= f) = ⟨events ++ (f a).events, (f a).result⟩ := rfl

@[simp] theorem bind_error {events : List Event} {e : Fault} (f : α → Outcome β) :
    (Outcome.mk events (.error e) >>= f) = ⟨events, .error e⟩ := rfl

instance : LawfulMonad Outcome := LawfulMonad.mk' _
  (fun x => by
    obtain ⟨events, result⟩ := x
    cases result <;> simp [Functor.map, Outcome.bind, Outcome.pure])
  (fun a f => by simp [Bind.bind, Pure.pure, Outcome.bind, Outcome.pure])
  (fun x f g => by
    obtain ⟨events, result⟩ := x
    cases result with
    | error e => rfl
    | ok a =>
      cases h : (f a).result <;> simp [Bind.bind, Outcome.bind, h])

end Outcome

end TemporalGraph
