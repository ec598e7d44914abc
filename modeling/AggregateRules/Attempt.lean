import AggregateRules.Event
import AggregateRules.Fault

/-!
# Attempt — calls that may fail, on a state that outlives them

A call on a rule under definition answers with a value or with a fault; either way it leaves a state
behind and has let events be observed.  The state after a fault is whatever the steps before it made
of the state, so a call that fails leaves no trace only if its steps are put in the right order — that
is a statement about the call, and not built into what a call is.  `run_bind` says how steps compose.
-/

namespace AggregateRules

/-- What a call leaves behind. -/
structure Outcome (σ α : Type) where
  answer : Except Fault α
  state : σ
  events : List Event

/-- A call on a state. -/
def Attempt (σ α : Type) : Type := σ → Outcome σ α

namespace Attempt

variable {σ τ α β : Type}

/-- Make a call. -/
def run (x : Attempt σ α) (s : σ) : Outcome σ α := x s

/-- The call that answers and does nothing. -/
protected def pure (a : α) : Attempt σ α := fun s => ⟨.ok a, s, []⟩

/-- One call after another; the second is not made if the first fails. -/
protected def bind (x : Attempt σ α) (f : α → Attempt σ β) : Attempt σ β := fun s =>
  match x.run s with
  | ⟨.ok a, s', es⟩ => { (f a).run s' with events := es ++ ((f a).run s').events }
  | ⟨.error fault, s', es⟩ => ⟨.error fault, s', es⟩

instance : Monad (Attempt σ) where
  pure := Attempt.pure
  bind := Attempt.bind

/-- Look at the state. -/
def state : Attempt σ σ := fun s => ⟨.ok s, s, []⟩

/-- Put another state in place. -/
def put (s : σ) : Attempt σ Unit := fun _ => ⟨.ok (), s, []⟩

/-- Fail. -/
def refuse (fault : Fault) : Attempt σ α := fun s => ⟨.error fault, s, []⟩

/-- Let an event be observed. -/
def record (event : Event) : Attempt σ Unit := fun s => ⟨.ok (), s, [event]⟩

/-- A call on a part of the state. -/
def onPart (get : σ → τ) (set : τ → σ → σ) (x : Attempt τ α) : Attempt σ α := fun s =>
  let o := x.run (get s)
  ⟨o.answer, set o.state s, o.events⟩

/-! ## What the steps do -/

@[simp] theorem run_pure (a : α) (s : σ) : (pure a : Attempt σ α).run s = ⟨.ok a, s, []⟩ := rfl

theorem run_bind (x : Attempt σ α) (f : α → Attempt σ β) (s : σ) :
    (x >>= f).run s =
      match x.run s with
      | ⟨.ok a, s', es⟩ => { (f a).run s' with events := es ++ ((f a).run s').events }
      | ⟨.error fault, s', es⟩ => ⟨.error fault, s', es⟩ := rfl

@[simp] theorem run_state (s : σ) : (state : Attempt σ σ).run s = ⟨.ok s, s, []⟩ := rfl

@[simp] theorem run_put (s s' : σ) : (put s').run s = ⟨.ok (), s', []⟩ := rfl

@[simp] theorem run_refuse (fault : Fault) (s : σ) :
    (refuse fault : Attempt σ α).run s = ⟨.error fault, s, []⟩ := rfl

@[simp] theorem run_record (event : Event) (s : σ) :
    (record event).run s = ⟨.ok (), s, [event]⟩ := rfl

theorem run_onPart (get : σ → τ) (set : τ → σ → σ) (x : Attempt τ α) (s : σ) :
    (onPart get set x).run s =
      ⟨(x.run (get s)).answer, set (x.run (get s)).state s, (x.run (get s)).events⟩ := rfl

/-- **A step that answers hands its state on**, and its events stand before those that follow. -/
theorem run_bind_of_ok {x : Attempt σ α} {f : α → Attempt σ β} {s s' : σ} {a : α}
    {es : List Event} (h : x.run s = ⟨.ok a, s', es⟩) :
    (x >>= f).run s = { (f a).run s' with events := es ++ ((f a).run s').events } := by
  rw [run_bind, h]

/-- **A step that fails ends the call.** -/
theorem run_bind_of_error {x : Attempt σ α} {f : α → Attempt σ β} {s s' : σ} {fault : Fault}
    {es : List Event} (h : x.run s = ⟨.error fault, s', es⟩) :
    (x >>= f).run s = ⟨.error fault, s', es⟩ := by
  rw [run_bind, h]

end Attempt

namespace Outcome

/-- The outcome with its state seen as part of another. -/
def mapState {σ τ α : Type} (f : σ → τ) (o : Outcome σ α) : Outcome τ α :=
  ⟨o.answer, f o.state, o.events⟩

end Outcome

end AggregateRules
