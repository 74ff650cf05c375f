import ClassCensus.Census.Basic
import ClassCensus.LogRecord

/-!
# Signals

What a call makes known while it runs: log records, and events that reach an observer. A
`Delivery` carries the view, the census as it is at the moment of the event, since
observers are told in the middle of an operation and see what is there by then. The
signals of a call are a list in order of time.

An `Outcome` is all that a call leaves behind. Calls have no other effect.
-/

namespace ClassCensus

/-- An event that reached an observer, and the census as the observer saw it. -/
structure Delivery where
  observer : ObserverId
  event : Event
  view : Census

inductive Signal
  | log (r : LogRecord)
  | delivery (d : Delivery)

namespace Signal

def record? : Signal → Option LogRecord
  | log r => some r
  | delivery _ => none

def delivery? : Signal → Option Delivery
  | log _ => none
  | delivery d => some d

end Signal

structure Outcome (α : Type) where
  answer : α
  census : Census
  signals : List Signal

namespace Outcome

def map {α β : Type} (f : α → β) (o : Outcome α) : Outcome β :=
  ⟨f o.answer, o.census, o.signals⟩

end Outcome

namespace Census

def tell (c : Census) (e : Event) : List Signal :=
  c.observers.subscribed.map fun id => .delivery ⟨id, e, c.detached⟩

end Census

end ClassCensus
