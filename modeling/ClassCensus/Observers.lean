import ClassCensus.Handle

/-!
# Events and observers

A census tells its observers of every change at the moment it happens. An `Event` says
what happened to which class. Observers are known by the numbers they were given when
they subscribed: numbers are given out in ascending order and never twice, and the
observers are told in the order in which they came. What an observer does with an event
is its own affair; it cannot change the census.
-/

namespace ClassCensus

inductive Event
  /-- A class is known, but not yet listed below its parent. -/
  | adding (d : Descriptor)
  /-- A class has been listed below its parent. -/
  | added (d : Descriptor)
  /-- The counts of a class, or whether it is stale, may have changed. -/
  | changed (d : Descriptor)
deriving DecidableEq

namespace Event

def descriptor : Event → Descriptor
  | adding d => d
  | added d => d
  | changed d => d

end Event

@[ext]
structure ObserverId where
  number : Nat
deriving DecidableEq

@[ext]
structure Observers where
  /-- How many numbers have been given out. -/
  issued : Nat
  /-- The observers that are subscribed, in the order in which they came. -/
  subscribed : List ObserverId
deriving DecidableEq

namespace Observers

def nobody : Observers := ⟨0, []⟩

def size (s : Observers) : Nat :=
  s.subscribed.length

def subscribe (s : Observers) : ObserverId × Observers :=
  (⟨s.issued⟩, ⟨s.issued + 1, s.subscribed ++ [⟨s.issued⟩]⟩)

def unsubscribe (s : Observers) (id : ObserverId) : Bool × Observers :=
  (s.subscribed.contains id, { s with subscribed := s.subscribed.filter (· != id) })

def debugText (s : Observers) : String :=
  "ObserverList \x7b observers: " ++ Nat.repr s.size ++ " \x7d"

theorem unsubscribe_of_not_mem {s : Observers} {id : ObserverId} (h : id ∉ s.subscribed) :
    s.unsubscribe id = (false, s) := by
  have kept : s.subscribed.filter (· != id) = s.subscribed := by
    rw [List.filter_eq_self]
    intro a mem
    have other : a ≠ id := fun same => h (same ▸ mem)
    simpa using other
  simp [unsubscribe, h, kept]

end Observers

end ClassCensus
