import ClassCensus.Census.Lifetimes

/-!
# Calls

The ways to change a census, as data. `perform` carries out one call for one thread: a
thread that may not change the census is refused before anything else is looked at, and
the census stays as it is. The host takes part in a call with the answers it gives at
that moment.

A run is a list of calls, each with its thread and its host. `performAll` threads the
census through it.
-/

namespace ClassCensus

inductive Call
  | register (d : Descriptor) (merge : Bool)
  | survey
  | construct (r : Report)
  | destroy (o : Object)
  | subscribe
  | unsubscribe (id : ObserverId)
deriving DecidableEq

namespace Call

/-- The operation that a refusal names. -/
def operation : Call → String
  | register .. => "ensure_registered"
  | survey => "rescan"
  | construct _ => "object_constructed"
  | destroy _ => "object_destroyed"
  | subscribe => "add_observer"
  | unsubscribe _ => "remove_observer"

end Call

/-- A call with the thread that makes it and the host as it is then. -/
structure Occasion where
  call : Call
  thread : Thread
  host : Host

inductive Answer
  /-- The thread may not change the census. -/
  | refused (t : Trespass)
  /-- The class that a descriptor is on record under, or that an object is counted
  under. -/
  | standsUnder (r : Except AscentError Descriptor)
  | surveyed (r : Except AscentError Nat)
  | destroyed (r : Destruction)
  | subscribed (id : ObserverId)
  | unsubscribed (present : Bool)

namespace Outcome

/-- The outcome of a change that may fail and leaves nothing behind if it does. -/
def ofExcept (c : Census) : Except AscentError (Outcome Descriptor) → Outcome Answer
  | .ok o => o.map fun d => .standsUnder (.ok d)
  | .error e => ⟨.standsUnder (.error e), c, []⟩

end Outcome

namespace Census

def apply (c : Census) (host : Host) : Call → Outcome Answer
  | .register d merge => .ofExcept c (c.register host d merge)
  | .survey => (c.survey host).map .surveyed
  | .construct r => .ofExcept c (c.construct host r)
  | .destroy o => (c.destroy o).map .destroyed
  | .subscribe =>
    let s := c.observers.subscribe
    ⟨.subscribed s.1, { c with observers := s.2 }, []⟩
  | .unsubscribe id =>
    let s := c.observers.unsubscribe id
    ⟨.unsubscribed s.1, { c with observers := s.2 }, []⟩

def perform (c : Census) (host : Host) (thread : Thread) (call : Call) : Outcome Answer :=
  match c.ownership.check thread call.operation with
  | .ok _ => c.apply host call
  | .error t => ⟨.refused t, c, []⟩

def performAll : Census → List Occasion → Outcome (List Answer)
  | c, [] => ⟨[], c, []⟩
  | c, q :: qs =>
    let here := c.perform q.host q.thread q.call
    let rest := performAll here.census qs
    ⟨here.answer :: rest.answer, rest.census, here.signals ++ rest.signals⟩

theorem perform_of_permits {c : Census} {thread : Thread}
    (h : c.ownership.permits thread = true) (host : Host) (call : Call) :
    c.perform host thread call = c.apply host call := by
  simp [perform, Ownership.check, h]

theorem perform_of_not_permits {c : Census} {thread : Thread}
    (h : c.ownership.permits thread = false) (host : Host) (call : Call) :
    c.perform host thread call = ⟨.refused ⟨call.operation⟩, c, []⟩ := by
  simp [perform, Ownership.check, h]

theorem permits_of_answer {c : Census} {host : Host} {thread : Thread} {call : Call}
    (heard : (c.perform host thread call).answer ≠ .refused ⟨call.operation⟩) :
    c.ownership.permits thread = true := by
  rw [← Bool.not_eq_false]
  intro refused
  rw [perform_of_not_permits refused] at heard
  exact heard rfl

@[simp] theorem performAll_nil (c : Census) : c.performAll [] = ⟨[], c, []⟩ := rfl

end Census

end ClassCensus
