/-!
# Settings and ownership

What can be set about a census: how long a superclass chain may be, whether the host's
catalog is surveyed when the census is opened, and whether calls from other threads are
refused.

A census is changed by one thread only: the one that opened it. Nothing is locked; a call
from another thread is refused, and the refusal names the operation that was tried. The
check can be switched off, and then every thread may pass. Asking never needs the owner.
-/

namespace ClassCensus

@[ext]
structure Settings where
  /-- How many unknown classes one registration may climb through. -/
  depthLimit : Nat
  surveyOnOpening : Bool
  /-- Refuse changes from threads that do not own the census. -/
  checkThread : Bool
deriving DecidableEq

namespace Settings

/-- The depth limit unless another is given. Chains of classes are short, so one as long
as this means that the host reports a cycle. -/
def defaultDepthLimit : Nat := 256

def defaultSurveyOnOpening : Bool := true

def defaultCheckThread : Bool := true

def default : Settings where
  depthLimit := defaultDepthLimit
  surveyOnOpening := defaultSurveyOnOpening
  checkThread := defaultCheckThread

instance : Inhabited Settings := ⟨default⟩

end Settings

@[ext]
structure Thread where
  number : Nat
deriving DecidableEq

@[ext]
structure Ownership where
  owner : Thread
  enforced : Bool
deriving DecidableEq

structure Trespass where
  operation : String
deriving DecidableEq

namespace Ownership

def isOwner (o : Ownership) (t : Thread) : Bool :=
  t == o.owner

def permits (o : Ownership) (t : Thread) : Bool :=
  !o.enforced || o.isOwner t

def check (o : Ownership) (t : Thread) (operation : String) : Except Trespass Unit :=
  if o.permits t then .ok () else .error ⟨operation⟩

theorem permits_owner (o : Ownership) : o.permits o.owner = true := by
  simp [permits, isOwner]

theorem permits_of_not_enforced {o : Ownership} (h : o.enforced = false) (t : Thread) :
    o.permits t = true := by
  simp [permits, h]

end Ownership

end ClassCensus
