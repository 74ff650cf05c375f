import ClassCensus.Host.Basic

/-!
# Ascents

To put a class on record, all classes above it have to be on record first. An `Ascent`
is what has to be made up for: the part of a superclass chain that is not on record yet,
from the top down, and the class on record it hangs from, if it hangs from one.

The way up ends at a class on record or at one that extends nothing. It fails where the
host does not describe a class, and where the chain has more unknown classes than
allowed. The room is looked at before the host is asked, so a class beyond the limit is
never described. Since every step uses up room, a host that reports a circle is found
out.
-/

namespace ClassCensus

inductive AscentError
  /-- The host does not describe a class of the chain. -/
  | unresolved (d : Descriptor)
  /-- The chain that starts at `d` has more than `limit` unknown classes. -/
  | tooDeep (d : Descriptor) (limit : Nat)
deriving DecidableEq

namespace AscentError

def message : AscentError → String
  | unresolved d => "Unresolved descriptor: " ++ d.text
  | tooDeep d limit => "Hierarchy of " ++ d.text ++ " exceeds depth limit " ++ Nat.repr limit

end AscentError

structure Sighting where
  descriptor : Descriptor
  info : ClassInfo
deriving DecidableEq

structure Ascent where
  /-- The class on record that the unknown part hangs from. -/
  anchor : Option Descriptor
  /-- The unknown classes from the top down. -/
  chain : List Sighting
deriving DecidableEq

namespace Ascent

/-- Climb from `d` with room for so many unknown classes, above the classes `below`. The
error is `none` where the room does not suffice, and else the class that is not
described. -/
def climb (known : Descriptor → Bool) (describe : Descriptor → Option ClassInfo) :
    Nat → Descriptor → List Sighting → Except (Option Descriptor) Ascent
  | room, d, below =>
    if known d then .ok ⟨some d, below⟩
    else
      match room with
      | 0 => .error none
      | room + 1 =>
        match describe d with
        | none => .error (some d)
        | some info =>
          match info.superclass with
          | none => .ok ⟨none, ⟨d, info⟩ :: below⟩
          | some s => climb known describe room s (⟨d, info⟩ :: below)

def of (known : Descriptor → Bool) (host : Host) (limit : Nat) (d : Descriptor) :
    Except AscentError Ascent :=
  match climb known host.describe limit d [] with
  | .ok a => .ok a
  | .error none => .error (.tooDeep d limit)
  | .error (some u) => .error (.unresolved u)

theorem climb_of_known {known : Descriptor → Bool} {d : Descriptor} (h : known d = true)
    (describe : Descriptor → Option ClassInfo) (room : Nat) (below : List Sighting) :
    climb known describe room d below = .ok ⟨some d, below⟩ := by
  cases room <;> simp [climb, h]

theorem of_known {known : Descriptor → Bool} {d : Descriptor} (h : known d = true)
    (host : Host) (limit : Nat) : of known host limit d = .ok ⟨some d, []⟩ := by
  simp [of, climb_of_known h]

end Ascent

end ClassCensus
