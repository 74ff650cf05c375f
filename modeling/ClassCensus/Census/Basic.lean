import ClassCensus.Ascent
import ClassCensus.Entry
import ClassCensus.Forest
import ClassCensus.Observers
import ClassCensus.Roster
import ClassCensus.Settings

/-!
# The census

A `Census` is the whole record of a watched application: the classes met so far with
their hierarchy and their entries, the names that stand for one class, the roster of
objects, and the observers. This module holds the record and the questions that can be
asked of it. Questions can be put at any time and by any thread, and they change
nothing.

The hierarchy and the entries are separate parts, and so are the pools and the tracked
objects. That they tell the same story is what the operations keep up; a census taken
apart and put together by hand need not be consistent.
-/

namespace ClassCensus

structure Census where
  settings : Settings
  ownership : Ownership
  /-- The class that every class of interest extends in the end. -/
  base : Descriptor
  forest : Forest
  entries : DescriptorMap Entry
  /-- The class that stands for all classes of a name. -/
  names : NameMap Descriptor
  roster : Roster
  observers : Observers

namespace Census

def blank (settings : Settings) (owner : Thread) (base : Descriptor) : Census where
  settings := settings
  ownership := ⟨owner, settings.checkThread⟩
  base := base
  forest := .empty
  entries := ∅
  names := ∅
  roster := .empty
  observers := .nobody

def contains (c : Census) (d : Descriptor) : Bool :=
  c.forest.contains d

def entryOf? (c : Census) (d : Descriptor) : Option Entry :=
  c.entries[d]?

def size (c : Census) : Nat :=
  c.forest.size

def isEmpty (c : Census) : Bool :=
  c.forest.order.isEmpty

/-- The classes in the order in which they came. Every class comes behind its parent. -/
def descriptors (c : Census) : List Descriptor :=
  c.forest.order.toList

def tracked (c : Census) : Nat :=
  c.roster.size

def isValid (c : Census) (d : Descriptor) : Bool :=
  (c.entryOf? d).any fun e => !e.stale

def isStatic (c : Census) (d : Descriptor) : Bool :=
  (c.entryOf? d).any fun e => e.kind.isStatic

def isRooted (c : Census) (d : Descriptor) : Bool :=
  c.forest.inherits d c.base

/-- The census as observers see it: while they are told, the list of observers is out of
reach. -/
def detached (c : Census) : Census :=
  { c with observers := .nobody }

def debugText (c : Census) : String :=
  "MetaRegistry \x7b root: " ++ c.base.debugText ++
    ", entries: " ++ Nat.repr c.entries.size ++
    ", tracked_objects: " ++ Nat.repr c.tracked ++
    ", observers: " ++ c.observers.debugText

end Census

end ClassCensus
