import ClassCensus.Handle

/-!
# Hosts

A census owns no class. What it knows of one beyond its handle comes from the host, the
application that is watched. A `Host` is the whole of the answers that the host would give
at one moment: during a call they stand still, between two calls everything may change.
There is no link from one host to the next, so nothing that is proved of a census can lean
on the host's memory.

A `ClassTable` lists the answers of a host row by row. Rows can be put, replaced and
dropped at will, so that a table can tell anything: classes that extend each other in a
circle, superclasses that are not described, handles that come to mean another class.
-/

namespace ClassCensus

@[ext]
structure ClassInfo where
  className : String
  superclass : Option Descriptor
  /-- Whether it lies in storage that never changes, as classes known before the run do.
  -/
  readOnly : Bool
deriving DecidableEq

/-- A row of the host's catalog of types. Not every type has a class. -/
@[ext]
structure CatalogRow where
  typeId : UInt32
  name : String
  descriptor : Option Descriptor
deriving DecidableEq

structure Host where
  /-- The class that every class of interest extends in the end. -/
  base : Descriptor
  /-- What is known of a class; nothing of a handle that names none. -/
  describe : Descriptor → Option ClassInfo
  catalog : List CatalogRow
  /-- Classes that are to be on record before any object is made. -/
  baseline : List Descriptor

namespace Host

def withoutBaseline (h : Host) : Host :=
  { h with baseline := [] }

end Host

structure ClassTable where
  base : Descriptor
  classes : DescriptorMap ClassInfo
  catalog : Array CatalogRow
  baseline : Array Descriptor

namespace ClassTable

def empty (base : Descriptor) : ClassTable := ⟨base, ∅, #[], #[]⟩

def toHost (t : ClassTable) : Host where
  base := t.base
  describe d := t.classes[d]?
  catalog := t.catalog.toList
  baseline := t.baseline.toList

def contains (t : ClassTable) (d : Descriptor) : Bool :=
  t.classes.contains d

def size (t : ClassTable) : Nat :=
  t.classes.size

def put (t : ClassTable) (d : Descriptor) (info : ClassInfo) : ClassTable :=
  { t with classes := t.classes.insert d info }

def drop (t : ClassTable) (d : Descriptor) : ClassTable :=
  { t with classes := t.classes.erase d }

theorem describe_put (t : ClassTable) (d e : Descriptor) (info : ClassInfo) :
    (t.put d info).toHost.describe e = if d = e then some info else t.toHost.describe e := by
  simp [toHost, put, Std.ExtTreeMap.getElem?_insert]

theorem describe_drop (t : ClassTable) (d e : Descriptor) :
    (t.drop d).toHost.describe e = if d = e then none else t.toHost.describe e := by
  simp [toHost, drop, Std.ExtTreeMap.getElem?_erase]

theorem contains_eq_isSome_describe (t : ClassTable) (d : Descriptor) :
    t.contains d = (t.toHost.describe d).isSome := by
  simp [contains, toHost]

end ClassTable

end ClassCensus
