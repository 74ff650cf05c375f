import ClassCensus.Census.Basic

/-!
# Snapshots

A snapshot is a census at one moment, flattened into a row for each class. It holds no
reference to the census and can be kept, compared and sent elsewhere. What a reader of
rows could not work out alone, as whether a class extends the base class, is written
into the row.
-/

namespace ClassCensus

/-- What a row tells of the kind of its class. In a row of a census one of the two
excludes the other; a row that comes from elsewhere may tell anything. -/
@[ext]
structure Row.Kind where
  isStatic : Bool
  isDynamic : Bool
deriving DecidableEq

def Row.Kind.of (k : ClassCensus.Kind) : Row.Kind where
  isStatic := k.isStatic
  isDynamic := k.isDynamic

@[ext]
structure Row where
  descriptor : Descriptor
  className : String
  parent : Option Descriptor
  kind : Row.Kind
  /-- Not stale. -/
  valid : Bool
  /-- Extends the base class, or is the base class. -/
  rooted : Bool
  own : Tally
  inclusive : Tally
  /-- How many slots the pool of the class has, none where it has no pool. -/
  liveInstances : Nat
deriving DecidableEq

@[ext]
structure Snapshot where
  tracked : Nat
  /-- The classes in the order in which they came. -/
  rows : List Row
deriving DecidableEq

namespace Census

def rowOf (c : Census) (d : Descriptor) (e : Entry) : Row where
  descriptor := d
  className := e.className
  parent := c.forest.parent? d
  kind := .of e.kind
  valid := !e.stale
  rooted := c.isRooted d
  own := e.own
  inclusive := e.inclusive
  liveInstances := (c.roster.pool? d).elim 0 Pool.size

def row? (c : Census) (d : Descriptor) : Option Row :=
  (c.entryOf? d).map fun e => c.rowOf d e

def snapshot (c : Census) : Snapshot where
  tracked := c.tracked
  rows := c.descriptors.filterMap c.row?

end Census

namespace Snapshot

def find? (s : Snapshot) (className : String) : Option Row :=
  s.rows.find? fun r => r.className == className

end Snapshot

end ClassCensus
