/-!
# Entries

What a census keeps about one class: its name, the kind of class it is, and how many
objects there were and are. Objects are counted twice, once at the very class they have
and once more at every class above it, so an entry has a tally of its own and one that
includes the classes below.

Counts are natural numbers and have no upper end.
-/

namespace ClassCensus

@[ext]
structure Tally where
  total : Nat
  alive : Nat
deriving DecidableEq

namespace Tally

def zero : Tally := ⟨0, 0⟩

def gain (t : Tally) : Tally := ⟨t.total + 1, t.alive + 1⟩

/-- One object less alive; none where none was. -/
def lose (t : Tally) : Tally := ⟨t.total, t.alive - 1⟩

end Tally

inductive Kind
  /-- A class in storage that never changes. -/
  | static
  /-- A class generated at run time that stands for itself alone. -/
  | separate
  /-- A class generated at run time that stands for all of its name. -/
  | dynamic
deriving DecidableEq

namespace Kind

/-- The kind of a class that may or may not be merged with others of its name. Only
classes that are generated at run time are ever merged. -/
def of (readOnly merge : Bool) : Kind :=
  if readOnly then static else if merge then dynamic else separate

def isStatic (k : Kind) : Bool := k == static

def isDynamic (k : Kind) : Bool := k == dynamic

theorem isStatic_of (readOnly merge : Bool) : (Kind.of readOnly merge).isStatic = readOnly := by
  cases readOnly <;> cases merge <;> rfl

theorem isDynamic_of (readOnly merge : Bool) :
    (Kind.of readOnly merge).isDynamic = (!readOnly && merge) := by
  cases readOnly <;> cases merge <;> rfl

theorem isStatic_of_isDynamic {k : Kind} (h : k.isDynamic = true) : k.isStatic = false := by
  cases k with
  | static => cases h
  | separate => rfl
  | dynamic => rfl

end Kind

@[ext]
structure Entry where
  /-- The name at the time of registration. -/
  className : String
  kind : Kind
  /-- Objects of exactly this class. -/
  own : Tally
  /-- Objects of this class and of those below it. -/
  inclusive : Tally
  /-- Whether what the host told of the class may be out of date, since nothing of it is
  alive. -/
  stale : Bool
deriving DecidableEq

namespace Entry

def fresh (className : String) (kind : Kind) : Entry :=
  ⟨className, kind, .zero, .zero, false⟩

def gainOwn (e : Entry) : Entry := { e with own := e.own.gain }

def loseOwn (e : Entry) : Entry := { e with own := e.own.lose }

/-- Count an object of this class or of one below it. With it the class is up to date
again. -/
def gainInclusive (e : Entry) : Entry :=
  { e with inclusive := e.inclusive.gain, stale := false }

/-- Discount an object of this class or of one below it. With the last one a class that
can change goes out of date. -/
def loseInclusive (e : Entry) : Entry :=
  { e with
    inclusive := e.inclusive.lose
    stale := e.stale || (e.inclusive.lose.alive == 0 && !e.kind.isStatic) }

end Entry

end ClassCensus
