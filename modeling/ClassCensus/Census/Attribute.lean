import ClassCensus.Census.Basic

/-!
# Attributes

One question at a time about one class, as a table with a column for each attribute
would put it. A class that is not on record has an empty name and is not valid. Counts
are kept for all classes, but they are shown only for those that extend the base class;
elsewhere they do not apply.
-/

namespace ClassCensus

inductive Attribute
  | className
  | valid
  | ownTotal
  | inclusiveTotal
  | ownAlive
  | inclusiveAlive
deriving DecidableEq

namespace Attribute

def all : List Attribute :=
  [className, valid, ownTotal, inclusiveTotal, ownAlive, inclusiveAlive]

def count? : Attribute → Option (Entry → Nat)
  | className => none
  | valid => none
  | ownTotal => some fun e => e.own.total
  | inclusiveTotal => some fun e => e.inclusive.total
  | ownAlive => some fun e => e.own.alive
  | inclusiveAlive => some fun e => e.inclusive.alive

end Attribute

inductive Reading
  | text (s : String)
  | flag (b : Bool)
  | count (n : Nat)
  | notApplicable
deriving DecidableEq

namespace Reading

def count? : Reading → Option Nat
  | count n => some n
  | _ => none

def display : Reading → String
  | text s => s
  | flag true => "true"
  | flag false => "false"
  | count n => Nat.repr n
  | notApplicable => "-"

end Reading

namespace Census

/-- The name of a class; empty if it is not on record. -/
def className (c : Census) (d : Descriptor) : String :=
  match c.entryOf? d with
  | some e => e.className
  | none => ""

def read (c : Census) (d : Descriptor) (a : Attribute) : Reading :=
  match a with
  | .className => .text (c.className d)
  | .valid => .flag (c.isValid d)
  | _ =>
    match a.count? with
    | none => .notApplicable
    | some f =>
      if c.isRooted d then .count ((c.entryOf? d).elim 0 f) else .notApplicable

theorem read_of_count {a : Attribute} {f : Entry → Nat} (h : a.count? = some f) (c : Census)
    (d : Descriptor) :
    c.read d a = if c.isRooted d then .count ((c.entryOf? d).elim 0 f) else .notApplicable := by
  cases a <;> simp_all [Attribute.count?, read]

end Census

end ClassCensus
