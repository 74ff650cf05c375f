import ClassCensus.Ascent
import ClassCensus.Entry

/-!
# Log records

What a census writes to a log. A record says what happened; its severity and its text
are functions of it, so that two records with the same text can still be told apart by
their cause.
-/

namespace ClassCensus

inductive Severity
  | warn
  | debug
  | trace
deriving DecidableEq

namespace Severity

def text : Severity → String
  | warn => "WARN"
  | debug => "DEBUG"
  | trace => "TRACE"

def rank : Severity → Nat
  | warn => 0
  | debug => 1
  | trace => 2

/-- Whether records of severity `s` are kept where those down to `threshold` are. -/
def keeps (threshold s : Severity) : Bool :=
  s.rank ≤ threshold.rank

end Severity

inductive LogRecord
  /-- A class was not put on record, as another one stands for its name. -/
  | merging (d canonical : Descriptor) (className : String)
  /-- A class is put on record below `parent`. -/
  | registering (d : Descriptor) (className : String) (parent : Option Descriptor) (kind : Kind)
  /-- The class of a type in the catalog could not be put on record. -/
  | skippedType (typeId : UInt32) (name : String) (cause : AscentError)
  /-- A class of the baseline could not be put on record. -/
  | skippedBaseline (d : Descriptor) (cause : AscentError)
  | surveyed (added : Nat)
  /-- A tracked object was reported as new. -/
  | repeatedConstruction (o : Object)
  /-- An object that is not tracked was reported as gone. -/
  | untrackedDestruction (o : Object)
  /-- So many objects of a class and of those below it are alive. -/
  | aliveCount (d : Descriptor) (alive : Nat)
deriving DecidableEq

namespace LogRecord

def severity : LogRecord → Severity
  | merging .. => .debug
  | registering .. => .debug
  | skippedType .. => .warn
  | skippedBaseline .. => .warn
  | surveyed _ => .debug
  | repeatedConstruction _ => .warn
  | untrackedDestruction _ => .debug
  | aliveCount .. => .trace

def flagText : Bool → String
  | true => "true"
  | false => "false"

def parentText : Option Descriptor → String
  | none => "None"
  | some d => "Some(" ++ d.debugText ++ ")"

def message : LogRecord → String
  | merging d canonical className =>
    "merging " ++ d.text ++ " into canonical " ++ canonical.text ++ " (" ++ className ++ ")"
  | registering d className parent kind =>
    "registering " ++ d.text ++ " (" ++ className ++ "), parent " ++ parentText parent ++
      ", static=" ++ flagText kind.isStatic ++ ", dynamic=" ++ flagText kind.isDynamic
  | skippedType typeId name cause =>
    "skipping catalog type " ++ Nat.repr typeId.toNat ++ " (" ++ name ++ "): " ++ cause.message
  | skippedBaseline d cause =>
    "skipping baseline descriptor " ++ d.text ++ ": " ++ cause.message
  | surveyed added => "scan registered " ++ Nat.repr added ++ " descriptors"
  | repeatedConstruction o => o.text ++ " constructed twice, keeping first registration"
  | untrackedDestruction o => "ignoring destruction of untracked " ++ o.text
  | aliveCount d alive => d.text ++ " inclusive alive -> " ++ Nat.repr alive

def line (r : LogRecord) : String :=
  r.severity.text ++ " " ++ r.message

end LogRecord

end ClassCensus
