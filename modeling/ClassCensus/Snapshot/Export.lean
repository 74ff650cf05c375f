import ClassCensus.Json.Layout
import ClassCensus.Snapshot

/-!
# Exporting snapshots

A snapshot is exported as a JSON text laid out on lines, with the keys in a fixed order.
Handles and counts are written as numbers, a missing parent as null.
-/

namespace ClassCensus

open ClassCensus.Json

namespace Row

def parentChars : Option Descriptor → List Char
  | none => Layout.null
  | some d => Layout.natural d.handle.toNat

def members (r : Row) : List (String × List Char) :=
  [("descriptor", Layout.natural r.descriptor.handle.toNat),
    ("class_name", Layout.string r.className),
    ("parent", parentChars r.parent),
    ("is_static", Layout.truth r.kind.isStatic),
    ("is_dynamic", Layout.truth r.kind.isDynamic),
    ("valid", Layout.truth r.valid),
    ("rooted", Layout.truth r.rooted),
    ("self_count", Layout.natural r.own.total),
    ("inclusive_count", Layout.natural r.inclusive.total),
    ("self_alive_count", Layout.natural r.own.alive),
    ("inclusive_alive_count", Layout.natural r.inclusive.alive),
    ("alive_instances", Layout.natural r.liveInstances)]

def chars (depth : Nat) (r : Row) : List Char :=
  Layout.object depth r.members

end Row

namespace Snapshot

def chars (s : Snapshot) : List Char :=
  Layout.object 0
    [("tracked_objects", Layout.natural s.tracked),
      ("entries", Layout.list 1 (s.rows.map (Row.chars 2)))]

def toJson (s : Snapshot) : String :=
  String.ofList s.chars

end Snapshot

end ClassCensus
