import ClassCensus.Census.Attribute
import ClassCensus.Proofs.Counting
import ClassCensus.Proofs.Pools
import ClassCensus.Snapshot
import Mathlib.Algebra.Ring.Nat

/-!
# What the rows say

A snapshot, the attributes and the census itself are three ways to ask for the same
things. `RowLaws` says that they agree between two calls. A row can be had for each class
on record, so nothing is lost where the rows are read off the entries, and a row tells
what the attributes of its class are. What the rows say together is right as well: they
tell how many objects are tracked, in two ways, and where a row leads from parent to
parent, with nothing but the rows to go by.
-/

namespace ClassCensus

open Relation

def Attribute.blank : Attribute → Reading
  | className => .text ""
  | valid => .flag false
  | _ => .notApplicable

namespace Row

def count (r : Row) (n : Nat) : Reading :=
  if r.rooted then .count n else .notApplicable

def read (r : Row) : Attribute → Reading
  | .className => .text r.className
  | .valid => .flag r.valid
  | .ownTotal => r.count r.own.total
  | .inclusiveTotal => r.count r.inclusive.total
  | .ownAlive => r.count r.own.alive
  | .inclusiveAlive => r.count r.inclusive.alive

end Row

namespace Snapshot

def row? (s : Snapshot) (d : Descriptor) : Option Row :=
  s.rows.find? fun r => r.descriptor == d

def Extends (s : Snapshot) (d p : Descriptor) : Prop :=
  ∃ r ∈ s.rows, r.descriptor = d ∧ r.parent = some p

end Snapshot

namespace Census

/-- The row of a class, with nothing in it if the class is not on record. -/
def rowAt (c : Census) (d : Descriptor) : Row :=
  c.rowOf d ((c.entryOf? d).getD (.fresh "" .static))

theorem rowAt_of_entry {c : Census} {d : Descriptor} {e : Entry} (entry : c.entryOf? d = some e) :
    c.rowAt d = c.rowOf d e := by
  rw [rowAt, entry, Option.getD_some]

theorem own_rowAt (c : Census) (d : Descriptor) : (c.rowAt d).own = c.ownOf d := by
  rw [rowAt, ownOf]
  cases c.entryOf? d <;> rfl

namespace Coherent

variable {c : Census} (coherent : c.Coherent)

include coherent

theorem rows_eq : c.snapshot.rows = c.descriptors.map c.rowAt := by
  rw [← List.filterMap_eq_map]
  refine List.filterMap_congr fun d listed => ?_
  obtain ⟨e, entry⟩ := (coherent.contains_iff d).mp ((coherent.sound.mem_order d).mp listed)
  rw [row?, entry, Function.comp_apply, rowAt_of_entry entry]
  rfl

theorem mem_rows {r : Row} : r ∈ c.snapshot.rows ↔ ∃ d, c.contains d = true ∧ c.rowAt d = r := by
  rw [coherent.rows_eq, List.mem_map]
  exact exists_congr fun d => and_congr_left fun _ => coherent.sound.mem_order d

theorem nodup_descriptors : c.descriptors.Nodup :=
  coherent.sound.nodup

theorem mem_descriptors {d : Descriptor} : d ∈ c.descriptors ↔ c.contains d = true :=
  coherent.sound.mem_order d

theorem row?_snapshot (d : Descriptor) : c.snapshot.row? d = c.row? d := by
  have here : (fun r : Row => r.descriptor == d) ∘ c.rowAt = fun e => e == d := rfl
  rw [Snapshot.row?, coherent.rows_eq, List.find?_map, here, row?]
  cases found : c.descriptors.find? (fun e => e == d) with
  | none =>
      have unknown : c.contains d = false := by
        rw [← Bool.not_eq_true, ← coherent.mem_descriptors]
        exact fun listed => List.find?_eq_none.mp found d listed (beq_self_eq_true d)
      rw [(coherent.not_contains_iff d).mp unknown]
      rfl
  | some e =>
      have same : e = d := by simpa using List.find?_some found
      subst same
      have listed := List.mem_of_find?_eq_some found
      obtain ⟨e', entry⟩ := (coherent.contains_iff e).mp (coherent.mem_descriptors.mp listed)
      rw [entry, Option.map_some, Option.map_some, rowAt_of_entry entry]

/-- The rows lead from parent to parent as the forest does. -/
theorem extends_snapshot {d p : Descriptor} :
    c.snapshot.Extends d p ↔ c.forest.parent? d = some p := by
  constructor
  · rintro ⟨r, listed, rfl, parent⟩
    obtain ⟨d, _, rfl⟩ := coherent.mem_rows.mp listed
    exact parent
  · intro parent
    refine ⟨c.rowAt d, coherent.mem_rows.mpr ⟨d, ?_, rfl⟩, rfl, parent⟩
    exact Forest.contains_of_parent? parent

theorem parent_earlier {early late : List Row} {r : Row}
    (parts : c.snapshot.rows = early ++ r :: late) {p : Descriptor} (parent : r.parent = some p) :
    ∃ q ∈ early, q.descriptor = p := by
  obtain ⟨d, _, rfl⟩ := coherent.mem_rows.mp (parts ▸ List.mem_append_right _ List.mem_cons_self)
  have order : c.descriptors = early.map Row.descriptor ++ d :: late.map Row.descriptor := by
    have listed := congrArg (List.map Row.descriptor) parts
    rw [coherent.rows_eq, List.map_map, List.map_append, List.map_cons] at listed
    exact (List.map_id' c.descriptors).symm.trans listed
  have distinct := coherent.nodup_descriptors
  have before : c.descriptors.idxOf p < c.descriptors.idxOf d :=
    coherent.sound.parent_before d p parent
  rw [order, List.nodup_append] at distinct
  rw [order, List.idxOf_append_of_notMem fun again =>
    distinct.2.2 d again d List.mem_cons_self rfl, List.idxOf_cons_self, Nat.add_zero] at before
  by_contra absent
  have later : p ∉ early.map Row.descriptor := by
    rw [List.mem_map]
    exact absent
  rw [List.idxOf_append_of_notMem later] at before
  exact Nat.not_lt_of_le (Nat.le_add_right _ _) before

theorem rooted_iff {r : Row} (listed : r ∈ c.snapshot.rows) :
    r.rooted = true ↔ ReflTransGen c.snapshot.Extends r.descriptor c.base := by
  obtain ⟨d, known, rfl⟩ := coherent.mem_rows.mp listed
  have leads : c.snapshot.Extends = fun e q => c.forest.parent? e = some q := by
    funext e q
    exact propext coherent.extends_snapshot
  have rooted : (c.rowAt d).rooted = c.forest.inherits d c.base := rfl
  rw [rooted, leads, ← coherent.sound.mem_lineage_iff, Forest.inherits_iff]
  exact and_iff_right known

theorem sum_own_alive :
    (c.snapshot.rows.map fun r => r.own.alive).sum =
      ∑ d ∈ c.descriptors.toFinset, (c.ownOf d).alive := by
  have own : (fun r : Row => r.own.alive) ∘ c.rowAt = fun d => (c.ownOf d).alive :=
    funext fun d => congrArg Tally.alive (own_rowAt c d)
  rw [coherent.rows_eq, List.map_map, own, List.sum_toFinset _ coherent.nodup_descriptors]

end Coherent

/-- What is alive of each class makes up the tracked objects. -/
theorem Consistent.tracked_eq_sum_own {c : Census} (consistent : c.Consistent) :
    c.tracked = (c.snapshot.rows.map fun r => r.own.alive).sum := by
  have coherent := consistent.toCoherent
  have known (o : Object) (k : Descriptor) (held : c.roster.classOf? o = some k) :
      k ∈ c.descriptors.toFinset := by
    rw [List.mem_toFinset, coherent.mem_descriptors]
    exact consistent.tracked_known o k held
  rw [tracked, Roster.size_eq_sum_under known, coherent.sum_own_alive]
  refine Finset.sum_congr rfl fun d listed => ?_
  rw [List.mem_toFinset, coherent.mem_descriptors] at listed
  obtain ⟨e, entry⟩ := (coherent.contains_iff d).mp listed
  rw [ownOf_of_entry entry, consistent.own_alive d e entry]

/-- What is alive below the roots makes up what is alive of each class. -/
theorem Counted.sum_own_eq_sum_inclusive {h : List Admission} {c : Census} (counted : c.Counted h)
    (coherent : c.Coherent) :
    (c.snapshot.rows.map fun r => r.own.alive).sum =
      ((c.snapshot.rows.filter fun r => r.parent = none).map fun r => r.inclusive.alive).sum := by
  have roots : c.descriptors.filter ((fun r : Row => decide (r.parent = none)) ∘ c.rowAt) =
      c.forest.roots.toList := (coherent.sound.below_eq none).symm
  have distinct : c.forest.roots.toList.Nodup := by
    rw [← roots]
    exact coherent.nodup_descriptors.filter _
  rw [coherent.sum_own_alive, coherent.rows_eq, List.filter_map, roots, List.map_map,
    ← List.sum_toFinset _ distinct]
  refine (coherent.sound.sum_roots _).symm.trans (Finset.sum_congr rfl fun d root => ?_)
  rw [List.mem_toFinset] at root
  obtain ⟨e, entry⟩ :=
    (coherent.contains_iff d).mp (coherent.sound.mem_below (p := none).mp root).1
  rw [← Tally.alive_sum, ← counted.inclusive d e entry, Function.comp_apply,
    rowAt_of_entry entry]
  rfl

theorem read_of_row? {c : Census} {d : Descriptor} {r : Row} (row : c.row? d = some r)
    (a : Attribute) : c.read d a = r.read a := by
  obtain ⟨e, entry, rfl⟩ := Option.map_eq_some_iff.mp row
  cases a
  case className => rw [read, className, entry, Row.read, rowOf]
  case valid => rw [read, isValid, entry, Row.read, rowOf, Option.any_some]
  all_goals
    rw [read_of_count rfl, entry]
    rfl

theorem Coherent.read_of_no_row {c : Census} (coherent : c.Coherent) {d : Descriptor}
    (none : c.row? d = none) (a : Attribute) : c.read d a = a.blank := by
  have entry : c.entryOf? d = Option.none := Option.map_eq_none_iff.mp none
  have unknown : c.forest.contains d = false := (coherent.not_contains_iff d).mpr entry
  have apart : c.isRooted d = false := by
    rw [isRooted, Forest.inherits, unknown, Bool.false_and]
  cases a
  case className => rw [read, className, entry, Attribute.blank]
  case valid => rw [read, isValid, entry, Attribute.blank, Option.any_none]
  all_goals
    rw [read_of_count rfl, apart]
    rfl

theorem Pooled.liveInstances_eq {h : List Admission} {c : Census} (pooled : c.Pooled h)
    (consistent : c.Consistent) {r : Row} (listed : r ∈ c.snapshot.rows) :
    r.liveInstances = if r.kind.isDynamic then r.own.alive else 0 := by
  obtain ⟨d, known, rfl⟩ := consistent.toCoherent.mem_rows.mp listed
  obtain ⟨e, entry⟩ := (consistent.contains_iff d).mp known
  have dynamic : c.isDynamic d = e.kind.isDynamic := by
    rw [Census.isDynamic, entry]
    rfl
  rw [rowAt_of_entry entry]
  change (c.roster.pool? d).elim 0 Pool.size = if e.kind.isDynamic then e.own.alive else 0
  cases pool : c.roster.pool? d with
  | none =>
      have shut : e.kind.isDynamic = false := by
        rw [← dynamic, ← Bool.not_eq_true, ← pooled.pool_iff d, pool]
        rintro ⟨p, opened⟩
        cases opened
      rw [shut]
      rfl
  | some p =>
      rw [← dynamic, pooled.isDynamic pool, if_pos rfl,
        ← pooled.length_eq consistent pool entry]
      rfl

structure RowLaws (c : Census) : Prop where
  listed : c.snapshot.rows.map Row.descriptor = c.descriptors
  distinct : (c.snapshot.rows.map Row.descriptor).Nodup
  row_iff : ∀ d, c.contains d = true ↔ ∃ r, c.snapshot.row? d = some r
  parent_earlier : ∀ early r late, c.snapshot.rows = early ++ r :: late →
    ∀ p, r.parent = some p → ∃ q ∈ early, q.descriptor = p
  liveInstances_eq : ∀ r ∈ c.snapshot.rows,
    r.liveInstances = if r.kind.isDynamic then r.own.alive else 0
  tracked_eq_own : c.snapshot.tracked = (c.snapshot.rows.map fun r => r.own.alive).sum
  tracked_eq_inclusive : c.snapshot.tracked =
    ((c.snapshot.rows.filter fun r => r.parent = none).map fun r => r.inclusive.alive).sum
  rooted_iff : ∀ r ∈ c.snapshot.rows,
    r.rooted = true ↔ ReflTransGen c.snapshot.Extends r.descriptor c.base
  read_of_row : ∀ d r, c.snapshot.row? d = some r → ∀ a, c.read d a = r.read a
  read_of_no_row : ∀ d, c.snapshot.row? d = none → ∀ a, c.read d a = a.blank

/-- A history that accounts for the counters and the pools is all that is needed. -/
theorem Consistent.rowLaws {h : List Admission} {c : Census} (consistent : c.Consistent)
    (counted : c.Counted h) (pooled : c.Pooled h) : c.RowLaws := by
  have coherent := consistent.toCoherent
  have listed : c.snapshot.rows.map Row.descriptor = c.descriptors := by
    rw [coherent.rows_eq, List.map_map]
    exact List.map_id' c.descriptors
  exact
  { listed := listed
    distinct := listed ▸ coherent.nodup_descriptors
    row_iff d := by
      rw [coherent.row?_snapshot, coherent.contains_iff, row?]
      simp only [Option.map_eq_some_iff]
      exact ⟨fun ⟨e, entry⟩ => ⟨_, e, entry, rfl⟩, fun ⟨_, e, entry, _⟩ => ⟨e, entry⟩⟩
    parent_earlier _ _ _ parts _ parent := coherent.parent_earlier parts parent
    liveInstances_eq r row := pooled.liveInstances_eq consistent row
    tracked_eq_own := consistent.tracked_eq_sum_own
    tracked_eq_inclusive :=
      consistent.tracked_eq_sum_own.trans (counted.sum_own_eq_sum_inclusive coherent)
    rooted_iff _ row := coherent.rooted_iff row
    read_of_row d r row := read_of_row? ((coherent.row?_snapshot d).symm.trans row)
    read_of_no_row d none := coherent.read_of_no_row ((coherent.row?_snapshot d).symm.trans none) }

/-- Whatever the hosts report and whichever calls fail, rows, attributes and census agree
between two calls. -/
theorem rowLaws_of_reachable {c : Census} (reach : c.Reachable) : c.RowLaws := by
  obtain ⟨consistent, h, counted, pooled⟩ := reach.keeps
    (P := fun c => ∃ h, c.Counted h ∧ c.Pooled h)
    (fun settings owner base =>
      ⟨[], counted_blank settings owner base, pooled_blank settings owner base⟩)
    (fun _ _ c h' c' consistent ⟨h, counted, pooled⟩ step =>
      ⟨h ++ h', step.counted consistent counted, step.pooled consistent pooled⟩)
  exact consistent.rowLaws counted pooled

section Outlying

/-- Beside the classes of `crowd` there is one that does not extend the base class. -/
def outlying : ClassTable :=
  crowd.put ⟨5⟩ ⟨"Namespace", none, false⟩

def outlyingRun : List Occasion :=
  crowdRun ++ [⟨.construct ⟨⟨20⟩, ⟨5⟩, true⟩, ⟨0⟩, outlying.toHost⟩]

theorem rowLaws_outlyingRun :
    let c := ((blank ⟨8, false, true⟩ ⟨0⟩ ⟨1⟩).performAll outlyingRun).census
    c.Reachable ∧ c.snapshot.tracked = 3 ∧
      c.snapshot.rows.map (fun r => (r.descriptor, r.rooted, r.own.alive, r.liveInstances)) =
        [(⟨1⟩, true, 0, 0), (⟨2⟩, true, 1, 0), (⟨3⟩, true, 1, 1), (⟨5⟩, false, 1, 1)] ∧
      c.read ⟨5⟩ .ownAlive = .notApplicable ∧ c.RowLaws := by
  have reach : ((blank ⟨8, false, true⟩ ⟨0⟩ ⟨1⟩).performAll outlyingRun).census.Reachable :=
    ⟨crowd.toHost, ⟨8, false, true⟩, ⟨0⟩, blank ⟨8, false, true⟩ ⟨0⟩ ⟨1⟩, outlyingRun, trivial,
      rfl, fun _ _ => trivial, rfl⟩
  exact ⟨reach, by decide +kernel, by decide +kernel, by decide +kernel,
    rowLaws_of_reachable reach⟩

end Outlying

end Census

end ClassCensus
