import ClassCensus.Host.Basic
import ClassCensus.Proofs.History

/-!
# The hierarchy of a census

`ForestLaws` says what can be relied on between two calls. The descriptors are
listed once each and are the classes with an entry. A parent is listed strictly
before its children, and the children of a class are the part of the list that
names it as parent. So every way up comes to an end: `Ascends` has no bound on
the number of steps, and the lineage is the whole of the way.

None of it rests on the host. A host may report a circle, or turn its hierarchy
around from one call to the next, and a class may be merged away from under the
classes that extend it.
-/

namespace ClassCensus

namespace Census

structure ForestLaws (c : Census) : Prop where
  nodup : c.descriptors.Nodup
  mem_iff : ∀ d, d ∈ c.descriptors ↔ c.contains d = true
  entry_iff : ∀ d, c.contains d = true ↔ ∃ e, c.entryOf? d = some e
  parent_earlier : ∀ d p, c.forest.parent? d = some p →
    c.descriptors.idxOf p < c.descriptors.idxOf d ∧ c.descriptors.idxOf d < c.size
  children_eq : ∀ p, (c.forest.childrenOf p).toList =
    c.descriptors.filter fun d => decide (c.forest.parent? d = some p)
  roots_eq : c.forest.roots.toList =
    c.descriptors.filter fun d => decide (c.forest.parent? d = none)
  ascends : ∀ d, c.forest.Ascends (some d) (c.forest.lineage d)
  lineage_nodup : ∀ d, (c.forest.lineage d).Nodup
  ancestors_short : ∀ d, c.contains d = true → (c.forest.ancestors d).length < c.size
  ancestors_unknown : ∀ d, c.contains d = false → c.forest.ancestors d = []

/-- It is enough that the parts are in step. -/
theorem Coherent.forestLaws {c : Census} (coherent : c.Coherent) : c.ForestLaws where
  nodup := coherent.sound.nodup
  mem_iff := coherent.sound.mem_order
  entry_iff := coherent.contains_iff
  parent_earlier d p parent := by
    refine ⟨coherent.sound.parent_before d p parent, ?_⟩
    exact coherent.sound.idxOf_lt_size (Forest.contains_of_parent? parent)
  children_eq p := coherent.sound.below_eq (some p)
  roots_eq := coherent.sound.below_eq none
  ascends := coherent.sound.ascends_lineage
  lineage_nodup := coherent.sound.lineage_nodup
  ancestors_short d known := coherent.sound.length_ancestors_lt known
  ancestors_unknown d unknown := by
    rw [Forest.ancestors, Forest.parent?_of_not_contains unknown, Forest.upwards_none]

/-- Whatever the hosts report and whichever calls fail, the hierarchy of a census is a
forest, and its two directions agree. -/
theorem forestLaws_of_reachable {c : Census} (reach : c.Reachable) : c.ForestLaws :=
  reach.consistent.toCoherent.forestLaws

section Turned

def upright : ClassTable :=
  (((ClassTable.empty ⟨1⟩).put ⟨1⟩ ⟨"Object", none, true⟩).put ⟨2⟩ ⟨"Item", some ⟨3⟩, false⟩).put
    ⟨3⟩ ⟨"Widget", some ⟨1⟩, false⟩

/-- The class 3 extends 2, and 4 and 5 extend each other. A class 6 has the name of 2. -/
def turned : ClassTable :=
  ((((upright.put ⟨2⟩ ⟨"Item", some ⟨1⟩, false⟩).put ⟨3⟩ ⟨"Widget", some ⟨2⟩, false⟩).put
    ⟨4⟩ ⟨"Left", some ⟨5⟩, false⟩).put ⟨5⟩ ⟨"Right", some ⟨4⟩, false⟩).put
    ⟨6⟩ ⟨"Item", some ⟨3⟩, false⟩

/-- Classes are registered before and after the host turns its hierarchy around. -/
def turnedRun : List Occasion :=
  [⟨.register ⟨2⟩ true, ⟨0⟩, upright.toHost⟩, ⟨.register ⟨4⟩ false, ⟨0⟩, turned.toHost⟩,
    ⟨.register ⟨6⟩ true, ⟨0⟩, turned.toHost⟩, ⟨.register ⟨6⟩ false, ⟨0⟩, turned.toHost⟩,
    ⟨.survey, ⟨7⟩, turned.toHost⟩]

def turnedCensus : Census :=
  ((blank ⟨8, false, true⟩ ⟨0⟩ ⟨1⟩).performAll turnedRun).census

/-- The circle is not taken up, and what was on record stays as it was. -/
theorem forestLaws_turnedCensus :
    turnedCensus.Reachable ∧ turnedCensus.descriptors = [⟨1⟩, ⟨3⟩, ⟨2⟩, ⟨6⟩] ∧
      turnedCensus.forest.lineage ⟨6⟩ = [⟨6⟩, ⟨3⟩, ⟨1⟩] ∧ turnedCensus.ForestLaws := by
  have reach : turnedCensus.Reachable :=
    ⟨upright.toHost, ⟨8, false, true⟩, ⟨0⟩, blank ⟨8, false, true⟩ ⟨0⟩ ⟨1⟩, turnedRun, trivial,
      rfl, fun _ _ => trivial, rfl⟩
  exact ⟨reach, by decide +kernel, by decide +kernel, forestLaws_of_reachable reach⟩

end Turned

end Census

end ClassCensus
