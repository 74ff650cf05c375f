import ClassCensus.Proofs.Hierarchy

/-!
# Inheritance

Whether a class inherits another can be found out on three ways: going up from it until
the other one is met, in the list of its ancestors, and going down from the other one
over the children. `InheritanceLaws` says that they come to the same and that it is an
order, in which the classes above a class form a chain.

`Seeks a p found` is the way up with nothing to bound it but its own end: it stops at `a`
or above a root, and a circle would have no answer. So that there is an answer is a law,
and it rests on the order of arrival.
-/

namespace ClassCensus

open Relation

namespace Forest

/-- `f.Seeks a p found`: going up from `p` in search of `a` comes to an end, with the
answer `found`. -/
inductive Seeks (f : Forest) (a : Descriptor) : Option Descriptor → Bool → Prop
  | top : Seeks f a none false
  | here : Seeks f a (some a) true
  | up {d : Descriptor} {found : Bool} (other : d ≠ a) (above : Seeks f a (f.parent? d) found) :
    Seeks f a (some d) found

theorem Seeks.unique {f : Forest} {a : Descriptor} {p : Option Descriptor} {found found' : Bool}
    (h : f.Seeks a p found) (h' : f.Seeks a p found') : found = found' := by
  induction h with
  | top =>
      cases h'
      rfl
  | here =>
      cases h' with
      | here => rfl
      | up other => exact absurd rfl other
  | up other _ ih =>
      cases h' with
      | here => exact absurd rfl other
      | up _ above => exact ih above

/-- A search that goes all the way up finds what it meets there. -/
theorem Ascends.seeks {f : Forest} {p : Option Descriptor} {l : List Descriptor}
    (h : f.Ascends p l) (a : Descriptor) : f.Seeks a p (l.contains a) := by
  induction h with
  | top => exact .top
  | @up d l above ih =>
      by_cases same : d = a
      · subst same
        rw [List.contains_cons, beq_self_eq_true, Bool.true_or]
        exact .here
      · have apart : (a == d) = false := beq_eq_false_iff_ne.mpr (Ne.symm same)
        rw [List.contains_cons, apart, Bool.false_or]
        exact .up same ih

namespace Sound

variable {f : Forest} (sound : f.Sound)

include sound

theorem seeks_iff {d : Descriptor} (known : f.contains d = true) (a : Descriptor) (found : Bool) :
    f.Seeks a (some d) found ↔ found = f.inherits d a := by
  have ends : f.Seeks a (some d) (f.inherits d a) := by
    rw [inherits, known, Bool.true_and]
    exact (sound.ascends_lineage d).seeks a
  exact ⟨fun h => h.unique ends, fun same => same ▸ ends⟩

theorem inherits_iff_reaches {d a : Descriptor} :
    f.inherits d a = true ↔ f.contains d = true ∧ ReflTransGen f.IsChild a d := by
  rw [inherits_iff, sound.mem_lineage_iff_reaches]

theorem contains_of_inherits {d a : Descriptor} (h : f.inherits d a = true) :
    f.contains a = true := by
  obtain ⟨known, above⟩ := (inherits_iff f d a).mp h
  exact sound.forall_mem_lineage known a above

theorem inherits_trans {d a b : Descriptor} (h : f.inherits d a = true)
    (h' : f.inherits a b = true) : f.inherits d b = true := by
  rw [sound.inherits_iff_reaches] at h h' ⊢
  exact ⟨h.1, h'.2.trans h.2⟩

theorem earlier_of_inherits {d a : Descriptor} (h : f.inherits d a = true) (other : a ≠ d) :
    f.order.toList.idxOf a < f.order.toList.idxOf d := by
  have above := ((inherits_iff f d a).mp h).2
  have later := sound.lineage_pairwise d
  rw [lineage, List.pairwise_cons] at later
  exact later.1 a ((List.mem_cons.mp above).resolve_left other)

theorem inherits_antisymm {d a : Descriptor} (h : f.inherits d a = true)
    (h' : f.inherits a d = true) : d = a := by
  by_contra other
  exact Nat.lt_asymm (sound.earlier_of_inherits h (Ne.symm other))
    (sound.earlier_of_inherits h' other)

/-- Of two classes that a class inherits, one inherits the other. -/
theorem inherits_total {d a b : Descriptor} (h : f.inherits d a = true)
    (h' : f.inherits d b = true) : f.inherits a b = true ∨ f.inherits b a = true := by
  have above := ((inherits_iff f d a).mp h).2
  have above' := ((inherits_iff f d b).mp h').2
  rw [inherits_iff, inherits_iff]
  exact (sound.lineage_total above above').imp (fun up => ⟨sound.contains_of_inherits h, up⟩)
    fun up => ⟨sound.contains_of_inherits h', up⟩

end Sound

end Forest

namespace Census

structure InheritanceLaws (c : Census) : Prop where
  seeks_iff : ∀ d a found, c.contains d = true →
    (c.forest.Seeks a (some d) found ↔ found = c.forest.inherits d a)
  iff_ancestors : ∀ d a, c.forest.inherits d a = true ↔
    c.contains d = true ∧ (a = d ∨ a ∈ c.forest.ancestors d)
  ascends_iff : ∀ d above, c.forest.Ascends (c.forest.parent? d) above ↔
    above = c.forest.ancestors d
  iff_reaches : ∀ d a, c.forest.inherits d a = true ↔
    c.contains d = true ∧ ReflTransGen c.forest.IsChild a d
  refl : ∀ d, c.contains d = true → c.forest.inherits d d = true
  trans : ∀ d a b, c.forest.inherits d a = true → c.forest.inherits a b = true →
    c.forest.inherits d b = true
  antisymm : ∀ d a, c.forest.inherits d a = true → c.forest.inherits a d = true → d = a
  comparable : ∀ d a b, c.forest.inherits d a = true → c.forest.inherits d b = true →
    c.forest.inherits a b = true ∨ c.forest.inherits b a = true
  unknown : ∀ d a, c.contains d = false → c.forest.inherits d a = false
  known : ∀ d a, c.forest.inherits d a = true → c.contains a = true

/-- Whatever the hosts report and whichever calls fail, going up, listing the ancestors
and going down come to one relation, and it is the order of a forest. -/
theorem inheritanceLaws_of_reachable {c : Census} (reach : c.Reachable) : c.InheritanceLaws := by
  have sound := reach.consistent.sound
  exact
  { seeks_iff d a found known := sound.seeks_iff known a found
    iff_ancestors d a := by
      rw [Forest.inherits_iff, Forest.lineage, List.mem_cons]
      rfl
    ascends_iff d above := by
      have all := sound.ascends_ancestors d
      exact ⟨fun h => h.unique all, fun same => same ▸ all⟩
    iff_reaches d a := sound.inherits_iff_reaches
    refl d known := (Forest.inherits_iff ..).mpr ⟨known, List.mem_cons_self⟩
    trans d a b h h' := sound.inherits_trans h h'
    antisymm d a h h' := sound.inherits_antisymm h h'
    comparable d a b h h' := sound.inherits_total h h'
    unknown d a unknown := by
      rw [Forest.inherits, show c.forest.contains d = false from unknown, Bool.false_and]
    known d a h := sound.contains_of_inherits h }

/-- The class 6 has the name of 2 and stands below 3 on its own, and 4 never came on
record. -/
theorem inheritanceLaws_turnedCensus :
    turnedCensus.Reachable ∧ turnedCensus.forest.inherits ⟨6⟩ ⟨1⟩ = true ∧
      turnedCensus.forest.inherits ⟨6⟩ ⟨2⟩ = false ∧
      turnedCensus.forest.inherits ⟨4⟩ ⟨4⟩ = false ∧ turnedCensus.InheritanceLaws := by
  have reach : turnedCensus.Reachable :=
    ⟨upright.toHost, ⟨8, false, true⟩, ⟨0⟩, blank ⟨8, false, true⟩ ⟨0⟩ ⟨1⟩, turnedRun, trivial,
      rfl, fun _ _ => trivial, rfl⟩
  exact ⟨reach, by decide +kernel, by decide +kernel, by decide +kernel,
    inheritanceLaws_of_reachable reach⟩

end Census

end ClassCensus
