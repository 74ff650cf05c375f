import ClassCensus.Proofs.Hierarchy

/-!
# What stays on record

A class that is on record stays there, with the name and the kind that it had when it
came, below the same parent. `Endures` says so of two censuses, of which one comes of
the other: the order of arrival is continued, and totals are only added to. It is kept
by each step of a call, so it holds over any run, whatever the hosts make of their
classes in the meantime.

Everything that is read off the parents stays as it is with them. The children of a
class are the part of the order that has this class as parent, and a part of what is
continued is continued.
-/

namespace ClassCensus

namespace Census

structure Endures (c c' : Census) : Prop where
  base : c'.base = c.base
  descriptors : c.descriptors <+: c'.descriptors
  contains : ∀ d, c.contains d = true → c'.contains d = true
  parent : ∀ d, c.contains d = true → c'.forest.parent? d = c.forest.parent? d
  entry : ∀ d e, c.entryOf? d = some e → ∃ e', c'.entryOf? d = some e' ∧ e.Precedes e'

namespace Endures

variable {host : Host} {merge : Bool} {c c' c'' : Census} {h : List Admission}

theorem refl (c : Census) : c.Endures c :=
  ⟨rfl, List.prefix_rfl, fun _ known => known, fun _ _ => rfl, fun _ e entry =>
    ⟨e, entry, .refl e⟩⟩

theorem trans (one : c.Endures c') (two : c'.Endures c'') : c.Endures c'' where
  base := two.base.trans one.base
  descriptors := one.descriptors.trans two.descriptors
  contains d known := two.contains d (one.contains d known)
  parent d known := (two.parent d (one.contains d known)).trans (one.parent d known)
  entry d e entry := by
    obtain ⟨e', entry', precedes⟩ := one.entry d e entry
    obtain ⟨e'', entry'', precedes'⟩ := two.entry d e' entry'
    exact ⟨e'', entry'', precedes.trans precedes'⟩

theorem of_enters (coherent : c.Coherent) (enters : Enters host merge c c') :
    c.Endures c' := by
  have contains := fun d => enters.contains (d := d)
  have entryOf? := fun d e => enters.entryOf? coherent (d := d) (e := e)
  cases enters with
  | @intro s p fits =>
      refine ⟨rfl, ?_, contains, fun d known => ?_, fun d e entry => ?_⟩
      · exact ⟨[s.descriptor], (Forest.order_grow c.forest s.descriptor p).symm⟩
      · exact Forest.parent?_grow_of_contains fits.fresh p known
      · exact ⟨e, entryOf? d e entry, .refl e⟩

theorem of_recounts (recounts : c.Recounts c') : c.Endures c' where
  base := recounts.base
  descriptors := by
    rw [Census.descriptors, Census.descriptors, recounts.forest]
  contains d known := recounts.contains ▸ known
  parent d _ := by
    rw [recounts.forest]
  entry := recounts.entry

theorem of_step (consistent : c.Consistent) (step : Step host c h c') : c.Endures c' := by
  cases step with
  | enter enters => exact of_enters consistent.toCoherent enters
  | receive new stands => exact of_recounts (recounts_receive _ _ consistent.sound)
  | dismiss held => exact of_recounts (recounts_dismiss _ _ consistent.sound)
  | audience s => exact ⟨rfl, List.prefix_rfl, fun _ known => known, fun _ _ => rfl,
      fun _ e entry => ⟨e, entry, .refl e⟩⟩

theorem of_steps (consistent : c.Consistent) (steps : Steps host c h c') : c.Endures c' :=
  (steps.keeps (P := fun _ c' => c.Endures c') (h := [])
    (fun _ _ _ _ between before step => before.trans (of_step between step)) consistent
    (.refl c)).2

theorem of_performAll (consistent : c.Consistent) (run : List Occasion) :
    c.Endures (c.performAll run).census :=
  (performAll_keeps (P := fun _ c' => c.Endures c') (H := fun _ => True) (h := [])
    (fun _ _ _ _ _ _ between before step => before.trans (of_step between step)) run
    (fun _ _ => trivial) consistent (.refl c)).2

section Sound

variable (endures : c.Endures c') (sound : c.forest.Sound) (sound' : c'.forest.Sound)

include endures sound sound'

theorem lineage {d : Descriptor} (known : c.contains d = true) :
    c'.forest.lineage d = c.forest.lineage d :=
  sound.lineage_of_parents sound' endures.parent known

theorem inherits {d : Descriptor} (known : c.contains d = true) (a : Descriptor) :
    c'.forest.inherits d a = c.forest.inherits d a := by
  rw [Forest.inherits, Forest.inherits, endures.lineage sound sound' known,
    show c'.forest.contains d = true from endures.contains d known,
    show c.forest.contains d = true from known]

/-- What is below a class, or among the roots, stays there, and new classes come behind.
-/
theorem below (p : Option Descriptor) :
    (c.forest.below p).toList <+: (c'.forest.below p).toList := by
  obtain ⟨new, continued⟩ := endures.descriptors
  have older : (c.descriptors.filter fun d => decide (c'.forest.parent? d = p)) =
      c.descriptors.filter fun d => decide (c.forest.parent? d = p) :=
    List.filter_congr fun d listed => by rw [endures.parent d ((sound.mem_order d).mp listed)]
  rw [sound.below_eq p, sound'.below_eq p]
  change List.filter _ c.descriptors <+: List.filter _ c'.descriptors
  rw [← continued, List.filter_append, older]
  exact List.prefix_append _ _

end Sound

end Endures

/-- What can be relied on of a census, in every census `c'` that comes of it. -/
structure PermanenceLaws (c c' : Census) : Prop where
  descriptors : c.descriptors <+: c'.descriptors
  entry : ∀ d e, c.entryOf? d = some e → ∃ e', c'.entryOf? d = some e' ∧
    e'.className = e.className ∧ e'.kind = e.kind ∧ e.own.total ≤ e'.own.total ∧
    e.inclusive.total ≤ e'.inclusive.total
  parent : ∀ d, c.contains d = true → c'.forest.parent? d = c.forest.parent? d
  ancestors : ∀ d, c.contains d = true → c'.forest.ancestors d = c.forest.ancestors d
  inherits : ∀ d a, c.contains d = true → c'.forest.inherits d a = c.forest.inherits d a
  rooted : ∀ d, c.contains d = true → c'.isRooted d = c.isRooted d
  children : ∀ d, (c.forest.childrenOf d).toList <+: (c'.forest.childrenOf d).toList
  roots : c.forest.roots.toList <+: c'.forest.roots.toList
  surveyed : ∀ host t n, (c'.perform host t .survey).answer = .surveyed (.ok n) →
    (c'.perform host t .survey).census.size = c'.size + n

theorem Endures.size_le {c c' : Census} (endures : c.Endures c') : c.size ≤ c'.size := by
  rw [size, size, Forest.size, Forest.size, ← Array.length_toList, ← Array.length_toList]
  exact endures.descriptors.length_le

theorem size_survey {c : Census} (consistent : c.Consistent) {host : Host} {n : Nat}
    (answered : (c.survey host).answer = .ok n) : (c.survey host).census.size = c.size + n := by
  have endures : c.Endures (c.survey host).census :=
    .of_steps consistent (survey_advances c host).grows.steps
  have counted : n = (c.survey host).census.size - c.size := by
    simp only [survey] at answered ⊢
    split at answered
    · cases answered
    · exact (Except.ok.inj answered).symm
  rw [counted, Nat.add_sub_cancel' endures.size_le]

/-- Nothing that is on record is ever changed or moved, whatever the hosts do to their
classes later on. -/
theorem permanenceLaws_of_reachable {c : Census} (reach : c.Reachable) (run : List Occasion) :
    c.PermanenceLaws (c.performAll run).census := by
  have consistent := reach.consistent
  have consistent' := consistent.performAll run
  have sound := consistent.sound
  have sound' := consistent'.sound
  have endures := Endures.of_performAll consistent run
  generalize (c.performAll run).census = c' at consistent' sound' endures
  exact
  { descriptors := endures.descriptors
    entry d e entry := by
      obtain ⟨e', entry', precedes⟩ := endures.entry d e entry
      exact ⟨e', entry', precedes.className, precedes.kind, precedes.own_total,
        precedes.inclusive_total⟩
    parent := endures.parent
    ancestors d known := (List.cons.inj (endures.lineage sound sound' known)).2
    inherits d a known := endures.inherits sound sound' known a
    rooted d known := by
      rw [isRooted, isRooted, endures.base, endures.inherits sound sound' known]
    children d := endures.below sound sound' (some d)
    roots := endures.below sound sound' none
    surveyed host t n answer := by
      cases allowed : c'.ownership.permits t with
      | false =>
          rw [perform_of_not_permits allowed] at answer
          cases answer
      | true =>
          rw [perform_of_permits allowed] at answer ⊢
          exact size_survey consistent' (Answer.surveyed.inj answer) }

section Overturned

def uprightCensus : Census :=
  ((blank ⟨8, false, true⟩ ⟨0⟩ ⟨1⟩).performAll
    [⟨.construct ⟨⟨10⟩, ⟨2⟩, true⟩, ⟨0⟩, upright.toHost⟩]).census

/-- The host turns its hierarchy around, and then it lets a class go and renames
another. -/
def overturningRun : List Occasion :=
  [⟨.register ⟨6⟩ false, ⟨0⟩, turned.toHost⟩, ⟨.destroy ⟨10⟩, ⟨0⟩, turned.toHost⟩,
    ⟨.construct ⟨⟨11⟩, ⟨3⟩, true⟩, ⟨0⟩,
      ((turned.drop ⟨2⟩).put ⟨3⟩ ⟨"Part", none, true⟩).toHost⟩,
    ⟨.survey, ⟨0⟩, turned.toHost⟩]

theorem permanenceLaws_overturningRun :
    uprightCensus.Reachable ∧
      turned.toHost.describe ⟨3⟩ = some ⟨"Widget", some ⟨2⟩, false⟩ ∧
      (uprightCensus.performAll overturningRun).census.descriptors = [⟨1⟩, ⟨3⟩, ⟨2⟩, ⟨6⟩] ∧
      (uprightCensus.performAll overturningRun).census.forest.lineage ⟨2⟩ = [⟨2⟩, ⟨3⟩, ⟨1⟩] ∧
      uprightCensus.PermanenceLaws (uprightCensus.performAll overturningRun).census := by
  have reach : uprightCensus.Reachable :=
    ⟨upright.toHost, ⟨8, false, true⟩, ⟨0⟩, blank ⟨8, false, true⟩ ⟨0⟩ ⟨1⟩, _, trivial, rfl,
      fun _ _ => trivial, rfl⟩
  exact ⟨reach, by decide +kernel, by decide +kernel, by decide +kernel,
    permanenceLaws_of_reachable reach overturningRun⟩

end Overturned

end Census

end ClassCensus
