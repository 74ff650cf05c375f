import ClassCensus.Proofs.Lifetimes

/-!
# What observers see

Every event of a call reaches each observer with the census as it is at that moment.
The moments are those between the single changes: a class that is known and not listed
yet, the same class listed, and, for each class on the way up, the census after the
classes so far have been counted. The lemmas here say of each list of signals which
deliveries are in it, and with which view.
-/

namespace ClassCensus

theorem Signal.mem_deliveries {signals : List Signal} {x : Delivery} :
    x ∈ signals.filterMap Signal.delivery? ↔ .delivery x ∈ signals := by
  rw [List.mem_filterMap]
  constructor
  · rintro ⟨signal, given, same⟩
    cases signal with
    | log => cases same
    | delivery =>
        cases same
        exact given
  · exact fun told => ⟨_, told, rfl⟩

namespace Census

theorem mem_tell {c : Census} {e : Event} {x : Delivery} :
    .delivery x ∈ c.tell e ↔
      x.observer ∈ c.observers.subscribed ∧ x.event = e ∧ x.view = c.detached := by
  rw [tell, List.mem_map]
  constructor
  · rintro ⟨id, told, same⟩
    cases same
    exact ⟨told, rfl, rfl⟩
  · rintro ⟨told, rfl, seen⟩
    refine ⟨x.observer, told, ?_⟩
    rw [← seen]

theorem not_mem_noteAlive {c : Census} {d : Descriptor} {x : Delivery} :
    .delivery x ∉ c.noteAlive d := by
  unfold noteAlive
  split <;> simp

section Enter

variable (c : Census) (s : Sighting) (p : Option Descriptor) (kind : Kind)

/-- The census while a class is known below `p`, and not listed yet. -/
def acquaint : Census :=
  { c with
    forest := c.forest.link s.descriptor p
    entries := c.entries.insert s.descriptor (.fresh s.info.className kind)
    names := if kind.isDynamic then c.names.insert s.info.className s.descriptor else c.names
    roster := if kind.isDynamic then c.roster.openPool s.descriptor else c.roster }

theorem contains_acquaint (d : Descriptor) :
    (c.acquaint s p kind).contains d = (c.enter s p kind).census.contains d := by
  rw [contains_enter]
  exact Forest.contains_link ..

theorem lineage_acquaint (d : Descriptor) :
    (c.acquaint s p kind).forest.lineage d = (c.enter s p kind).census.forest.lineage d :=
  (Forest.lineage_list ..).symm

theorem signals_enter :
    (c.enter s p kind).signals =
      [.log (.registering s.descriptor s.info.className p kind)] ++
        ((c.acquaint s p kind).tell (.adding s.descriptor) ++
          (c.enter s p kind).census.tell (.added s.descriptor)) := rfl

variable {c s p kind}

/-- A class that is entered is seen before it is listed and after that. -/
theorem mem_signals_enter {x : Delivery} :
    .delivery x ∈ (c.enter s p kind).signals ↔
      x.observer ∈ c.observers.subscribed ∧
        (x.event = .adding s.descriptor ∧ x.view = (c.acquaint s p kind).detached ∨
          x.event = .added s.descriptor ∧ x.view = (c.enter s p kind).census.detached) := by
  rw [signals_enter, List.mem_append, List.mem_singleton, List.mem_append, mem_tell, mem_tell,
    and_or_left]
  simp only [reduceCtorEq, false_or]
  rfl

end Enter

/-- A walk is seen once for each class, when this class and those before it are changed.
-/
theorem mem_signals_sweep {f : Entry → Entry} {c : Census} {ds : List Descriptor}
    {x : Delivery} :
    .delivery x ∈ (sweep f c ds).2 ↔
      x.observer ∈ c.observers.subscribed ∧ ∃ near d far, ds = near ++ d :: far ∧
        x.event = .changed d ∧ x.view = (sweep f c (near ++ [d])).1.detached := by
  induction ds generalizing c with
  | nil => simp
  | cons d above ih =>
      rw [sweep_cons, List.mem_append, List.mem_append, mem_tell, ih]
      constructor
      · rintro ((noted | ⟨told, event, view⟩) | ⟨told, near, e, far, rfl, event, view⟩)
        · exact absurd noted not_mem_noteAlive
        · exact ⟨told, [], d, above, rfl, event, view⟩
        · exact ⟨told, d :: near, e, far, rfl, event, view⟩
      · rintro ⟨told, near, e, far, parts, event, view⟩
        cases near with
        | nil =>
            cases parts
            exact .inl (.inr ⟨told, event, view⟩)
        | cons n near =>
            cases parts
            exact .inr ⟨told, near, e, far, rfl, event, view⟩

end Census

end ClassCensus
