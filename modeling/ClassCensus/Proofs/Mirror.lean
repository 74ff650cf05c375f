import ClassCensus.Proofs.Aliases
import ClassCensus.Proofs.Deliveries
import ClassCensus.Proofs.Observers
import ClassCensus.Snapshot

/-!
# Mirrors

An observer can keep a snapshot up to date without taking another one. It starts with
a snapshot and takes up the events it is told: `heed` says what it makes of one event,
looking at the census as it is at that moment, and `follow` goes through the signals of
a run. What it reads of the census is the row of the class that the event names and,
where counts have changed, the number of tracked objects.

The events are enough for that. A call changes one row at a time, and tells of the row
when it has changed for good. `DiffersAt d` is what there is in between, a census that
agrees with the one before but for the row of `d`. A walk up a lineage starts with such
a difference at the class of the object, and makes one at every class that it passes.
-/

namespace ClassCensus

namespace Snapshot

/-- Take up an event: list the class that was added, or read the row of the class that
changed anew, together with the number of tracked objects. -/
def heed (s : Snapshot) (e : Event) (view : Census) : Snapshot :=
  match e with
  | .adding _ => s
  | .added d => { s with rows := s.rows ++ (view.row? d).toList }
  | .changed d =>
    { tracked := view.tracked
      rows := s.rows.map fun r => if r.descriptor = d then (view.row? d).getD r else r }

def follow (id : ObserverId) (s : Snapshot) (signals : List Signal) : Snapshot :=
  (signals.filterMap Signal.delivery?).foldl
    (fun s x => if x.observer = id then s.heed x.event x.view else s) s

section Follow

variable (id : ObserverId) (s : Snapshot)

theorem follow_append (signals signals' : List Signal) :
    s.follow id (signals ++ signals') = (s.follow id signals).follow id signals' := by
  rw [follow, List.filterMap_append, List.foldl_append]
  rfl

theorem follow_log (r : LogRecord) : s.follow id [.log r] = s := rfl

theorem follow_noteAlive (c : Census) (d : Descriptor) : s.follow id (c.noteAlive d) = s := by
  unfold Census.noteAlive
  split <;> rfl

/-- What an event comes to does not depend on who else is told. -/
theorem heed_detached (e : Event) (c : Census) : s.heed e c.detached = s.heed e c := by
  cases e <;> rfl

theorem follow_deliveries_of_not_mem {ids : List ObserverId} (absent : id ∉ ids) (e : Event)
    (view : Census) : s.follow id (ids.map fun i => .delivery ⟨i, e, view⟩) = s := by
  induction ids with
  | nil => rfl
  | cons i ids ih =>
      rw [List.mem_cons, not_or] at absent
      rw [List.map_cons, ← List.singleton_append, follow_append]
      have passed : s.follow id [.delivery ⟨i, e, view⟩] = s := if_neg (Ne.symm absent.1)
      rw [passed, ih absent.2]

variable {id}

theorem follow_tell {c : Census} (numbered : c.observers.Numbered)
    (told : id ∈ c.observers.subscribed) (e : Event) :
    s.follow id (c.tell e) = s.heed e c := by
  obtain ⟨before, after, parts⟩ := List.append_of_mem told
  have distinct := numbered.nodup
  rw [parts, List.nodup_append, List.nodup_cons] at distinct
  have earlier : id ∉ before := fun mem =>
    distinct.2.2 id mem id List.mem_cons_self rfl
  have here : s.follow id [.delivery ⟨id, e, c.detached⟩] = s.heed e c.detached := if_pos rfl
  rw [Census.tell, parts, List.map_append, List.map_cons, follow_append,
    follow_deliveries_of_not_mem id s earlier, ← List.singleton_append, follow_append, here,
    follow_deliveries_of_not_mem id _ distinct.2.1.1, heed_detached]

end Follow

end Snapshot

namespace Census

theorem descriptor_of_row? {c : Census} {d : Descriptor} {r : Row} (row : c.row? d = some r) :
    r.descriptor = d := by
  obtain ⟨e, -, rfl⟩ := Option.map_eq_some_iff.mp row
  rfl

theorem row?_congr {c c' : Census} {d : Descriptor} (entry : c'.entryOf? d = c.entryOf? d)
    (parent : c'.forest.parent? d = c.forest.parent? d) (rooted : c'.isRooted d = c.isRooted d)
    (pool : c'.roster.pool? d = c.roster.pool? d) : c'.row? d = c.row? d := by
  simp only [row?, rowOf, entry, parent, rooted, pool]

structure DiffersAt (d : Descriptor) (c c' : Census) : Prop where
  order : c'.descriptors = c.descriptors
  present : (c'.row? d).isSome = (c.row? d).isSome
  others : ∀ e, e ≠ d → c'.row? e = c.row? e

namespace DiffersAt

variable {d : Descriptor} {c c' c'' : Census}

theorem refl (d : Descriptor) (c : Census) : DiffersAt d c c :=
  ⟨rfl, rfl, fun _ _ => rfl⟩

theorem trans (h : DiffersAt d c c') (h' : DiffersAt d c' c'') : DiffersAt d c c'' :=
  ⟨h'.order.trans h.order, h'.present.trans h.present, fun e other =>
    (h'.others e other).trans (h.others e other)⟩

theorem heed (h : DiffersAt d c c') : c.snapshot.heed (.changed d) c' = c'.snapshot := by
  refine Snapshot.ext rfl ?_
  change (c.descriptors.filterMap c.row?).map _ = c'.descriptors.filterMap c'.row?
  rw [h.order, List.map_filterMap]
  refine List.filterMap_congr fun e _ => ?_
  by_cases here : e = d
  · subst here
    have present := h.present
    cases old : c.row? e with
    | none =>
        rw [old, Option.isSome_none, Option.isSome_eq_false_iff, Option.isNone_iff_eq_none]
          at present
        rw [present]
        rfl
    | some r =>
        rw [old, Option.isSome_some, Option.isSome_iff_exists] at present
        obtain ⟨r', new⟩ := present
        rw [Option.map_some, if_pos (descriptor_of_row? old), new]
        rfl
  · rw [h.others e here]
    cases old : c.row? e with
    | none => rfl
    | some r =>
        have other : r.descriptor ≠ d := fun same => here (descriptor_of_row? old ▸ same)
        rw [Option.map_some, if_neg other]

end DiffersAt

theorem differsAt_adjust (c : Census) (d : Descriptor) (f : Entry → Entry) :
    DiffersAt d c (c.adjust d f) where
  order := rfl
  present := by
    simp only [row?, entryOf?_adjust, if_true, Option.isSome_map]
  others e other := by
    refine row?_congr ?_ rfl rfl rfl
    rw [entryOf?_adjust, if_neg other.symm]

theorem differsAt_enroll (c : Census) (r : Report) (k : Descriptor) :
    DiffersAt k c (c.enroll r k) := by
  refine (differsAt_adjust c k .gainOwn).trans ?_
  rw [enroll_eq]
  refine ⟨rfl, ?_, fun e other => row?_congr rfl rfl rfl ?_⟩
  · simp only [row?, Option.isSome_map]
    rfl
  · cases c.isDynamic k with
    | false => rfl
    | true =>
        simp only [if_true, Roster.pool?_enlist, if_neg other.symm]
        rfl

theorem differsAt_withdraw (c : Census) (o : Object) (k : Descriptor) :
    DiffersAt k c (c.withdraw o k) := by
  refine (differsAt_adjust c k .loseOwn).trans ?_
  rw [withdraw_eq]
  refine ⟨rfl, ?_, fun e other => row?_congr rfl rfl rfl ?_⟩
  · simp only [row?, Option.isSome_map]
    rfl
  · cases c.isDynamic k with
    | false => rfl
    | true =>
        simp only [if_true, Roster.pool?_strike_of_ne _ _ _ _ other.symm]
        rfl

section Follow

variable {id : ObserverId} {c c₁ : Census} (numbered : c₁.observers.Numbered)
  (told : id ∈ c₁.observers.subscribed)

include numbered told

/-- One class further up, the difference is made good and the next one is made. -/
theorem follow_adjust {d : Descriptor} (differs : DiffersAt d c c₁) (f : Entry → Entry) :
    c.snapshot.follow id ((c₁.adjust d f).noteAlive d ++ (c₁.adjust d f).tell (.changed d)) =
      (c₁.adjust d f).snapshot := by
  rw [Snapshot.follow_append, Snapshot.follow_noteAlive,
    Snapshot.follow_tell _ (c := c₁.adjust d f) numbered told]
  exact (differs.trans (differsAt_adjust c₁ d f)).heed

theorem follow_sweep (f : Entry → Entry) (ds : List Descriptor) :
    c₁.snapshot.follow id (sweep f c₁ ds).2 = (sweep f c₁ ds).1.snapshot := by
  induction ds generalizing c₁ with
  | nil => rfl
  | cons d ds ih =>
      rw [sweep_cons, Snapshot.follow_append,
        follow_adjust numbered told (.refl d c₁) f]
      exact @ih (c₁.adjust d f) numbered told

theorem follow_sweep_of_differsAt {k : Descriptor} (differs : DiffersAt k c c₁)
    (f : Entry → Entry) (above : List Descriptor) :
    c.snapshot.follow id (sweep f c₁ (k :: above)).2 =
      (sweep f c₁ (k :: above)).1.snapshot := by
  rw [sweep_cons, Snapshot.follow_append, follow_adjust numbered told differs f]
  exact @follow_sweep id (c₁.adjust k f) numbered told f above

end Follow

section Enter

variable {c : Census} {host : Host} {merge : Bool} {s : Sighting} {p : Option Descriptor}

theorem tracked_enter (c : Census) (s : Sighting) (p : Option Descriptor) (kind : Kind) :
    (c.enter s p kind).census.tracked = c.tracked := by
  cases dynamic : kind.isDynamic <;> simp only [enter, dynamic] <;> rfl

theorem Fits.row?_of_contains (fits : c.Fits host merge s p) (coherent : c.Coherent)
    {d : Descriptor} (known : c.contains d = true) :
    (c.enter s p (Kind.of s.info.readOnly merge)).census.row? d = c.row? d := by
  have other : s.descriptor ≠ d := by
    intro same
    rw [← same, fits.fresh] at known
    cases known
  refine row?_congr ?_ ?_ ?_ ?_
  · rw [entryOf?_enter, if_neg other]
  · rw [forest_enter, Forest.parent?_grow, if_neg other]
  · rw [isRooted, isRooted, Forest.inherits, Forest.inherits,
      fits.lineage_of_contains coherent known, forest_enter, Forest.contains_grow,
      show c.forest.contains d = true from known, Bool.or_true]
    rfl
  · rw [pool?_enter, if_neg fun opened => other opened.2]

/-- Nothing but the new row is added when a class is entered. -/
theorem Fits.snapshot_enter (fits : c.Fits host merge s p) (coherent : c.Coherent) :
    c.snapshot.heed (.added s.descriptor)
        (c.enter s p (Kind.of s.info.readOnly merge)).census =
      (c.enter s p (Kind.of s.info.readOnly merge)).census.snapshot := by
  have older : c.descriptors.filterMap (c.enter s p (Kind.of s.info.readOnly merge)).census.row? =
      c.descriptors.filterMap c.row? :=
    List.filterMap_congr fun d listed =>
      fits.row?_of_contains coherent ((coherent.sound.mem_order d).mp listed)
  refine Snapshot.ext (tracked_enter c s p _).symm ?_
  simp only [snapshot, Snapshot.heed, descriptors_enter, List.filterMap_append, older]
  rfl

end Enter

section Follow

variable {id : ObserverId} {host : Host} {c c' : Census} {h : List Admission}
  {signals : List Signal}

theorem Fits.follow {merge : Bool} {s : Sighting} {p : Option Descriptor}
    (fits : c.Fits host merge s p) (coherent : c.Coherent) (numbered : c.observers.Numbered)
    (told : id ∈ c.observers.subscribed) :
    c.snapshot.follow id (c.enter s p (Kind.of s.info.readOnly merge)).signals =
      (c.enter s p (Kind.of s.info.readOnly merge)).census.snapshot := by
  -- what is seen before the class is listed does not matter
  rw [signals_enter, Snapshot.follow_append, Snapshot.follow_log, Snapshot.follow_append,
    Snapshot.follow_tell _ (c := c.acquaint s p (Kind.of s.info.readOnly merge)) numbered told]
  refine (Snapshot.follow_tell _ ?_ ?_ _).trans (fits.snapshot_enter coherent)
  · exact numbered
  · exact told

/-- After each move, an observer that is told of it has the snapshot of what came of it.
-/
theorem Move.follow (move : Move host c h signals c') (coherent : c.Coherent)
    (numbered : c.observers.Numbered) (told : id ∈ c.observers.subscribed) :
    c.snapshot.follow id signals = c'.snapshot := by
  cases move with
  | note => rfl
  | enter fits => exact fits.follow coherent numbered told
  | @receive _ r k new stands =>
      have enrolled : (c.enroll r k).observers = c.observers := by
        rw [enroll_eq]
        rfl
      exact follow_sweep_of_differsAt (enrolled ▸ numbered) (enrolled ▸ told)
        (differsAt_enroll c r k) .gainInclusive (c.forest.ancestors k)
  | @dismiss _ o k held =>
      have withdrawn : (c.withdraw o k).observers = c.observers := by
        rw [withdraw_eq]
        rfl
      exact follow_sweep_of_differsAt (withdrawn ▸ numbered) (withdrawn ▸ told)
        (differsAt_withdraw c o k) .loseInclusive (c.forest.ancestors k)
  | subscribe => rfl
  | unsubscribe => rfl

/-- What a mirror relies on from one move to the next. An observer that has gone is not
told any more, so nothing is said of what it has. -/
structure Mirrored (start : Snapshot) (id : ObserverId) (signals : List Signal) (c : Census) :
    Prop where
  numbered : c.observers.Numbered
  issued : id.number < c.observers.issued
  follow_eq : id ∈ c.observers.subscribed → start.follow id signals = c.snapshot

theorem Move.mirrored {start : Snapshot} {signals' : List Signal}
    (move : Move host c h signals' c') (coherent : c.Coherent)
    (before : c.Mirrored start id signals) : c'.Mirrored start id (signals ++ signals') where
  numbered := move.numbered before.numbered
  issued := Nat.lt_of_lt_of_le before.issued move.precedes.issued_le
  follow_eq still := by
    have told := move.precedes.mem_of_mem id before.issued still
    rw [Snapshot.follow_append, before.follow_eq told]
    exact move.follow coherent before.numbered told

end Follow

/-- An observer that starts with a snapshot and follows what it is told has the snapshot
that would be taken now, after every run that leaves it subscribed. Every run does so but
for those that ask it to go. -/
theorem follow_performAll {c : Census} (reach : c.Reachable) {id : ObserverId}
    (subscribed : id ∈ c.observers.subscribed) (run : List Occasion) :
    (id ∈ (c.performAll run).census.observers.subscribed →
        c.snapshot.follow id (c.performAll run).signals = (c.performAll run).census.snapshot) ∧
      ((∀ q ∈ run, q.call ≠ .unsubscribe id) →
        id ∈ (c.performAll run).census.observers.subscribed) := by
  have numbered := reach.numbered
  have start : c.Mirrored c.snapshot id [] :=
    ⟨numbered, numbered.issued id subscribed, fun _ => rfl⟩
  have mirrored := (performAll_keeps_signals (P := fun signals c' =>
      c'.Mirrored c.snapshot id signals)
    (fun _ _ _ _ _ _ consistent before move => move.mirrored consistent.toCoherent before) []
    run reach.consistent start).2
  exact ⟨mirrored.follow_eq, mem_subscribed_performAll reach.consistent subscribed run⟩

section Watched

def watched : Census :=
  ((blank ⟨8, false, true⟩ ⟨0⟩ ⟨1⟩).performAll [⟨.subscribe, ⟨0⟩, regenerated.toHost⟩]).census

/-- Objects of classes that are merged come and go, a call is refused, one fails, and
another observer comes and goes. -/
def watchedRun : List Occasion :=
  regeneratedRun ++ [.subscribe, .unsubscribe ⟨1⟩, .destroy ⟨11⟩, .destroy ⟨11⟩,
    .register ⟨9⟩ false].map (⟨·, ⟨0⟩, regenerated.toHost⟩) ++
    [⟨.destroy ⟨13⟩, ⟨7⟩, regenerated.toHost⟩]

theorem follow_performAll_watched :
    watched.Reachable ∧ ⟨0⟩ ∈ watched.observers.subscribed ∧
      ⟨0⟩ ∈ (watched.performAll watchedRun).census.observers.subscribed ∧
      (watched.performAll watchedRun).census.snapshot.rows.map
        (fun r => (r.descriptor, r.inclusive, r.liveInstances)) =
          [(⟨1⟩, ⟨4, 2⟩, 0), (⟨5⟩, ⟨4, 2⟩, 2)] ∧
      watched.snapshot.follow ⟨0⟩ (watched.performAll watchedRun).signals =
        (watched.performAll watchedRun).census.snapshot := by
  have reach : watched.Reachable :=
    ⟨regenerated.toHost, ⟨8, false, true⟩, ⟨0⟩, _, _, trivial, rfl, fun _ _ => trivial, rfl⟩
  have subscribed : ⟨0⟩ ∈ watched.observers.subscribed := by decide +kernel
  have still : ⟨0⟩ ∈ (watched.performAll watchedRun).census.observers.subscribed := by
    decide +kernel
  exact ⟨reach, subscribed, still, by decide +kernel,
    (follow_performAll reach subscribed watchedRun).1 still⟩

end Watched

end Census

end ClassCensus
