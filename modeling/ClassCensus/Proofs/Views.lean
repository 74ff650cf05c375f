import ClassCensus.Proofs.Aliases
import ClassCensus.Proofs.Counting
import ClassCensus.Proofs.Deliveries
import ClassCensus.Proofs.Permanence

/-!
# In the middle of a call

An observer is told between the single changes of a call, so it does not see what holds
between two calls. A class that is known and not listed yet has a parent, but it is no
child of it. On the way up from the class of an object, the classes that the walk has
not come to still have their old counts.

What is seen nevertheless obeys laws, and they are stated here for each kind of event.
`Shows` tells the moments apart, with what has been done by then and what is still to
come; it is the one place where the views of a call are taken apart. At the first kind
of moment the list is of no use to say what is below a class, so `AddsUp` goes by what
the children reach. `Midway` says by how much the counts lag behind, and where.
-/

namespace ClassCensus

open Relation

namespace Census

/-- The own tallies of the classes that the children reach from `d` add up to `t`. -/
def AddsUp (c : Census) (d : Descriptor) (t : Tally) : Prop :=
  ∃ s : Finset Descriptor, (∀ x, x ∈ s ↔ ReflTransGen c.forest.IsChild d x) ∧
    ∑ x ∈ s, c.ownOf x = t

theorem AddsUp.congr {c c' : Census} {d : Descriptor} {t : Tally} (adds : c.AddsUp d t)
    (children : c'.forest.IsChild = c.forest.IsChild) (own : ∀ x, c'.ownOf x = c.ownOf x) :
    c'.AddsUp d t := by
  obtain ⟨s, reached, sum⟩ := adds
  refine ⟨s, fun x => ?_, ?_⟩
  · rw [children, reached]
  · rw [Finset.sum_congr rfl fun x _ => own x, sum]

/-- Between two steps the inclusive tallies are what they should be. -/
theorem Counted.addsUp {h : List Admission} {c : Census} (counted : c.Counted h)
    (coherent : c.Coherent) {d : Descriptor} {e : Entry} (entry : c.entryOf? d = some e) :
    c.AddsUp d e.inclusive := by
  have known := (coherent.contains_iff d).mpr ⟨e, entry⟩
  exact ⟨c.forest.subtree d, fun _ => coherent.sound.mem_subtree_iff_reaches known,
    (counted.inclusive d e entry).symm⟩

structure Reckoned (h : List Admission) (c : Census) (d : Descriptor) (e : Entry) : Prop where
  own_total : e.own.total = h.countP fun a => decide (a.counted = d)
  own_alive : e.own.alive = (c.roster.under d).card
  inclusive : c.AddsUp d e.inclusive
  own_alive_le : e.own.alive ≤ e.own.total
  inclusive_alive_le : e.inclusive.alive ≤ e.inclusive.total
  own_total_le : e.own.total ≤ e.inclusive.total
  inclusive_total_le : e.inclusive.total ≤ h.length

/-- What is seen when the class `d` is known and not listed yet. The call leaves the
census `after`, and `h` is the history before the call. What the count laws say of a
destruction is left out, since nothing can be called at this moment. -/
structure AddingLaws (h : List Admission) (d : Descriptor) (view after : Census) : Prop where
  entry : ∃ e, view.entryOf? d = some e ∧ e.own = 0 ∧ e.inclusive = 0 ∧ e.stale = false
  known : view.contains d = true
  parent_final : ∀ run,
    (after.performAll run).census.forest.parent? d = view.forest.parent? d
  parent_listed : ∀ p, view.forest.parent? d = some p → p ∈ view.descriptors
  not_listed : d ∉ view.descriptors
  no_child : ∀ p, d ∉ (view.forest.childrenOf p).toList
  no_root : d ∉ view.forest.roots.toList
  reckoned : ∀ y, view.contains y = true →
    ∃ e, view.entryOf? y = some e ∧ view.Reckoned h y e
  own_alive_pos : ∀ o k, view.roster.classOf? o = some k →
    ∃ e, view.entryOf? k = some e ∧ 0 < e.own.alive
  inclusive_alive_pos : ∀ o k, view.roster.classOf? o = some k →
    ∀ y ∈ view.forest.lineage k, ∃ e, view.entryOf? y = some e ∧ 0 < e.inclusive.alive

structure AddedLaws (h : List Admission) (d : Descriptor) (view : Census) : Prop where
  listed : d ∈ view.descriptors
  forestLaws : view.ForestLaws
  countLaws : view.CountLaws h
  poolLaws : view.PoolLaws h

/-- What is seen when a walk up has come to the class `d`. Above `d` the inclusive tallies
are still too small by `short` and too large by `long`, and all else is as in the census
`after` the walk. -/
structure Midway (short long : Tally) (d : Descriptor) (view after : Census) : Prop where
  forest : view.forest = after.forest
  roster : view.roster = after.roster
  own : ∀ y, view.ownOf y = after.ownOf y
  inclusive : ∀ y, view.contains y = true → ∃ e t, view.entryOf? y = some e ∧
    view.AddsUp y t ∧
    e.inclusive + (if y ∈ view.forest.ancestors d then short else 0) =
      t + if y ∈ view.forest.ancestors d then long else 0

inductive ChangedLaws (c : Census) (q : Occasion) (d : Descriptor) (view : Census) :
    Answer → Census → Prop
  | constructed {r : Report} {k : Descriptor} {after : Census} (call : q.call = .construct r)
    (new : c.roster.classOf? r.object = none) (above : d ∈ view.forest.lineage k)
    (tracked : view.roster.classOf? r.object = some k) (midway : Midway ⟨1, 1⟩ 0 d view after) :
    ChangedLaws c q d view (.standsUnder (.ok k)) after
  | destroyed {o : Object} {k : Descriptor} {after : Census} (call : q.call = .destroy o)
    (held : c.roster.classOf? o = some k) (above : d ∈ view.forest.lineage k)
    (untracked : view.roster.classOf? o = none) (midway : Midway 0 ⟨0, 1⟩ d view after) :
    ChangedLaws c q d view (.destroyed .released) after

/-- The moments at which an observer is told of something during the call `q` in the
census `c`, with the event, what is seen and what the call leaves behind. -/
inductive Shows (c : Census) (q : Occasion) : Event → Census → Answer → Census → Prop
  | adding {c₁ after : Census} {merge : Bool} {s : Sighting} {p : Option Descriptor}
    {h : List Admission} {answer : Answer} (before : Steps q.host c [] c₁)
    (fits : c₁.Fits q.host merge s p)
    (rest : Steps q.host (c₁.enter s p (Kind.of s.info.readOnly merge)).census h after) :
    Shows c q (.adding s.descriptor)
      (c₁.acquaint s p (Kind.of s.info.readOnly merge)).detached answer after
  | added {c₁ after : Census} {merge : Bool} {s : Sighting} {p : Option Descriptor}
    {answer : Answer} (before : Steps q.host c [] c₁) (fits : c₁.Fits q.host merge s p) :
    Shows c q (.added s.descriptor)
      (c₁.enter s p (Kind.of s.info.readOnly merge)).census.detached answer after
  | constructed {c₁ : Census} {r : Report} {k d : Descriptor} {near far : List Descriptor}
    (call : q.call = .construct r) (new : c.roster.classOf? r.object = none)
    (before : Steps q.host c [] c₁) (new₁ : c₁.roster.classOf? r.object = none)
    (stands : c₁.StandsFor q.host r.generated r.descriptor k)
    (parts : c₁.forest.lineage k = near ++ d :: far) :
    Shows c q (.changed d) (sweep .gainInclusive (c₁.enroll r k) (near ++ [d])).1.detached
      (.standsUnder (.ok k)) (c₁.receive r k)
  | destroyed {o : Object} {k d : Descriptor} {near far : List Descriptor}
    (call : q.call = .destroy o) (held : c.roster.classOf? o = some k)
    (parts : c.forest.lineage k = near ++ d :: far) :
    Shows c q (.changed d) (sweep .loseInclusive (c.withdraw o k) (near ++ [d])).1.detached
      (.destroyed .released) (c.dismiss o k)

theorem Advances.shows {q : Occasion} {merge : Bool} {c c' after : Census}
    {signals : List Signal} (advances : Advances q.host merge c signals c')
    {h : List Admission} (rest : Steps q.host c' h after) (answer : Answer) {x : Delivery}
    (told : .delivery x ∈ signals) : Shows c q x.event x.view answer after := by
  induction advances generalizing h with
  | refl => exact absurd told List.not_mem_nil
  | note before r ih =>
      rcases List.mem_append.mp told with early | record
      · exact ih rest early
      · cases List.mem_singleton.mp record
  | @enter c' signals s p before fits ih =>
      rcases List.mem_append.mp told with early | late
      · have entered : Steps q.host c' _ _ := .tail .refl (.enter (.intro fits))
        exact ih (entered.trans rest) early
      · obtain ⟨_, ⟨event, view⟩ | ⟨event, view⟩⟩ := mem_signals_enter.mp late
        · rw [event, view]
          exact .adding before.grows.steps fits rest
        · rw [event, view]
          exact .added before.grows.steps fits

/-- Whatever an observer is told of during a call comes at one of these moments. -/
theorem perform_shows {c : Census} (consistent : c.Consistent) (q : Occasion) {x : Delivery}
    (told : .delivery x ∈ (c.perform q.host q.thread q.call).signals) :
    Shows c q x.event x.view (c.perform q.host q.thread q.call).answer
      (c.perform q.host q.thread q.call).census := by
  have goes := perform_goes consistent q
  generalize c.admission? q = a, c.perform q.host q.thread q.call = o at goes told
  cases goes with
  | refused => exact absurd told List.not_mem_nil
  | failed => exact absurd told List.not_mem_nil
  | registered h => exact (register_advances h).1.shows (q := ⟨_, _, _⟩) .refl _ told
  | @surveyed _ host => exact (survey_advances c host).shows (q := ⟨_, _, _⟩) .refl _ told
  | repeated => cases List.mem_singleton.mp told
  | @constructed r _ _ o new h =>
      obtain ⟨advances, stands, _⟩ := register_advances h
      have new₁ : o.census.roster.classOf? r.object = none := by
        rw [advances.grows.classOf?, new]
      rcases List.mem_append.mp told with early | late
      · exact advances.shows (q := ⟨_, _, _⟩) (.tail .refl (.receive new₁ stands)) _ early
      · obtain ⟨_, near, d, far, parts, event, view⟩ := mem_signals_sweep.mp late
        rw [event, view]
        exact .constructed rfl new advances.grows.steps new₁ stands parts
  | untracked => cases List.mem_singleton.mp told
  | released held =>
      obtain ⟨_, near, d, far, parts, event, view⟩ := mem_signals_sweep.mp told
      rw [event, view]
      exact .destroyed rfl held parts
  | subscribed => exact absurd told List.not_mem_nil
  | unsubscribed => exact absurd told List.not_mem_nil

section Adding

variable {host : Host} {merge : Bool} {c : Census} {h : List Admission} {s : Sighting}
  {p : Option Descriptor} (fits : c.Fits host merge s p) (consistent : c.Consistent)
  (counted : c.Counted h)

include fits consistent counted

/-- The sums over what the children reach are right for the class that is not listed,
too. -/
theorem Fits.addsUp {y : Descriptor} {e : Entry}
    (entry : (c.acquaint s p (Kind.of s.info.readOnly merge)).detached.entryOf? y = some e) :
    (c.acquaint s p (Kind.of s.info.readOnly merge)).detached.AddsUp y e.inclusive := by
  have own (x : Descriptor) :
      (c.acquaint s p (Kind.of s.info.readOnly merge)).detached.ownOf x = c.ownOf x :=
    (Enters.intro fits).ownOf consistent.toCoherent x
  have entry' : (c.enter s p (Kind.of s.info.readOnly merge)).census.entryOf? y = some e := entry
  rw [entryOf?_enter] at entry'
  by_cases here : s.descriptor = y
  · rw [if_pos here] at entry'
    cases entry'
    have nothing : c.ownOf y = 0 := by
      rw [ownOf, ← here, (consistent.not_contains_iff s.descriptor).mp fits.fresh]
      rfl
    refine ⟨{y}, fun x => ?_, ?_⟩
    · rw [Finset.mem_singleton]
      exact (consistent.sound.reaches_of_not_contains (here ▸ fits.fresh)).symm
    · rw [Finset.sum_singleton, own, nothing]
      rfl
  · rw [if_neg here] at entry'
    exact (counted.addsUp consistent.toCoherent entry').congr rfl own

/-- The entries and the roster are already what they are when the class is listed. -/
theorem Fits.reckoned {y : Descriptor} {e : Entry}
    (entry : (c.acquaint s p (Kind.of s.info.readOnly merge)).detached.entryOf? y = some e) :
    (c.acquaint s p (Kind.of s.info.readOnly merge)).detached.Reckoned h y e := by
  have entered : Enters host merge c _ := .intro fits
  have tallied := (counted.enters consistent.toCoherent entered).tallied
    (consistent.enters entered) entry
  exact
  { own_total := tallied.own_total
    own_alive := tallied.own_alive
    inclusive := fits.addsUp consistent counted entry
    own_alive_le := tallied.own_alive_le
    inclusive_alive_le := tallied.inclusive_alive_le
    own_total_le := tallied.own_total_le
    inclusive_total_le := tallied.inclusive_total_le }

theorem Fits.addingLaws {after : Census} {h' : List Admission}
    (rest : Steps host (c.enter s p (Kind.of s.info.readOnly merge)).census h' after) :
    AddingLaws h s.descriptor (c.acquaint s p (Kind.of s.info.readOnly merge)).detached
      after := by
  have coherent := consistent.toCoherent
  have entered : Enters host merge c _ := .intro fits
  have consistent' := consistent.enters entered
  have known := contains_enter_self c s p (Kind.of s.info.readOnly merge)
  have entry : (c.enter s p (Kind.of s.info.readOnly merge)).census.entryOf? s.descriptor =
      some (.fresh s.info.className (Kind.of s.info.readOnly merge)) := by
    rw [entryOf?_enter, if_pos rfl]
  have parent : (c.forest.link s.descriptor p).parent? s.descriptor = p := by
    rw [Forest.parent?_link, if_pos rfl]
  have classOf? (o : Object) :
      (c.acquaint s p (Kind.of s.info.readOnly merge)).detached.roster.classOf? o =
        c.roster.classOf? o := entered.classOf? o
  exact
  { entry := ⟨_, entry, rfl, rfl, rfl⟩
    known := (contains_acquaint ..).trans known
    parent_final run := by
      have listed := Endures.of_steps consistent' rest
      have later := Endures.of_performAll (rest.consistent consistent') run
      rw [(listed.trans later).parent s.descriptor known, forest_enter, Forest.parent?_grow,
        if_pos rfl]
      exact parent.symm
    parent_listed q extended := by
      have above : p = some q := parent.symm.trans extended
      exact (consistent.sound.mem_order q).mpr (fits.parent_contains coherent q above)
    not_listed := consistent.sound.not_mem_of_fresh fits.fresh
    no_child q := consistent.sound.not_mem_below_of_fresh fits.fresh (some q)
    no_root := consistent.sound.not_mem_below_of_fresh fits.fresh none
    reckoned y here := by
      have here' := (contains_acquaint c s p (Kind.of s.info.readOnly merge) y).symm.trans here
      obtain ⟨e, entry⟩ := (consistent'.contains_iff y).mp here'
      exact ⟨e, entry, fits.reckoned consistent counted entry⟩
    own_alive_pos o k held := by
      rw [classOf?] at held
      obtain ⟨e, entry, alive⟩ := consistent.counted held
      exact ⟨e, entered.entryOf? coherent entry, Nat.pos_of_ne_zero alive⟩
    inclusive_alive_pos o k held y above := by
      rw [classOf?] at held
      have lineage := (lineage_acquaint c s p (Kind.of s.info.readOnly merge) k).trans
        (fits.lineage_of_contains coherent (consistent.tracked_known o k held) _)
      obtain ⟨e, entry, alive⟩ := counted.inclusive_alive_pos consistent held (lineage ▸ above)
      exact ⟨e, entered.entryOf? coherent entry, alive⟩ }

end Adding

section Walk

variable {h : List Admission} {f : Entry → Entry} {c : Census} {d : Descriptor}
  {short long : Tally}

theorem ownOf_sweep {ds : List Descriptor} (distinct : ds.Nodup)
    (own : ∀ e, (f e).own = e.own) (y : Descriptor) : (sweep f c ds).1.ownOf y = c.ownOf y := by
  rw [ownOf, ownOf, entryOf?_sweep distinct]
  split_ifs
  · rw [Option.map_map]
    exact congrArg (fun g => ((c.entryOf? y).map g).getD 0) (funext own)
  · rfl

/-- Where the rest of a walk makes up for what is missing above `d`, a census that is
right after the walk is seen midway. -/
theorem midway_of_sweep
    (consistent : (sweep f c (c.forest.ancestors d)).1.Consistent)
    (counted : (sweep f c (c.forest.ancestors d)).1.Counted h)
    (own : ∀ e, (f e).own = e.own)
    (lags : ∀ y ∈ c.forest.ancestors d, ∀ e, c.entryOf? y = some e →
      e.inclusive + short = (f e).inclusive + long) :
    Midway short long d c.detached (sweep f c (c.forest.ancestors d)).1 := by
  have forest : (sweep f c (c.forest.ancestors d)).1.forest = c.forest := by
    rw [sweep_fst]
  have roster : (sweep f c (c.forest.ancestors d)).1.roster = c.roster := by
    rw [sweep_fst]
  have distinct : (c.forest.ancestors d).Nodup :=
    (List.nodup_cons.mp (forest ▸ consistent.sound.lineage_nodup d)).2
  have ownOf (y : Descriptor) : c.ownOf y = (sweep f c (c.forest.ancestors d)).1.ownOf y :=
    (ownOf_sweep distinct own y).symm
  refine ⟨forest.symm, roster.symm, ownOf, fun y known => ?_⟩
  have known' : (sweep f c (c.forest.ancestors d)).1.contains y = true := by
    rw [contains, forest]
    exact known
  obtain ⟨e', entry'⟩ := (consistent.contains_iff y).mp known'
  have adds : c.detached.AddsUp y e'.inclusive :=
    (counted.addsUp consistent.toCoherent entry').congr
      (congrArg Forest.IsChild forest.symm) ownOf
  rw [entryOf?_sweep distinct] at entry'
  change ∃ e t, c.entryOf? y = some e ∧ c.detached.AddsUp y t ∧
    e.inclusive + (if y ∈ c.forest.ancestors d then short else 0) =
      t + if y ∈ c.forest.ancestors d then long else 0
  by_cases above : y ∈ c.forest.ancestors d
  · rw [if_pos above, Option.map_eq_some_iff] at entry'
    obtain ⟨e, entry, rfl⟩ := entry'
    rw [if_pos above, if_pos above]
    exact ⟨e, _, entry, adds, lags y above e entry⟩
  · rw [if_neg above] at entry'
    rw [if_neg above, if_neg above]
    exact ⟨e', _, entry', adds, rfl⟩

variable {k : Descriptor} {near far : List Descriptor}

/-- A walk that counts a new object is seen to have counted too little above `d`. -/
theorem midway_receive {r : Report} (consistent : (c.receive r k).Consistent)
    (counted : (c.receive r k).Counted h) (parts : c.forest.lineage k = near ++ d :: far) :
    Midway ⟨1, 1⟩ 0 d (sweep .gainInclusive (c.enroll r k) (near ++ [d])).1.detached
      (c.receive r k) := by
  have sound : c.forest.Sound := forest_receive c r k ▸ consistent.sound
  have forest : (sweep .gainInclusive (c.enroll r k) (near ++ [d])).1.forest = c.forest := by
    rw [sweep_fst, enroll_eq]
    rfl
  have rest : c.receive r k = (sweep .gainInclusive
      (sweep .gainInclusive (c.enroll r k) (near ++ [d])).1
      ((sweep .gainInclusive (c.enroll r k) (near ++ [d])).1.forest.ancestors d)).1 := by
    rw [forest, sound.ancestors_of_lineage parts, receive, parts, List.append_cons, sweep_append]
  rw [rest] at consistent counted ⊢
  exact midway_of_sweep consistent counted (fun _ => rfl) fun _ _ _ _ => rfl

theorem midway_dismiss {o : Object} (consistent : c.Consistent) (counted : c.Counted h)
    (held : c.roster.classOf? o = some k) (parts : c.forest.lineage k = near ++ d :: far) :
    Midway 0 ⟨0, 1⟩ d (sweep .loseInclusive (c.withdraw o k) (near ++ [d])).1.detached
      (c.dismiss o k) := by
  have consistent' := consistent.dismiss held
  have counted' := counted.dismiss consistent held
  have distinct := consistent.sound.lineage_nodup k
  have forest : (sweep .loseInclusive (c.withdraw o k) (near ++ [d])).1.forest = c.forest := by
    rw [sweep_fst, withdraw_eq]
    rfl
  have ancestors := consistent.sound.ancestors_of_lineage parts
  have rest : c.dismiss o k = (sweep .loseInclusive
      (sweep .loseInclusive (c.withdraw o k) (near ++ [d])).1
      ((sweep .loseInclusive (c.withdraw o k) (near ++ [d])).1.forest.ancestors d)).1 := by
    rw [forest, ancestors, dismiss, parts, List.append_cons, sweep_append]
  rw [rest] at consistent' counted' ⊢
  refine midway_of_sweep consistent' counted' (fun _ => rfl) fun y above e entry => ?_
  rw [forest, ancestors] at above
  have onward : y ∈ c.forest.lineage k := by
    rw [parts]
    exact List.mem_append_right _ (List.mem_cons_of_mem _ above)
  rw [parts, List.append_cons] at distinct
  obtain ⟨visited, -, apart⟩ := List.nodup_append.mp distinct
  have ahead : y ∉ near ++ [d] := fun behind => apart y behind y above rfl
  -- nothing has been discounted above `d`, so the object is still counted there
  rw [entryOf?_sweep_of_adjusted (entryOf?_withdraw c o k) visited,
    Option.map_eq_some_iff] at entry
  obtain ⟨e, entry, rfl⟩ := entry
  obtain ⟨e', entry', alive⟩ := counted.inclusive_alive_pos consistent held onward
  cases entry.symm.trans entry'
  rw [recount_lose, if_neg ahead]
  exact (Tally.lose_add alive.ne').symm

end Walk

structure ViewLaws (h : List Admission) (c : Census) (q : Occasion) (x : Delivery) : Prop where
  adding : ∀ d, x.event = .adding d →
    AddingLaws h d x.view (c.perform q.host q.thread q.call).census
  added : ∀ d, x.event = .added d → AddedLaws h d x.view
  changed : ∀ d, x.event = .changed d →
    ChangedLaws c q d x.view (c.perform q.host q.thread q.call).answer
      (c.perform q.host q.thread q.call).census

section Shows

variable {h : List Admission} {c after : Census} {q : Occasion} {d : Descriptor} {view : Census}
  {answer : Answer}

theorem Shows.steps (shown : Shows c q (.added d) view answer after) :
    Steps q.host c [] view ∧ view.contains d = true := by
  cases shown with
  | @added c₁ _ merge s p _ before fits =>
      have entered : Steps q.host c [] _ := before.tail (.enter (.intro fits))
      exact ⟨entered.tail (.audience _ .nobody), contains_enter_self ..⟩

variable (consistent : c.Consistent) (counted : c.Counted h)

include consistent counted

theorem Shows.addingLaws (shown : Shows c q (.adding d) view answer after) :
    AddingLaws h d view after := by
  cases shown with
  | adding before fits rest =>
      obtain ⟨consistent', counted'⟩ := before.counted consistent counted
      rw [List.append_nil] at counted'
      exact fits.addingLaws consistent' counted' rest

theorem Shows.addedLaws (pooled : c.Pooled h) (shown : Shows c q (.added d) view answer after) :
    AddedLaws h d view := by
  obtain ⟨steps, known⟩ := shown.steps
  obtain ⟨consistent', counted'⟩ := steps.counted consistent counted
  have pooled' := (steps.pooled consistent pooled).2
  rw [List.append_nil] at counted' pooled'
  exact ⟨(consistent'.sound.mem_order d).mpr known, consistent'.toCoherent.forestLaws,
    counted'.countLaws consistent', pooled'.poolLaws consistent'⟩

theorem Shows.changedLaws (shown : Shows c q (.changed d) view answer after) :
    ChangedLaws c q d view answer after := by
  cases shown with
  | @constructed c₁ r k _ near far call new before new₁ stands parts =>
      obtain ⟨consistent₁, counted₁⟩ := before.counted consistent counted
      have known := stands.contains consistent₁.toCoherent
      have midway := midway_receive (consistent₁.receive new₁ known)
        (counted₁.receive consistent₁ r known) parts
      refine .constructed call new ?_ ?_ midway
      · rw [midway.forest, forest_receive, parts]
        exact List.mem_append_right _ List.mem_cons_self
      · rw [midway.roster, classOf?_receive, if_pos rfl]
  | @destroyed o k _ near far call held parts =>
      have midway := midway_dismiss consistent counted held parts
      refine .destroyed call held ?_ ?_ midway
      · rw [midway.forest, forest_dismiss, parts]
        exact List.mem_append_right _ List.mem_cons_self
      · rw [midway.roster, classOf?_dismiss, if_pos rfl]

end Shows

/-- Whatever the hosts report and whichever calls came before, what an observer sees at
each moment of a call is what the laws of this moment say. -/
theorem viewLaws_of_run {host : Host} {settings : Settings} {owner : Thread} {c : Census}
    (opened : (establish host settings owner).1 = .ok c) (run : List Occasion) (q : Occasion)
    {x : Delivery}
    (told : .delivery x ∈ ((c.performAll run).census.perform q.host q.thread q.call).signals) :
    ViewLaws (c.admissions run) (c.performAll run).census q x ∧
      ∀ M, host.Tells M → (∀ q' ∈ q :: run, q'.host.Tells M) → ∀ d, x.event = .added d →
        x.view.AliasLaws := by
  obtain ⟨consistent, counted⟩ := counted_of_run opened run
  have pooled := (pooled_of_run opened run).2
  have shown := perform_shows consistent q told
  refine ⟨⟨fun d event => ?_, fun d event => ?_, fun d event => ?_⟩,
    fun M told tells d event => ?_⟩
  · exact (event ▸ shown).addingLaws consistent counted
  · exact (event ▸ shown).addedLaws consistent counted pooled
  · exact (event ▸ shown).changedLaws consistent counted
  · have steps := (event ▸ shown : Shows _ _ (.added d) _ _ _).steps.1
    have tells' := List.forall_mem_cons.mp tells
    have orderly := (orderly_of_run opened told tells'.2).2
    obtain ⟨consistent', orderly'⟩ := steps.orderly tells'.1 consistent orderly
    exact orderly'.aliasLaws consistent'.toCoherent

section Glimpse

def climbSeen (x : Delivery) : List (Option Tally) :=
  [⟨3⟩, ⟨2⟩, ⟨1⟩].map fun d => (x.view.entryOf? d).map Entry.inclusive

/-- An object of 3 comes and goes while somebody watches. The class 3 is known before it
is listed, and halfway up the root has the old counts. -/
theorem viewLaws_crowd :
    let c := blank ⟨8, false, true⟩ ⟨0⟩ ⟨1⟩
    let watch : Occasion := ⟨.subscribe, ⟨0⟩, crowd.toHost⟩
    let come : Occasion := ⟨.construct ⟨⟨10⟩, ⟨3⟩, true⟩, ⟨0⟩, crowd.toHost⟩
    let go : Occasion := ⟨.destroy ⟨10⟩, ⟨0⟩, crowd.toHost⟩
    let told (run : List Occasion) (q : Occasion) (x : Delivery) : Prop :=
      .delivery x ∈ ((c.performAll run).census.perform q.host q.thread q.call).signals
    let laws (run : List Occasion) (q : Occasion) (x : Delivery) : Prop :=
      ViewLaws (c.admissions run) (c.performAll run).census q x
    (establish crowd.toHost ⟨8, false, true⟩ ⟨0⟩).1 = .ok c ∧
      (∃ x, told [watch] come x ∧ x.event = .adding ⟨3⟩ ∧ x.view.contains ⟨3⟩ = true ∧
        x.view.descriptors = [⟨1⟩, ⟨2⟩] ∧ laws [watch] come x) ∧
      (∃ x, told [watch] come x ∧ x.event = .changed ⟨2⟩ ∧
        climbSeen x = [some ⟨1, 1⟩, some ⟨1, 1⟩, some ⟨0, 0⟩] ∧ laws [watch] come x) ∧
      ∃ x, told [watch, come] go x ∧ x.event = .changed ⟨2⟩ ∧
        climbSeen x = [some ⟨1, 0⟩, some ⟨1, 0⟩, some ⟨1, 1⟩] ∧ laws [watch, come] go x := by
  intro c watch come go told laws
  have opened : (establish crowd.toHost ⟨8, false, true⟩ ⟨0⟩).1 = .ok c := rfl
  have among (run : List Occasion) (q : Occasion) (P : Delivery → Prop)
      (seen : ∃ x ∈ ((c.performAll run).census.perform q.host q.thread
        q.call).signals.filterMap Signal.delivery?, P x) : ∃ x, told run q x ∧ P x := by
    obtain ⟨x, member, holds⟩ := seen
    exact ⟨x, Signal.mem_deliveries.mp member, holds⟩
  obtain ⟨x, told₁, event₁, known, listed⟩ := among [watch] come
    (fun x => x.event = .adding ⟨3⟩ ∧ x.view.contains ⟨3⟩ = true ∧
      x.view.descriptors = [⟨1⟩, ⟨2⟩]) (by decide +kernel)
  obtain ⟨y, told₂, event₂, counts₂⟩ := among [watch] come
    (fun x => x.event = .changed ⟨2⟩ ∧
      climbSeen x = [some ⟨1, 1⟩, some ⟨1, 1⟩, some ⟨0, 0⟩]) (by decide +kernel)
  obtain ⟨z, told₃, event₃, counts₃⟩ := among [watch, come] go
    (fun x => x.event = .changed ⟨2⟩ ∧
      climbSeen x = [some ⟨1, 0⟩, some ⟨1, 0⟩, some ⟨1, 1⟩]) (by decide +kernel)
  exact ⟨opened,
    ⟨x, told₁, event₁, known, listed, (viewLaws_of_run opened [watch] come told₁).1⟩,
    ⟨y, told₂, event₂, counts₂, (viewLaws_of_run opened [watch] come told₂).1⟩,
    ⟨z, told₃, event₃, counts₃, (viewLaws_of_run opened [watch, come] go told₃).1⟩⟩

end Glimpse

end Census

end ClassCensus
