import ClassCensus.Proofs.Counting
import ClassCensus.Proofs.Deliveries

/-!
# When a class is stale

An entry is marked when its class goes out of date and unmarked when it comes up to
date again, and only on walks that pass it. `Entry.Timely` says what the mark comes to
in the end: a class that can change is stale just when there were objects of it or
below it and none of them is alive. The marks are kept by walks, and each entry that a
walk has passed is right at once. So the law holds at every moment that an observer
sees, and not only between calls.

A walk that discounts an object marks an entry by its count of living objects, so the
count has to be above zero before. This is what `Counted` is needed for.
-/

namespace ClassCensus

namespace Entry

/-- The mark says whether a class that can change had objects and has none alive. -/
def Timely (e : Entry) : Prop :=
  e.stale = true ↔ e.kind.isStatic = false ∧ 0 < e.inclusive.total ∧ e.inclusive.alive = 0

theorem timely_fresh (className : String) (kind : Kind) : (fresh className kind).Timely := by
  simp [Timely, fresh, Tally.zero]

namespace Timely

variable {e : Entry} (h : e.Timely)

include h

theorem current_of_static (static : e.kind.isStatic = true) : e.stale = false := by
  rw [← Bool.not_eq_true]
  intro stale
  exact Bool.false_ne_true ((h.mp stale).1.symm.trans static)

theorem current_of_total (never : e.inclusive.total = 0) : e.stale = false := by
  rw [← Bool.not_eq_true]
  intro stale
  exact Nat.ne_of_gt (h.mp stale).2.1 never

theorem current_of_alive (alive : 0 < e.inclusive.alive) : e.stale = false := by
  rw [← Bool.not_eq_true]
  intro stale
  exact Nat.ne_of_gt alive (h.mp stale).2.2

end Timely

theorem timely_gainInclusive (e : Entry) : e.gainInclusive.Timely := by
  simp [Timely, gainInclusive, Tally.gain]

theorem Timely.loseInclusive {e : Entry} (h : e.Timely) (alive : 0 < e.inclusive.alive)
    (below : e.inclusive.alive ≤ e.inclusive.total) : e.loseInclusive.Timely := by
  have once : 0 < e.inclusive.total := Nat.lt_of_lt_of_le alive below
  simp [Timely, Entry.loseInclusive, Tally.lose, h.current_of_alive alive, once, and_comm]

section Recount

open Census

variable {e : Entry} (l : List Descriptor) (k d : Descriptor)

theorem Timely.recount_gain (h : e.Timely) : (recount .gainOwn .gainInclusive l k d e).Timely := by
  unfold recount
  by_cases on : d ∈ l
  · rw [if_pos on]
    exact timely_gainInclusive _
  · rw [if_neg on]
    split_ifs <;> exact h

theorem Timely.recount_lose (h : e.Timely) (alive : d ∈ l → 0 < e.inclusive.alive)
    (below : e.inclusive.alive ≤ e.inclusive.total) :
    (recount .loseOwn .loseInclusive l k d e).Timely := by
  unfold recount
  by_cases on : d ∈ l
  · rw [if_pos on]
    split_ifs
    · exact Timely.loseInclusive (e := e.loseOwn) h (alive on) below
    · exact h.loseInclusive (alive on) below
  · rw [if_neg on]
    split_ifs <;> exact h

end Recount

end Entry

namespace Census

/-- Every entry is marked as its counts say. -/
def Timely (c : Census) : Prop :=
  ∀ d e, c.entryOf? d = some e → e.Timely

namespace Timely

variable {c c' : Census}

/-- It is enough to look at what is made of each entry. -/
theorem of_map (before : c.Timely) {f : Descriptor → Entry → Entry}
    (entries : ∀ d, c'.entryOf? d = (c.entryOf? d).map (f d))
    (kept : ∀ d e, c.entryOf? d = some e → e.Timely → (f d e).Timely) : c'.Timely := by
  intro d e' entry'
  rw [entries, Option.map_eq_some_iff] at entry'
  obtain ⟨e, entry, rfl⟩ := entry'
  exact kept d e entry (before d e entry)

theorem enter (before : c.Timely) (s : Sighting) (p : Option Descriptor) (kind : Kind) :
    (c.enter s p kind).census.Timely := by
  intro d e entry
  rw [entryOf?_enter] at entry
  split_ifs at entry
  · cases entry
    exact Entry.timely_fresh ..
  · exact before d e entry

section Walk

variable (before : c.Timely) (consistent : c.Consistent) {k : Descriptor} {near : List Descriptor}

include before consistent

/-- A walk that counts an object leaves the entries right wherever it stops. -/
theorem gaining (r : Report) (part : near.Sublist (c.forest.lineage k)) :
    (sweep .gainInclusive (c.enroll r k) near).1.Timely := by
  have distinct := (consistent.sound.lineage_nodup k).sublist part
  exact before.of_map (entryOf?_sweep_of_adjusted (entryOf?_enroll c r k) distinct)
    fun d e _ timely => timely.recount_gain near k d

/-- A walk that discounts an object does, too. -/
theorem losing {h : List Admission} (counted : c.Counted h) {o : Object}
    (held : c.roster.classOf? o = some k) (part : near.Sublist (c.forest.lineage k)) :
    (sweep .loseInclusive (c.withdraw o k) near).1.Timely := by
  have distinct := (consistent.sound.lineage_nodup k).sublist part
  refine before.of_map (entryOf?_sweep_of_adjusted (entryOf?_withdraw c o k) distinct)
    fun d e entry timely => timely.recount_lose near k d (fun on => ?_)
      (counted.tallied consistent entry).inclusive_alive_le
  obtain ⟨e', entry', alive⟩ := counted.inclusive_alive_pos consistent held (part.subset on)
  cases entry.symm.trans entry'
  exact alive

end Walk

end Timely

section Step

variable {host : Host} {c c' : Census} {h h' : List Admission} {signals : List Signal}

theorem Enters.timely {merge : Bool} (enters : Enters host merge c c') (before : c.Timely) :
    c'.Timely := by
  cases enters with
  | intro fits => exact before.enter _ _ _

theorem Step.timely (step : Step host c h' c') (consistent : c.Consistent)
    (counted : c.Counted h) (before : c.Timely) : c'.Timely := by
  cases step with
  | enter enters => exact enters.timely before
  | @receive _ r k new stands => exact before.gaining consistent r (.refl _)
  | @dismiss _ o k held => exact before.losing consistent counted held (.refl _)
  | audience => exact before

structure Dated (c : Census) : Prop where
  counted : ∃ h, c.Counted h
  timely : c.Timely

theorem Step.dated (step : Step host c h' c') (consistent : c.Consistent) (before : c.Dated) :
    c'.Dated := by
  obtain ⟨⟨h, counted⟩, timely⟩ := before
  exact ⟨⟨_, step.counted consistent counted⟩, step.timely consistent counted timely⟩

theorem Steps.dated (steps : Steps host c h' c') (consistent : c.Consistent)
    (before : c.Dated) : c'.Dated :=
  (steps.keeps (P := fun _ c => c.Dated) (h := [])
    (fun _ _ _ _ consistent before step => step.dated consistent before) consistent before).2

/-- Observers are shown entries that are marked as their counts say. -/
theorem Move.timely_view (move : Move host c h' signals c') (consistent : c.Consistent)
    (dated : c.Dated) {x : Delivery} (told : .delivery x ∈ signals) : x.view.Timely := by
  obtain ⟨⟨h, counted⟩, before⟩ := dated
  cases move with
  | note => simp at told
  | @enter merge _ s p fits =>
      have entered := before.enter s p (Kind.of s.info.readOnly merge)
      obtain ⟨_, ⟨_, view⟩ | ⟨_, view⟩⟩ := mem_signals_enter.mp told
      · rw [view]
        exact entered
      · rw [view]
        exact entered
  | @receive _ r k new stands =>
      obtain ⟨_, near, d, far, parts, _, view⟩ := mem_signals_sweep.mp told
      rw [view]
      refine before.gaining (k := k) consistent r ?_
      rw [parts]
      simp
  | @dismiss _ o k held =>
      obtain ⟨_, near, d, far, parts, _, view⟩ := mem_signals_sweep.mp told
      rw [view]
      refine before.losing (k := k) consistent counted held ?_
      rw [parts]
      simp
  | subscribe => simp at told
  | unsubscribe => simp at told

end Step

theorem timely_blank (settings : Settings) (owner : Thread) (base : Descriptor) :
    (blank settings owner base).Timely := by
  intro d e entry
  simp [blank, entryOf?] at entry

def living (c : Census) (d : Descriptor) : Finset Object :=
  (c.forest.subtree d).biUnion c.roster.under

theorem Consistent.mem_living {c : Census} (consistent : c.Consistent) {d : Descriptor}
    {o : Object} :
    o ∈ c.living d ↔ ∃ k, c.roster.classOf? o = some k ∧ d ∈ c.forest.lineage k := by
  simp only [living, Finset.mem_biUnion, Roster.mem_under, consistent.sound.mem_subtree]
  constructor
  · rintro ⟨k, ⟨_, above⟩, held⟩
    exact ⟨k, held, above⟩
  · rintro ⟨k, held, above⟩
    exact ⟨k, ⟨consistent.tracked_known o k held, above⟩, held⟩

theorem Counted.card_living {h : List Admission} {c : Census} (counted : c.Counted h)
    (consistent : c.Consistent) {d : Descriptor} {e : Entry} (entry : c.entryOf? d = some e) :
    e.inclusive.alive = (c.living d).card := by
  rw [(counted.tallied consistent entry).inclusive_alive, living, Finset.card_biUnion]
  · refine Finset.sum_congr rfl fun x member => ?_
    obtain ⟨e', entry'⟩ :=
      (consistent.contains_iff x).mp (consistent.sound.mem_subtree.mp member).1
    rw [ownOf_of_entry entry', consistent.own_alive x e' entry']
  · intro x _ y _ apart
    refine Finset.disjoint_left.mpr fun o held held' => ?_
    rw [Roster.mem_under] at held held'
    exact apart (Option.some.inj (held.symm.trans held'))

/-- An object is the last one of a class if there is one. -/
theorem Consistent.card_living_eq_one_iff {c : Census} (consistent : c.Consistent)
    {d k : Descriptor} {o : Object} (held : c.roster.classOf? o = some k)
    (above : d ∈ c.forest.lineage k) :
    (c.living d).card = 1 ↔
      ∀ o' k', c.roster.classOf? o' = some k' → d ∈ c.forest.lineage k' → o' = o := by
  have member : o ∈ c.living d := consistent.mem_living.mpr ⟨k, held, above⟩
  rw [Finset.card_eq_one]
  constructor
  · rintro ⟨a, only⟩ o' k' held' above'
    have member' : o' ∈ c.living d := consistent.mem_living.mpr ⟨k', held', above'⟩
    rw [only, Finset.mem_singleton] at member member'
    rw [member, member']
  · intro last
    refine ⟨o, Finset.eq_singleton_iff_unique_mem.mpr ⟨member, fun o' member' => ?_⟩⟩
    obtain ⟨k', held', above'⟩ := consistent.mem_living.mp member'
    exact last o' k' held' above'

/-- An entry is marked by a walk that discounts an object, if this was the last one of its
class and the class can change. -/
theorem Timely.expires_iff {h : List Admission} {c : Census} (timely : c.Timely)
    (consistent : c.Consistent) (counted : c.Counted h) {d k : Descriptor} {e : Entry}
    (entry : c.entryOf? d = some e) {o : Object} (held : c.roster.classOf? o = some k) :
    e.stale = false ∧
        (recount .loseOwn .loseInclusive (c.forest.lineage k) k d e).stale = true ↔
      e.kind.isStatic = false ∧ d ∈ c.forest.lineage k ∧
        ∀ o' k', c.roster.classOf? o' = some k' → d ∈ c.forest.lineage k' → o' = o := by
  rw [recount_lose]
  by_cases above : d ∈ c.forest.lineage k
  · obtain ⟨e', entry', alive⟩ := counted.inclusive_alive_pos consistent held above
    cases entry.symm.trans entry'
    have current : e.stale = false := (timely d e entry).current_of_alive alive
    have last : e.inclusive.lose.alive = 0 ↔ (c.living d).card = 1 := by
      rw [← counted.card_living consistent entry,
        show e.inclusive.lose.alive = e.inclusive.alive - 1 from rfl]
      omega
    rw [← consistent.card_living_eq_one_iff held above, ← last]
    simp [above, current, and_comm]
  · simp [above]

/-- How a call changes the mark of the class `d`, from the entry `e` in `c` to the entry
`e'` in `c'`. -/
structure Turns (c : Census) (q : Occasion) (answer : Answer) (c' : Census) (d : Descriptor)
    (e e' : Entry) : Prop where
  expires_iff : e.stale = false ∧ e'.stale = true ↔ e.kind.isStatic = false ∧
    ∃ o k, q.call = .destroy o ∧ answer = .destroyed .released ∧
      c.roster.classOf? o = some k ∧ d ∈ c.forest.lineage k ∧
      ∀ o' k', c.roster.classOf? o' = some k' → d ∈ c.forest.lineage k' → o' = o
  renewed_iff : e.stale = true ∧ e'.stale = false ↔ e.stale = true ∧
    ∃ a, c.admission? q = some a ∧ d ∈ c'.forest.lineage a.counted

section Turns

variable {c c' : Census} {q : Occasion} {answer : Answer} {d : Descriptor} {e : Entry}

theorem turns_of_kept (nobody : c.admission? q = none) (kept : answer ≠ .destroyed .released) :
    c.Turns q answer c' d e e where
  expires_iff := by
    constructor
    · rintro ⟨current, stale⟩
      rw [current] at stale
      cases stale
    · rintro ⟨_, o, k, _, released, _⟩
      exact absurd released kept
  renewed_iff := by
    constructor
    · rintro ⟨stale, current⟩
      rw [current] at stale
      cases stale
    · rintro ⟨_, a, admission, _⟩
      rw [nobody] at admission
      cases admission

theorem turns_of_admission {a : Admission} (admission : c.admission? q = some a) :
    c.Turns q (.standsUnder (.ok a.counted)) c' d e
      (recount .gainOwn .gainInclusive (c'.forest.lineage a.counted) a.counted d e) where
  expires_iff := by
    constructor
    · rintro ⟨current, stale⟩
      rw [recount_gain] at stale
      simp [current] at stale
    · rintro ⟨_, o, k, _, released, _⟩
      cases released
  renewed_iff := by
    rw [recount_gain, admission]
    by_cases above : d ∈ c'.forest.lineage a.counted <;> simp [above]

/-- An object that is released marks the classes of which it was the last one. -/
theorem Timely.turns_of_release {h : List Admission} (timely : c.Timely)
    (consistent : c.Consistent) (counted : c.Counted h) (entry : c.entryOf? d = some e)
    {o : Object} {k : Descriptor} (call : q.call = .destroy o)
    (held : c.roster.classOf? o = some k) :
    c.Turns q (.destroyed .released) c' d e
      (recount .loseOwn .loseInclusive (c.forest.lineage k) k d e) where
  expires_iff := by
    rw [timely.expires_iff consistent counted entry held]
    refine and_congr_right fun _ => ?_
    constructor
    · rintro ⟨above, last⟩
      exact ⟨o, k, call, rfl, held, above, last⟩
    · rintro ⟨o₁, k₁, call₁, _, held₁, above, last⟩
      cases call.symm.trans call₁
      cases held.symm.trans held₁
      exact ⟨above, last⟩
  renewed_iff := by
    have nobody : c.admission? q = none := by
      rw [admission?, call]
    rw [recount_lose, nobody]
    constructor
    · rintro ⟨stale, current⟩
      simp [stale] at current
    · rintro ⟨_, a, admission, _⟩
      cases admission

theorem Passes.turns {h : List Admission} (passes : c.Passes q answer c') (timely : c.Timely)
    (consistent : c.Consistent) (counted : c.Counted h) (entry : c.entryOf? d = some e) :
    ∃ e', c'.entryOf? d = some e' ∧ c.Turns q answer c' d e e' := by
  cases passes with
  | grows _ nobody kept h =>
      exact ⟨e, h.entryOf? consistent.toCoherent entry, turns_of_kept nobody kept⟩
  | audience nobody kept => exact ⟨e, entry, turns_of_kept nobody kept⟩
  | @admits a o admission new registered answered =>
      have grown := (register_grows registered).1
      have sound := (grown.coherent consistent.toCoherent).sound
      refine ⟨_, ?_, turns_of_admission admission⟩
      rw [entryOf?_receive _ _ sound, grown.entryOf? consistent.toCoherent entry, forest_receive]
      rfl
  | @releases o k call held =>
      refine ⟨_, ?_, timely.turns_of_release consistent counted entry call held⟩
      rw [entryOf?_dismiss o k consistent.sound, entry]
      rfl

end Turns

/-- What the marks say, where `h` is the history of the census. -/
structure StaleLaws (h : List Admission) (c : Census) : Prop where
  stale_iff : ∀ d e, c.entryOf? d = some e →
    (e.stale = true ↔ e.kind.isStatic = false ∧ 0 < e.inclusive.total ∧ e.inclusive.alive = 0)
  static_current : ∀ d e, c.entryOf? d = some e → e.kind.isStatic = true → e.stale = false
  untouched : ∀ d e, c.entryOf? d = some e → (∀ a ∈ h, d ∉ c.forest.lineage a.counted) →
    e.stale = false
  turns : ∀ q d e, c.entryOf? d = some e →
    ∃ e', (c.perform q.host q.thread q.call).census.entryOf? d = some e' ∧
      c.Turns q (c.perform q.host q.thread q.call).answer
        (c.perform q.host q.thread q.call).census d e e'

theorem Timely.staleLaws {h : List Admission} {c : Census} (timely : c.Timely)
    (consistent : c.Consistent) (counted : c.Counted h) : c.StaleLaws h where
  stale_iff := timely
  static_current d e entry := (timely d e entry).current_of_static
  untouched d e entry nobody := by
    refine (timely d e entry).current_of_total ?_
    rw [(counted.tallied consistent entry).inclusive_total]
    refine Finset.sum_eq_zero fun x member => ?_
    rw [counted.own_total, List.countP_eq_zero]
    intro a ha here
    refine nobody a ha ?_
    rw [of_decide_eq_true here]
    exact (consistent.sound.mem_subtree.mp member).2
  turns q d e entry := (perform_passes consistent q).turns timely consistent counted entry

/-- After every run the marks are right, and they were in what the observers saw. -/
theorem dated_performAll {c : Census} (consistent : c.Consistent) (dated : c.Dated)
    (run : List Occasion) :
    (c.performAll run).census.Dated ∧
      ∀ x, .delivery x ∈ (c.performAll run).signals → x.view.Timely := by
  refine (performAll_keeps_signals
    (P := fun signals c => c.Dated ∧ ∀ x, .delivery x ∈ signals → x.view.Timely) ?_ [] run
    consistent ⟨dated, fun x told => absurd told List.not_mem_nil⟩).2
  rintro host signals c h' signals' c' consistent ⟨dated, views⟩ move
  refine ⟨(Moves.single move).steps.dated consistent dated, fun x told => ?_⟩
  rcases List.mem_append.mp told with early | late
  · exact views x early
  · exact move.timely_view consistent dated late

/-- Whatever the hosts report and whichever calls fail, a class that can change is stale
just when there were objects of it or below it and none is alive, after every run and at
every moment that an observer sees. -/
theorem staleLaws_of_run {host : Host} {settings : Settings} {owner : Thread} {c : Census}
    (opened : (establish host settings owner).1 = .ok c) (run : List Occasion) :
    (c.performAll run).census.StaleLaws (c.admissions run) ∧
      ∀ x, .delivery x ∈ (c.performAll run).signals → ∀ d e, x.view.entryOf? d = some e →
        (e.stale = true ↔
          e.kind.isStatic = false ∧ 0 < e.inclusive.total ∧ e.inclusive.alive = 0) := by
  obtain ⟨consistent, counted⟩ := run_keeps (P := fun h c => c.Counted h) (H := fun _ => True)
    counted_blank (fun _ _ _ _ _ _ consistent before step => step.counted consistent before)
    trivial opened run fun _ _ => trivial
  have opening := (establish_grows opened).steps
  have blank := consistent_blank settings owner host.base
  have start := opening.dated blank ⟨⟨[], counted_blank settings owner host.base⟩,
    timely_blank settings owner host.base⟩
  obtain ⟨dated, views⟩ := dated_performAll (opening.consistent blank) start run
  exact ⟨dated.timely.staleLaws consistent counted, views⟩

section Expired

def lineal : ClassTable :=
  (((ClassTable.empty ⟨1⟩).put ⟨1⟩ ⟨"Object", none, true⟩).put ⟨3⟩
    ⟨"Item", some ⟨1⟩, false⟩).put ⟨4⟩ ⟨"Part", some ⟨3⟩, false⟩

/-- An object of 4 comes, one of 3 comes, both go, and another one of 4 comes, while
somebody watches. -/
def linealRun : List Occasion :=
  [.subscribe, .construct ⟨⟨10⟩, ⟨4⟩, true⟩, .construct ⟨⟨11⟩, ⟨3⟩, true⟩, .destroy ⟨10⟩,
    .destroy ⟨11⟩, .construct ⟨⟨12⟩, ⟨4⟩, true⟩, .destroy ⟨12⟩].map (⟨·, ⟨0⟩, lineal.toHost⟩)

def marksSeen (signals : List Signal) : List (Descriptor × List Descriptor) :=
  (signals.filterMap Signal.delivery?).map fun x =>
    (x.event.descriptor, x.view.descriptors.filter fun d => !x.view.isValid d)

/-- In the middle of the last walk, one class is marked and the one above it is not yet.
-/
theorem staleLaws_lineal :
    let c := blank ⟨8, false, true⟩ ⟨0⟩ ⟨1⟩
    (establish lineal.toHost ⟨8, false, true⟩ ⟨0⟩).1 = .ok c ∧
      (marksSeen (c.performAll linealRun).signals).drop 19 =
        [(⟨4⟩, [⟨4⟩]), (⟨3⟩, [⟨3⟩, ⟨4⟩]), (⟨1⟩, [⟨3⟩, ⟨4⟩])] ∧
      (c.performAll linealRun).census.StaleLaws (c.admissions linealRun) := by
  have opened : (establish lineal.toHost ⟨8, false, true⟩ ⟨0⟩).1 =
      .ok (blank ⟨8, false, true⟩ ⟨0⟩ ⟨1⟩) := rfl
  exact ⟨opened, by decide +kernel, (staleLaws_of_run opened linealRun).1⟩

end Expired

end Census

end ClassCensus
