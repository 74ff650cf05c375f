import ClassCensus.Census.Call
import ClassCensus.Proofs.Lifetimes

/-!
# Runs and their history

The history of a run is the list of its admissions: the constructions that
succeeded for an object not tracked at that moment, with the class they answered.
It is read off the calls and their answers and is no part of the census.

A call is cut into steps of four kinds: a class is entered, an object is received,
an object is dismissed, or the observers change. `Consistent` is kept by each kind
and makes the cut possible, since it leaves a destruction no way to go wrong.
`run_keeps` then reduces a property of runs, with their history, to one step.

`Moves` is the same cut with the signals that each step gives. A record that comes
with no change is a move of its own and no step. `Leads` tells of a call as a whole,
for what depends on which call it was, and `Passes` tells what it comes to for the
objects. All of these are read off `Goes`, which lists the ways in which a call can go:
`perform_goes` is the one place where calls are taken apart.
-/

namespace ClassCensus

structure Admission where
  report : Report
  counted : Descriptor
deriving DecidableEq

namespace Census

def admission? (c : Census) (q : Occasion) : Option Admission :=
  match q.call, (c.perform q.host q.thread q.call).answer with
  | .construct r, .standsUnder (.ok k) =>
    if c.roster.classOf? r.object = none then some ⟨r, k⟩ else none
  | _, _ => none

def admissions : Census → List Occasion → List Admission
  | _, [] => []
  | c, q :: qs =>
    (c.admission? q).toList ++ admissions (c.perform q.host q.thread q.call).census qs

@[simp] theorem admissions_nil (c : Census) : c.admissions [] = [] := rfl

theorem admissions_cons (c : Census) (q : Occasion) (qs : List Occasion) :
    c.admissions (q :: qs) = (c.admission? q).toList ++
      (c.perform q.host q.thread q.call).census.admissions qs := rfl

theorem performAll_cons_census (c : Census) (q : Occasion) (qs : List Occasion) :
    (c.performAll (q :: qs)).census =
      ((c.perform q.host q.thread q.call).census.performAll qs).census := rfl

theorem performAll_cons_signals (c : Census) (q : Occasion) (qs : List Occasion) :
    (c.performAll (q :: qs)).signals = (c.perform q.host q.thread q.call).signals ++
      ((c.perform q.host q.thread q.call).census.performAll qs).signals := rfl

theorem performAll_append_census (c : Census) (early late : List Occasion) :
    (c.performAll (early ++ late)).census =
      ((c.performAll early).census.performAll late).census := by
  induction early generalizing c with
  | nil => rfl
  | cons q early ih =>
      rw [List.cons_append, performAll_cons_census, performAll_cons_census]
      exact ih _

structure Consistent (c : Census) : Prop extends Coherent c where
  tracked_known : ∀ o k, c.roster.classOf? o = some k → c.contains k = true
  own_alive : ∀ d e, c.entryOf? d = some e → e.own.alive = (c.roster.under d).card

inductive Step (host : Host) : Census → List Admission → Census → Prop
  | enter {merge : Bool} {c c' : Census} (enters : Enters host merge c c') :
    Step host c [] c'
  | receive {c : Census} {r : Report} {k : Descriptor}
    (new : c.roster.classOf? r.object = none)
    (stands : c.StandsFor host r.generated r.descriptor k) :
    Step host c [⟨r, k⟩] (c.receive r k)
  | dismiss {c : Census} {o : Object} {k : Descriptor}
    (held : c.roster.classOf? o = some k) : Step host c [] (c.dismiss o k)
  | audience (c : Census) (s : Observers) : Step host c [] { c with observers := s }

inductive Steps (host : Host) (c : Census) : List Admission → Census → Prop
  | refl : Steps host c [] c
  | tail {c' c'' : Census} {h h' : List Admission} (steps : Steps host c h c')
    (step : Step host c' h' c'') : Steps host c (h ++ h') c''

inductive Move (host : Host) : Census → List Admission → List Signal → Census → Prop
  | note (c : Census) (r : LogRecord) : Move host c [] [.log r] c
  | enter {merge : Bool} {c : Census} {s : Sighting} {p : Option Descriptor}
    (fits : c.Fits host merge s p) :
    Move host c [] (c.enter s p (Kind.of s.info.readOnly merge)).signals
      (c.enter s p (Kind.of s.info.readOnly merge)).census
  | receive {c : Census} {r : Report} {k : Descriptor}
    (new : c.roster.classOf? r.object = none)
    (stands : c.StandsFor host r.generated r.descriptor k) :
    Move host c [⟨r, k⟩] (c.receiveSignals r k) (c.receive r k)
  | dismiss {c : Census} {o : Object} {k : Descriptor}
    (held : c.roster.classOf? o = some k) :
    Move host c [] (c.dismissSignals o k) (c.dismiss o k)
  | subscribe (c : Census) : Move host c [] [] { c with observers := c.observers.subscribe.2 }
  | unsubscribe (c : Census) (id : ObserverId) :
    Move host c [] [] { c with observers := (c.observers.unsubscribe id).2 }

inductive Moves (host : Host) (c : Census) : List Admission → List Signal → Census → Prop
  | refl : Moves host c [] [] c
  | tail {c' c'' : Census} {h h' : List Admission} {signals signals' : List Signal}
    (moves : Moves host c h signals c') (move : Move host c' h' signals' c'') :
    Moves host c (h ++ h') (signals ++ signals') c''

/-- The ways in which a call can go in a consistent census: the admission that it makes,
if it makes one, and all that it leaves behind. -/
inductive Goes (c : Census) : Occasion → Option Admission → Outcome Answer → Prop
  | refused {q : Occasion} : Goes c q none ⟨.refused ⟨q.call.operation⟩, c, []⟩
  | failed {q : Occasion} (e : AscentError) : Goes c q none ⟨.standsUnder (.error e), c, []⟩
  | registered {d : Descriptor} {merge : Bool} {thread : Thread} {host : Host}
    {o : Outcome Descriptor} (h : c.register host d merge = .ok o) :
    Goes c ⟨.register d merge, thread, host⟩ none (o.map fun k => .standsUnder (.ok k))
  | surveyed {thread : Thread} {host : Host} :
    Goes c ⟨.survey, thread, host⟩ none ((c.survey host).map .surveyed)
  | repeated {r : Report} {thread : Thread} {host : Host} {k : Descriptor}
    (held : c.roster.classOf? r.object = some k) :
    Goes c ⟨.construct r, thread, host⟩ none
      ⟨.standsUnder (.ok k), c, [.log (.repeatedConstruction r.object)]⟩
  | constructed {r : Report} {thread : Thread} {host : Host} {o : Outcome Descriptor}
    (new : c.roster.classOf? r.object = none)
    (h : c.register host r.descriptor r.generated = .ok o) :
    Goes c ⟨.construct r, thread, host⟩ (some ⟨r, o.answer⟩)
      ⟨.standsUnder (.ok o.answer), o.census.receive r o.answer,
        o.signals ++ o.census.receiveSignals r o.answer⟩
  | untracked {o : Object} {thread : Thread} {host : Host} :
    Goes c ⟨.destroy o, thread, host⟩ none
      ⟨.destroyed .untracked, c, [.log (.untrackedDestruction o)]⟩
  | released {o : Object} {thread : Thread} {host : Host} {k : Descriptor}
    (held : c.roster.classOf? o = some k) :
    Goes c ⟨.destroy o, thread, host⟩ none
      ⟨.destroyed .released, c.dismiss o k, c.dismissSignals o k⟩
  | subscribed {thread : Thread} {host : Host} :
    Goes c ⟨.subscribe, thread, host⟩ none
      ⟨.subscribed c.observers.subscribe.1, { c with observers := c.observers.subscribe.2 }, []⟩
  | unsubscribed {thread : Thread} {host : Host} (id : ObserverId) :
    Goes c ⟨.unsubscribe id, thread, host⟩ none
      ⟨.unsubscribed (c.observers.unsubscribe id).1,
        { c with observers := (c.observers.unsubscribe id).2 }, []⟩

inductive Leads (host : Host) (c : Census) : Call → Census → Prop
  | unchanged (call : Call) : Leads host c call c
  | registered {d : Descriptor} {merge : Bool} {o : Outcome Descriptor}
    (h : c.register host d merge = .ok o) : Leads host c (.register d merge) o.census
  | surveyed : Leads host c .survey (c.survey host).census
  | constructed {r : Report} {o : Outcome Descriptor}
    (new : c.roster.classOf? r.object = none)
    (h : c.register host r.descriptor r.generated = .ok o) :
    Leads host c (.construct r) (o.census.receive r o.answer)
  | destroyed {o : Object} {k : Descriptor} (held : c.roster.classOf? o = some k) :
    Leads host c (.destroy o) (c.dismiss o k)
  | subscribed : Leads host c .subscribe { c with observers := c.observers.subscribe.2 }
  | unsubscribed (id : ObserverId) :
    Leads host c (.unsubscribe id) { c with observers := (c.observers.unsubscribe id).2 }

/-- What a call comes to for the objects, with its answer: a new one is admitted, a
tracked one is released, or they stay as they are. -/
inductive Passes (c : Census) (q : Occasion) : Answer → Census → Prop
  | grows {answer : Answer} {c' : Census} (merge : Bool) (nobody : c.admission? q = none)
    (kept : answer ≠ .destroyed .released) (h : Grows q.host merge c c') : Passes c q answer c'
  | audience {answer : Answer} (nobody : c.admission? q = none)
    (kept : answer ≠ .destroyed .released) (s : Observers) :
    Passes c q answer { c with observers := s }
  | admits {a : Admission} {o : Outcome Descriptor} (admission : c.admission? q = some a)
    (new : c.roster.classOf? a.report.object = none)
    (h : c.register q.host a.report.descriptor a.report.generated = .ok o)
    (answered : o.answer = a.counted) :
    Passes c q (.standsUnder (.ok a.counted)) (o.census.receive a.report a.counted)
  | releases {o : Object} {k : Descriptor} (call : q.call = .destroy o)
    (held : c.roster.classOf? o = some k) :
    Passes c q (.destroyed .released) (c.dismiss o k)

theorem Enters.classOf? {host : Host} {merge : Bool} {c c' : Census}
    (h : Enters host merge c c') (o : Object) : c'.roster.classOf? o = c.roster.classOf? o := by
  cases h with
  | @intro s p fits =>
      simp only [enter]
      split
      · rfl
      · rfl

theorem Coherent.recounted {c c' : Census} (before : c.Coherent) (recounts : c.Recounts c') :
    c'.Coherent where
  sound := recounts.forest ▸ before.sound
  contains_iff d := by
    rw [recounts.contains, before.contains_iff]
    constructor
    · rintro ⟨e, entry⟩
      obtain ⟨e', entry', -⟩ := recounts.entry d e entry
      exact ⟨e', entry'⟩
    · rintro ⟨e', entry'⟩
      obtain ⟨e, entry, -⟩ := recounts.origin d e' entry'
      exact ⟨e, entry⟩
  names_iff n d := by
    rw [recounts.names, before.names_iff]
    constructor
    · rintro ⟨e, entry, dynamic, named⟩
      obtain ⟨e', entry', same⟩ := recounts.entry d e entry
      exact ⟨e', entry', same.kind ▸ dynamic, same.className.trans named⟩
    · rintro ⟨e', entry', dynamic, named⟩
      obtain ⟨e, entry, same⟩ := recounts.origin d e' entry'
      exact ⟨e, entry, same.kind ▸ dynamic, same.className.symm.trans named⟩

namespace Consistent

theorem under_of_not_contains {c : Census} (consistent : c.Consistent) {d : Descriptor}
    (unknown : c.contains d = false) : c.roster.under d = ∅ := by
  rw [Finset.eq_empty_iff_forall_notMem]
  intro o held
  rw [consistent.tracked_known o d (Roster.mem_under.mp held)] at unknown
  cases unknown

theorem enters {host : Host} {merge : Bool} {c c' : Census} (before : c.Consistent)
    (h : Enters host merge c c') : c'.Consistent where
  toCoherent := h.coherent before.toCoherent
  tracked_known o k held := by
    rw [h.classOf?] at held
    exact h.contains (before.tracked_known o k held)
  own_alive d e entry := by
    rw [Roster.under_eq_of_classOf?_eq h.classOf? d]
    cases h with
    | @intro s p fits =>
        rw [entryOf?_enter] at entry
        by_cases here : s.descriptor = d
        · subst here
          rw [if_pos rfl] at entry
          cases entry
          rw [before.under_of_not_contains fits.fresh]
          rfl
        · rw [if_neg here] at entry
          exact before.own_alive d e entry

theorem receive {c : Census} {r : Report} {k : Descriptor} (before : c.Consistent)
    (new : c.roster.classOf? r.object = none) (known : c.contains k = true) :
    (c.receive r k).Consistent where
  toCoherent := before.recounted (recounts_receive r k before.sound)
  tracked_known o k' held := by
    rw [contains, forest_receive]
    rw [classOf?_receive] at held
    by_cases here : r.object = o
    · rw [if_pos here] at held
      cases held
      exact known
    · rw [if_neg here] at held
      exact before.tracked_known o k' held
  own_alive d e entry := by
    rw [entryOf?_receive r k before.sound, Option.map_eq_some_iff] at entry
    obtain ⟨e, entry, rfl⟩ := entry
    rw [recount_gain, under_receive c r k new]
    by_cases here : k = d
    · have absent : r.object ∉ c.roster.under d := by
        rw [Roster.mem_under, new]
        intro same
        cases same
      simp only [if_pos here, Finset.card_insert_of_notMem absent]
      rw [← before.own_alive d e entry]
      rfl
    · simp only [if_neg here]
      exact before.own_alive d e entry

theorem dismiss {c : Census} {o : Object} {k : Descriptor} (before : c.Consistent)
    (held : c.roster.classOf? o = some k) : (c.dismiss o k).Consistent where
  toCoherent := before.recounted (recounts_dismiss o k before.sound)
  tracked_known p k' tracked := by
    rw [contains, forest_dismiss]
    rw [classOf?_dismiss] at tracked
    by_cases here : o = p
    · rw [if_pos here] at tracked
      cases tracked
    · rw [if_neg here] at tracked
      exact before.tracked_known p k' tracked
  own_alive d e entry := by
    rw [entryOf?_dismiss o k before.sound, Option.map_eq_some_iff] at entry
    obtain ⟨e, entry, rfl⟩ := entry
    rw [recount_lose, under_dismiss]
    by_cases here : k = d
    · subst here
      simp only [if_true, Finset.card_erase_of_mem (Roster.mem_under.mpr held)]
      rw [← before.own_alive k e entry]
      rfl
    · have absent : o ∉ c.roster.under d := by
        rw [Roster.mem_under, held]
        exact fun h => here (Option.some.inj h)
      simp only [if_neg here, Finset.erase_eq_of_notMem absent]
      exact before.own_alive d e entry

theorem counted {c : Census} (consistent : c.Consistent) {o : Object} {k : Descriptor}
    (held : c.roster.classOf? o = some k) :
    ∃ e, c.entryOf? k = some e ∧ e.own.alive ≠ 0 := by
  obtain ⟨e, entry⟩ := (consistent.contains_iff k).mp (consistent.tracked_known o k held)
  refine ⟨e, entry, ?_⟩
  rw [consistent.own_alive k e entry]
  exact Finset.card_ne_zero_of_mem (Roster.mem_under.mpr held)

end Consistent

theorem consistent_blank (settings : Settings) (owner : Thread) (base : Descriptor) :
    (blank settings owner base).Consistent where
  toCoherent := coherent_blank settings owner base
  tracked_known o k held := by
    simp [blank, Roster.empty, Roster.classOf?] at held
  own_alive d e entry := by
    simp [blank, entryOf?] at entry

theorem Step.consistent {host : Host} {c c' : Census} {h : List Admission}
    (step : Step host c h c') (before : c.Consistent) : c'.Consistent := by
  cases step with
  | enter enters => exact before.enters enters
  | receive new stands => exact before.receive new (stands.contains before.toCoherent)
  | dismiss held => exact before.dismiss held
  | audience s => exact ⟨⟨before.sound, before.contains_iff, before.names_iff⟩,
      before.tracked_known, before.own_alive⟩

theorem Moves.single {host : Host} {c c' : Census} {h : List Admission} {signals : List Signal}
    (move : Move host c h signals c') : Moves host c h signals c' :=
  .tail .refl move

theorem Moves.steps {host : Host} {c c' : Census} {h : List Admission} {signals : List Signal}
    (moves : Moves host c h signals c') : Steps host c h c' := by
  induction moves with
  | refl => exact .refl
  | tail _ move ih =>
      cases move with
      | note =>
          rw [List.append_nil]
          exact ih
      | enter fits => exact ih.tail (.enter (.intro fits))
      | receive new stands => exact ih.tail (.receive new stands)
      | dismiss held => exact ih.tail (.dismiss held)
      | subscribe => exact ih.tail (.audience _ _)
      | unsubscribe => exact ih.tail (.audience _ _)

theorem Steps.trans {host : Host} {c c' c'' : Census} {h h' : List Admission}
    (steps : Steps host c h c') (steps' : Steps host c' h' c'') :
    Steps host c (h ++ h') c'' := by
  induction steps' with
  | refl =>
      rw [List.append_nil]
      exact steps
  | tail _ step ih =>
      rw [← List.append_assoc]
      exact ih.tail step

theorem Grows.steps {host : Host} {merge : Bool} {c c' : Census} (h : Grows host merge c c') :
    Steps host c [] c' := by
  induction h with
  | refl => exact .refl
  | tail _ enters ih => exact .tail ih (.enter enters)

theorem Advances.moves {host : Host} {merge : Bool} {c c' : Census} {signals : List Signal}
    (h : Advances host merge c signals c') : Moves host c [] signals c' := by
  induction h with
  | refl => exact .refl
  | note _ r ih => exact ih.tail (.note _ r)
  | enter _ fits ih => exact ih.tail (.enter fits)

theorem Grows.classOf? {host : Host} {merge : Bool} {c c' : Census} (h : Grows host merge c c')
    (o : Object) : c'.roster.classOf? o = c.roster.classOf? o := by
  induction h with
  | refl => rfl
  | tail _ enters ih => rw [enters.classOf?, ih]

/-- In a consistent census a destruction finds the object counted or not tracked. -/
theorem perform_goes {c : Census} (consistent : c.Consistent) (q : Occasion) :
    Goes c q (c.admission? q) (c.perform q.host q.thread q.call) := by
  obtain ⟨call, thread, host⟩ := q
  unfold admission?
  cases allowed : c.ownership.permits thread with
  | false =>
      rw [perform_of_not_permits allowed]
      cases call <;> exact .refused
  | true =>
      simp only [perform_of_permits allowed]
      cases call with
      | register d merge =>
          simp only [apply]
          cases registered : c.register host d merge with
          | error e => exact .failed e
          | ok o => exact .registered registered
      | survey => exact .surveyed
      | construct r =>
          simp only [apply]
          cases held : c.roster.classOf? r.object with
          | some k =>
              simp only [construct_of_tracked held, Outcome.ofExcept, Outcome.map]
              rw [if_neg (by rw [held]; exact Option.some_ne_none k)]
              exact .repeated held
          | none =>
              rw [construct_of_new held]
              cases registered : c.register host r.descriptor r.generated with
              | error e => exact .failed e
              | ok o =>
                  simp only [Except.map, Outcome.ofExcept, Outcome.map]
                  rw [if_pos held]
                  exact .constructed held registered
      | destroy o =>
          simp only [apply]
          cases held : c.roster.classOf? o with
          | none =>
              rw [destroy_of_untracked held]
              exact .untracked
          | some k =>
              obtain ⟨e, entry, alive⟩ := consistent.counted held
              rw [destroy_eq_of_counted held entry alive]
              exact .released held
      | subscribe => exact .subscribed
      | unsubscribe id => exact .unsubscribed id

/-- A call is cut into moves, and its admission and its signals are theirs. -/
theorem perform_moves {c : Census} (consistent : c.Consistent) (q : Occasion) :
    Moves q.host c (c.admission? q).toList (c.perform q.host q.thread q.call).signals
      (c.perform q.host q.thread q.call).census := by
  have goes := perform_goes consistent q
  generalize c.admission? q = a, c.perform q.host q.thread q.call = o at goes
  cases goes with
  | refused => exact .refl
  | failed => exact .refl
  | registered h => exact (register_advances h).1.moves
  | @surveyed _ host => exact (survey_advances c host).moves
  | repeated => exact .single (.note c _)
  | constructed new h =>
      obtain ⟨advances, stands, -⟩ := register_advances h
      refine advances.moves.tail (.receive ?_ stands)
      rw [advances.grows.classOf?, new]
  | untracked => exact .single (.note c _)
  | released held => exact .single (.dismiss held)
  | subscribed => exact .single (.subscribe c)
  | unsubscribed id => exact .single (.unsubscribe c id)

theorem perform_leads {c : Census} (consistent : c.Consistent) (q : Occasion) :
    Leads q.host c q.call (c.perform q.host q.thread q.call).census := by
  have goes := perform_goes consistent q
  generalize c.admission? q = a, c.perform q.host q.thread q.call = o at goes
  cases goes with
  | refused => exact .unchanged _
  | failed => exact .unchanged _
  | registered h => exact .registered h
  | surveyed => exact .surveyed
  | repeated => exact .unchanged _
  | constructed new h => exact .constructed new h
  | untracked => exact .unchanged _
  | released held => exact .destroyed held
  | subscribed => exact .subscribed
  | unsubscribed id => exact .unsubscribed id

theorem perform_passes {c : Census} (consistent : c.Consistent) (q : Occasion) :
    Passes c q (c.perform q.host q.thread q.call).answer
      (c.perform q.host q.thread q.call).census := by
  have goes := perform_goes consistent q
  generalize admission : c.admission? q = a, c.perform q.host q.thread q.call = o at goes
  cases goes with
  | refused => exact .grows false admission (fun same => nomatch same) .refl
  | failed => exact .grows false admission (fun same => nomatch same) .refl
  | @registered _ merge _ _ _ h =>
      exact .grows merge admission (fun same => nomatch same) (register_grows h).1
  | @surveyed _ host =>
      exact .grows false admission (fun same => nomatch same) (survey_advances c host).grows
  | repeated => exact .grows false admission (fun same => nomatch same) .refl
  | constructed new h => exact .admits admission new h rfl
  | untracked => exact .grows false admission (fun same => nomatch same) .refl
  | released held => exact .releases rfl held
  | subscribed =>
      refine .audience admission ?_ c.observers.subscribe.2
      exact fun same => nomatch same
  | unsubscribed id =>
      refine .audience admission ?_ (c.observers.unsubscribe id).2
      exact fun same => nomatch same

theorem perform_steps {c : Census} (consistent : c.Consistent) (q : Occasion) :
    Steps q.host c (c.admission? q).toList (c.perform q.host q.thread q.call).census :=
  (perform_moves consistent q).steps

theorem Steps.keeps {P : List Admission → Census → Prop} {host : Host}
    (step : ∀ h c h' c', c.Consistent → P h c → Step host c h' c' → P (h ++ h') c')
    {h : List Admission} {c c' : Census} {h' : List Admission} (steps : Steps host c h' c')
    (consistent : c.Consistent) (start : P h c) : c'.Consistent ∧ P (h ++ h') c' := by
  induction steps with
  | refl =>
      rw [List.append_nil]
      exact ⟨consistent, start⟩
  | tail _ one ih =>
      obtain ⟨between, reached⟩ := ih
      rw [← List.append_assoc]
      exact ⟨one.consistent between, step _ _ _ _ between reached one⟩

theorem Steps.consistent {host : Host} {c c' : Census} {h : List Admission}
    (steps : Steps host c h c') (before : c.Consistent) : c'.Consistent :=
  (steps.keeps (P := fun _ _ => True) (h := []) (fun _ _ _ _ _ _ _ => trivial) before trivial).1

theorem Consistent.perform {c : Census} (consistent : c.Consistent) (q : Occasion) :
    (c.perform q.host q.thread q.call).census.Consistent :=
  (perform_steps consistent q).consistent consistent

theorem Consistent.performAll {c : Census} (consistent : c.Consistent) (run : List Occasion) :
    (c.performAll run).census.Consistent := by
  induction run generalizing c with
  | nil => exact consistent
  | cons q run ih => exact ih (consistent.perform q)

theorem Step.settings {host : Host} {c c' : Census} {h : List Admission}
    (step : Step host c h c') : c'.settings = c.settings := by
  cases step with
  | enter enters => exact Grows.settings (.single enters)
  | receive => exact settings_receive ..
  | dismiss => exact settings_dismiss ..
  | audience => rfl

theorem Steps.settings {host : Host} {c c' : Census} {h : List Admission}
    (steps : Steps host c h c') : c'.settings = c.settings := by
  induction steps with
  | refl => rfl
  | tail _ step ih => exact step.settings.trans ih

theorem Move.consistent {host : Host} {c c' : Census} {h : List Admission}
    {signals : List Signal} (move : Move host c h signals c') (before : c.Consistent) :
    c'.Consistent :=
  (Moves.single move).steps.consistent before

/-- What is kept by each move holds after any number of them, of the signals that they
give. -/
theorem Moves.keeps {P : List Signal → Census → Prop} {host : Host}
    (move : ∀ signals c h signals' c', c.Consistent → P signals c →
      Move host c h signals' c' → P (signals ++ signals') c')
    {signals signals' : List Signal} {c c' : Census} {h : List Admission}
    (moves : Moves host c h signals' c') (consistent : c.Consistent) (start : P signals c) :
    c'.Consistent ∧ P (signals ++ signals') c' := by
  induction moves with
  | refl =>
      rw [List.append_nil]
      exact ⟨consistent, start⟩
  | tail _ one ih =>
      obtain ⟨between, reached⟩ := ih
      rw [← List.append_assoc]
      exact ⟨one.consistent between, move _ _ _ _ _ between reached one⟩

theorem performAll_keeps_signals {P : List Signal → Census → Prop}
    (move : ∀ host signals c h signals' c', c.Consistent → P signals c →
      Move host c h signals' c' → P (signals ++ signals') c')
    (signals : List Signal) {c : Census} (run : List Occasion) (consistent : c.Consistent)
    (start : P signals c) :
    (c.performAll run).census.Consistent ∧
      P (signals ++ (c.performAll run).signals) (c.performAll run).census := by
  induction run generalizing c signals with
  | nil =>
      rw [performAll_nil, List.append_nil]
      exact ⟨consistent, start⟩
  | cons q run ih =>
      obtain ⟨after, reached⟩ := (perform_moves consistent q).keeps (move q.host) consistent start
      rw [performAll_cons_census, performAll_cons_signals, ← List.append_assoc]
      exact ih _ after reached

theorem performAll_keeps {P : List Admission → Census → Prop} {H : Host → Prop}
    (step : ∀ host, H host → ∀ h c h' c', c.Consistent → P h c → Step host c h' c' →
      P (h ++ h') c')
    {h : List Admission} {c : Census} (run : List Occasion) (hosts : ∀ q ∈ run, H q.host)
    (consistent : c.Consistent) (start : P h c) :
    (c.performAll run).census.Consistent ∧
      P (h ++ c.admissions run) (c.performAll run).census := by
  induction run generalizing c h with
  | nil =>
      rw [performAll_nil, admissions_nil, List.append_nil]
      exact ⟨consistent, start⟩
  | cons q run ih =>
      obtain ⟨after, reached⟩ := (perform_steps consistent q).keeps
        (step q.host (hosts q List.mem_cons_self)) consistent start
      rw [performAll_cons_census, admissions_cons, ← List.append_assoc]
      exact ih (fun q' hq' => hosts q' (List.mem_cons_of_mem q hq')) after reached

theorem performAll_settings {c : Census} (run : List Occasion) (consistent : c.Consistent) :
    (c.performAll run).census.Consistent ∧ (c.performAll run).census.settings = c.settings :=
  performAll_keeps (P := fun _ c' => c'.settings = c.settings) (H := fun _ => True) (h := [])
    (fun _ _ _ _ _ _ _ before step => step.settings.trans before) run (fun _ _ => trivial)
    consistent rfl

/-- What holds of a blank census without history and is kept by each step holds after
every run of a census that was opened. -/
theorem run_keeps {P : List Admission → Census → Prop} {H : Host → Prop}
    (blank : ∀ settings owner base, P [] (blank settings owner base))
    (step : ∀ host, H host → ∀ h c h' c', c.Consistent → P h c → Step host c h' c' →
      P (h ++ h') c')
    {host : Host} (known : H host) {settings : Settings} {owner : Thread} {c : Census}
    (opened : (establish host settings owner).1 = .ok c) (run : List Occasion)
    (hosts : ∀ q ∈ run, H q.host) :
    (c.performAll run).census.Consistent ∧ P (c.admissions run) (c.performAll run).census := by
  obtain ⟨consistent, start⟩ := (establish_grows opened).steps.keeps (step host known)
    (consistent_blank settings owner host.base) (blank settings owner host.base)
  exact performAll_keeps step run hosts consistent start

/-- Calls can lead to a census, from one that was opened, while the hosts are all of the
kind `H`. -/
def ReachableUnder (H : Host → Prop) (c : Census) : Prop :=
  ∃ host settings owner c₀ run, H host ∧ (establish host settings owner).1 = .ok c₀ ∧
    (∀ q ∈ run, H q.host) ∧ c = (c₀.performAll run).census

def Reachable : Census → Prop :=
  ReachableUnder fun _ => True

theorem ReachableUnder.mono {H H' : Host → Prop} {c : Census} (reach : c.ReachableUnder H)
    (weaker : ∀ host, H host → H' host) : c.ReachableUnder H' := by
  obtain ⟨host, settings, owner, c₀, run, known, opened, hosts, same⟩ := reach
  exact ⟨host, settings, owner, c₀, run, weaker host known, opened,
    fun q hq => weaker q.host (hosts q hq), same⟩

/-- What holds of a blank census and is kept by each step holds of what can be reached. -/
theorem ReachableUnder.keeps {P : Census → Prop} {H : Host → Prop} {c : Census}
    (reach : c.ReachableUnder H)
    (blank : ∀ settings owner base, P (blank settings owner base))
    (step : ∀ host, H host → ∀ c h c', c.Consistent → P c → Step host c h c' → P c') :
    c.Consistent ∧ P c := by
  obtain ⟨host, settings, owner, c₀, run, known, opened, hosts, rfl⟩ := reach
  exact run_keeps (P := fun _ => P) blank
    (fun host known _ c h' c' consistent before one =>
      step host known c h' c' consistent before one) known opened run hosts

theorem ReachableUnder.consistent {H : Host → Prop} {c : Census} (reach : c.ReachableUnder H) :
    c.Consistent :=
  (reach.keeps (P := fun _ => True) (fun _ _ _ => trivial) fun _ _ _ _ _ _ _ _ => trivial).1

theorem register_of_perform {c : Census} {host : Host} {thread : Thread} {d k : Descriptor}
    {merge : Bool}
    (h : (c.perform host thread (.register d merge)).answer = .standsUnder (.ok k)) :
    ∃ o, c.register host d merge = .ok o ∧ o.answer = k ∧
      o.census = (c.perform host thread (.register d merge)).census := by
  have allowed : c.ownership.permits thread = true := permits_of_answer (by rw [h]; nofun)
  rw [perform_of_permits allowed, apply] at h ⊢
  cases registered : c.register host d merge with
  | error e =>
      rw [registered] at h
      cases h
  | ok o =>
      rw [registered] at h
      cases h
      exact ⟨o, rfl, rfl, rfl⟩

end Census

end ClassCensus
