import ClassCensus.Proofs.Hierarchy
import ClassCensus.Proofs.NameTable
import ClassCensus.Proofs.Survey

/-!
# Without merging

As long as merging is never asked for, a census is a part of the host's hierarchy, copied
class by class: `Faithful` says that every class on record has the name, the storage and
the superclass that the host tells. Which part it is depends only on the classes that
were registered with success. `Spans` says that it is what the superclass chains of these
classes run through.

A registration looks no further up than to the first class on record. What is above this
class is on record as well, since a faithful census has the superclass of every class that
it has. So the order of the registrations plays no part, and what failed has left nothing
behind.
-/

namespace ClassCensus

open Relation

def Call.merges : Call → Bool
  | register _ merge => merge
  | survey => false
  | construct r => r.generated
  | destroy _ => false
  | subscribe => false
  | unsubscribe _ => false

namespace Census

section Registered

variable (c : Census) (host : Host)

/-- The class, if it can be registered without merging. -/
def registeredAlone (d : Descriptor) : List Descriptor :=
  match c.register host d false with
  | .ok _ => [d]
  | .error _ => []

def registeredAll (host : Host) :
    Census → List (Descriptor × (AscentError → LogRecord)) → List Descriptor
  | _, [] => []
  | c, target :: targets =>
    c.registeredAlone host target.1 ++
      registeredAll host (c.attempt host target.1 target.2).1 targets

def registeredBySurvey : List Descriptor :=
  registeredAll host c (catalogTargets host) ++
    match (attemptAll host c (catalogTargets host)).1.register host c.base false with
    | .ok base => c.base :: registeredAll host base.census (baselineTargets host)
    | .error _ => []

/-- The classes that a call registers with success. The class of an object that is tracked
already is not looked at. -/
def registeredBy (q : Occasion) : List Descriptor :=
  match q.call, (c.perform q.host q.thread q.call).answer with
  | .register d _, .standsUnder (.ok _) => [d]
  | .survey, .surveyed _ => c.registeredBySurvey q.host
  | .construct r, .standsUnder (.ok _) =>
    if c.roster.classOf? r.object = none then [r.descriptor] else []
  | _, _ => []

def registeredDuring : Census → List Occasion → List Descriptor
  | _, [] => []
  | c, q :: run =>
    c.registeredBy q ++ registeredDuring (c.perform q.host q.thread q.call).census run

end Registered

def Faithful (c : Census) (host : Host) : Prop :=
  ∀ d, c.contains d = true → ∃ info e, host.describe d = some info ∧ c.entryOf? d = some e ∧
    e.className = info.className ∧ e.kind.isStatic = info.readOnly ∧
    c.forest.parent? d = info.superclass

/-- The record is a part of the host's hierarchy, the part that the superclass chains of
the classes `ds` run through. -/
structure Spans (host : Host) (ds : List Descriptor) (c : Census) : Prop where
  faithful : c.Faithful host
  contains_iff : ∀ e, c.contains e = true ↔ ∃ d ∈ ds, ReflTransGen host.Extends d e

section Faithful

variable {host : Host} {c c' : Census}

/-- Without merging a class stands for itself alone. -/
theorem StandsFor.eq {d k : Descriptor} (h : c.StandsFor host false d k) : k = d := by
  cases h with
  | self => rfl
  | merged _ mergeable =>
      rw [Kind.isDynamic_of, Bool.and_false] at mergeable
      cases mergeable

/-- Without merging a class is entered below its superclass. -/
theorem Fits.parent_eq {s : Sighting} {p : Option Descriptor} (fits : c.Fits host false s p) :
    p = s.info.superclass := by
  cases extended : s.info.superclass with
  | none => exact fits.root extended
  | some u =>
      obtain ⟨q, rfl, stands⟩ := fits.below u extended
      rw [stands.eq]

namespace Faithful

theorem enters (faithful : c.Faithful host) (coherent : c.Coherent)
    (enters : Enters host false c c') : c'.Faithful host := by
  have kept := fun d e => enters.entryOf? coherent (d := d) (e := e)
  cases enters with
  | @intro s p fits =>
      intro d known
      rw [contains_enter, Bool.or_eq_true, decide_eq_true_iff] at known
      rcases known with rfl | old
      · refine ⟨s.info, .fresh s.info.className (Kind.of s.info.readOnly false), fits.described,
          ?_, rfl, Kind.isStatic_of .., ?_⟩
        · rw [entryOf?_enter, if_pos rfl]
        · rw [forest_enter, Forest.parent?_grow, if_pos rfl, fits.parent_eq]
      · obtain ⟨info, e, described, entry, named, static, parent⟩ := faithful d old
        refine ⟨info, e, described, kept d e entry, named, static, ?_⟩
        rw [← parent]
        exact Forest.parent?_grow_of_contains fits.fresh p old

theorem grows (faithful : c.Faithful host) (coherent : c.Coherent)
    (grown : Grows host false c c') : c'.Faithful host :=
  (grown.keeps (P := fun c => c.Faithful host) coherent faithful
    fun _ _ between held step => held.enters between step).2

/-- A superclass chain that starts on record does not leave it. -/
theorem contains_of_extends (faithful : c.Faithful host) (sound : c.forest.Sound)
    {d e : Descriptor} (known : c.contains d = true) (above : ReflTransGen host.Extends d e) :
    c.contains e = true := by
  induction above with
  | refl => exact known
  | tail _ extended ih =>
      obtain ⟨info, described, next⟩ := extended
      obtain ⟨info', _, described', _, _, _, parent⟩ := faithful _ ih
      cases described.symm.trans described'
      exact sound.parent_contains (parent.trans next)

end Faithful

namespace Spans

variable {ds : List Descriptor}

theorem recounted (spans : c.Spans host ds) (recounts : c.Recounts c') : c'.Spans host ds := by
  refine ⟨fun d known => ?_, fun e => ?_⟩
  · rw [recounts.contains] at known
    obtain ⟨info, e, described, entry, named, static, parent⟩ := spans.faithful d known
    obtain ⟨e', entry', same⟩ := recounts.entry d e entry
    refine ⟨info, e', described, entry', same.className.trans named, ?_, ?_⟩
    · rw [same.kind, static]
    · rw [recounts.forest, parent]
  · rw [recounts.contains]
    exact spans.contains_iff e

/-- What a registration adds is the superclass chain of the class that was asked for. -/
theorem register (spans : c.Spans host ds) (coherent : c.Coherent) {d : Descriptor}
    {o : Outcome Descriptor} (registered : c.register host d false = .ok o) :
    o.census.Spans host (ds ++ [d]) := by
  obtain ⟨grown, stands⟩ := register_grows registered
  have faithful := spans.faithful.grows coherent grown
  refine ⟨faithful, fun e => ⟨fun known => ?_, ?_⟩⟩
  · cases old : c.contains e with
    | true =>
        obtain ⟨d', member, above⟩ := (spans.contains_iff e).mp old
        exact ⟨d', List.mem_append_left _ member, above⟩
    | false =>
        exact ⟨d, List.mem_append_right _ List.mem_cons_self,
          extends_of_new registered old known⟩
  · rintro ⟨d', member, above⟩
    rcases List.mem_append.mp member with earlier | here
    · exact grown.contains ((spans.contains_iff e).mpr ⟨d', earlier, above⟩)
    · rw [List.mem_singleton.mp here] at above
      exact faithful.contains_of_extends (grown.coherent coherent).sound stands.known above

theorem attempt (spans : c.Spans host ds) (coherent : c.Coherent) (d : Descriptor)
    (skipped : AscentError → LogRecord) :
    (c.attempt host d skipped).1.Spans host (ds ++ c.registeredAlone host d) := by
  rw [Census.attempt, registeredAlone]
  cases registered : c.register host d false with
  | ok o => exact spans.register coherent registered
  | error e =>
      rw [List.append_nil]
      exact spans

theorem attemptAll (spans : c.Spans host ds) (coherent : c.Coherent)
    (targets : List (Descriptor × (AscentError → LogRecord))) :
    (Census.attemptAll host c targets).1.Spans host (ds ++ registeredAll host c targets) := by
  induction targets generalizing c ds with
  | nil =>
      rw [registeredAll, List.append_nil]
      exact spans
  | cons target targets ih =>
      rw [registeredAll, ← List.append_assoc]
      exact ih (spans.attempt coherent target.1 target.2)
        ((attempt_advances c host target.1 target.2).grows.coherent coherent)

theorem survey (spans : c.Spans host ds) (coherent : c.Coherent) :
    (c.survey host).census.Spans host (ds ++ c.registeredBySurvey host) := by
  have catalog := spans.attemptAll coherent (catalogTargets host)
  have between := (attemptAll_advances host c (catalogTargets host)).grows.coherent coherent
  simp only [Census.survey, registeredBySurvey]
  cases registered : (Census.attemptAll host c (catalogTargets host)).1.register host c.base
      false with
  | error e =>
      rw [List.append_nil]
      exact catalog
  | ok base =>
      have baseline := (catalog.register between registered).attemptAll
        ((register_grows registered).1.coherent between) (baselineTargets host)
      simpa only [List.append_assoc, List.singleton_append] using baseline

theorem perform (spans : c.Spans host ds) (consistent : c.Consistent) {q : Occasion}
    (same : q.host = host) (apart : q.call.merges = false) :
    (c.perform q.host q.thread q.call).census.Spans host (ds ++ c.registeredBy q) := by
  have coherent := consistent.toCoherent
  have unchanged : c.Spans host (ds ++ []) := by
    rw [List.append_nil]
    exact spans
  have goes := perform_goes consistent q
  unfold registeredBy
  generalize c.admission? q = a, c.perform q.host q.thread q.call = o at goes
  cases goes with
  | refused => cases q.call <;> exact unchanged
  | failed => cases q.call <;> exact unchanged
  | registered registered =>
      cases same
      cases apart
      exact spans.register coherent registered
  | surveyed =>
      cases same
      exact spans.survey coherent
  | repeated held =>
      simp only [held, reduceCtorEq, if_false]
      exact unchanged
  | @constructed r _ _ o new registered =>
      cases same
      rw [show r.generated = false from apart] at registered
      simp only [new, if_true]
      have after := (register_grows registered).1.coherent coherent
      exact (spans.register coherent registered).recounted (recounts_receive _ _ after.sound)
  | untracked => exact unchanged
  | released held =>
      exact unchanged.recounted (recounts_dismiss _ _ coherent.sound)
  | subscribed => exact ⟨unchanged.faithful, unchanged.contains_iff⟩
  | unsubscribed => exact ⟨unchanged.faithful, unchanged.contains_iff⟩

theorem performAll (spans : c.Spans host ds) (consistent : c.Consistent) {run : List Occasion}
    (same : ∀ q ∈ run, q.host = host) (apart : ∀ q ∈ run, q.call.merges = false) :
    (c.performAll run).census.Spans host (ds ++ c.registeredDuring run) := by
  induction run generalizing c ds with
  | nil =>
      rw [registeredDuring, List.append_nil]
      exact spans
  | cons q run ih =>
      have here := spans.perform consistent (same q List.mem_cons_self)
        (apart q List.mem_cons_self)
      rw [registeredDuring, ← List.append_assoc, performAll_cons_census]
      exact ih here (consistent.perform q) (fun q' later => same q' (List.mem_cons_of_mem q later))
        fun q' later => apart q' (List.mem_cons_of_mem q later)

section Agreement

variable {ds' : List Descriptor} (spans : c.Spans host ds) (spans' : c'.Spans host ds')
  (same : ∀ d, d ∈ ds ↔ d ∈ ds')

include spans spans' same

/-- The classes that were registered settle what is on record. -/
theorem contains_eq (e : Descriptor) : c'.contains e = c.contains e := by
  rw [Bool.eq_iff_iff, spans.contains_iff, spans'.contains_iff]
  exact exists_congr fun d => and_congr_left fun _ => (same d).symm

theorem parent?_eq (e : Descriptor) : c'.forest.parent? e = c.forest.parent? e := by
  have contains := spans.contains_eq spans' same e
  cases known : c.contains e with
  | false =>
      rw [known] at contains
      rw [Forest.parent?_of_not_contains known, Forest.parent?_of_not_contains contains]
  | true =>
      rw [known] at contains
      obtain ⟨info, _, described, _, _, _, parent⟩ := spans.faithful e known
      obtain ⟨info', _, described', _, _, _, parent'⟩ := spans'.faithful e contains
      cases described.symm.trans described'
      rw [parent, parent']

theorem inherits_eq (sound : c.forest.Sound) (sound' : c'.forest.Sound) (d a : Descriptor) :
    c'.forest.inherits d a = c.forest.inherits d a := by
  have contains : c'.forest.contains d = c.forest.contains d := spans.contains_eq spans' same d
  rw [Forest.inherits, Forest.inherits, contains]
  cases known : c.forest.contains d with
  | false => rfl
  | true =>
      rw [sound.lineage_of_parents sound' (fun e _ => spans.parent?_eq spans' same e) known]

end Agreement

end Spans

end Faithful

theorem spans_blank (host : Host) (settings : Settings) (owner : Thread) (base : Descriptor) :
    (blank settings owner base).Spans host [] := by
  have nothing : ∀ d, (blank settings owner base).contains d = false := by
    intro d
    simp [blank, contains, Forest.contains, Forest.empty]
  refine ⟨fun d known => ?_, fun e => ⟨fun known => ?_, ?_⟩⟩
  · rw [nothing d] at known
    cases known
  · rw [nothing e] at known
    cases known
  · rintro ⟨d, member, -⟩
    cases member

end Census

open Census

/-- A run over a host that stays the same, from the opening of a census on, in which
merging is never asked for. -/
structure PlainRun (host : Host) where
  settings : Settings
  owner : Thread
  opened : Census
  opened_eq : (establish host settings owner).1 = .ok opened
  calls : List Occasion
  same : ∀ q ∈ calls, q.host = host
  apart : ∀ q ∈ calls, q.call.merges = false

namespace PlainRun

variable {host : Host} (run : PlainRun host)

def census : Census :=
  (run.opened.performAll run.calls).census

def registered : List Descriptor :=
  (if run.settings.surveyOnOpening then
      (blank run.settings run.owner host.base).registeredBySurvey host
    else []) ++ run.opened.registeredDuring run.calls

theorem consistent_opened : run.opened.Consistent :=
  (establish_grows run.opened_eq).steps.consistent
    (consistent_blank run.settings run.owner host.base)

theorem spans_census : run.census.Spans host run.registered := by
  have blank := spans_blank host run.settings run.owner host.base
  refine Spans.performAll ?_ run.consistent_opened run.same run.apart
  rw [establish_eq run.opened_eq]
  split
  · have surveyed := blank.survey (coherent_blank run.settings run.owner host.base)
    rwa [List.nil_append] at surveyed
  · exact blank

/-- The record is what the superclass chains of the registered classes run through, as the
host tells it. So two runs that register the same classes agree, whatever the order, the
limits and the failures in between. -/
theorem spans_and_agrees :
    run.census.Spans host run.registered ∧
      ∀ run' : PlainRun host, (∀ d, d ∈ run.registered ↔ d ∈ run'.registered) →
        (∀ d, run'.census.contains d = run.census.contains d) ∧
        (∀ d, run'.census.forest.parent? d = run.census.forest.parent? d) ∧
        ∀ d a, run'.census.forest.inherits d a = run.census.forest.inherits d a := by
  have spans := run.spans_census
  refine ⟨spans, fun run' same => ?_⟩
  have spans' := run'.spans_census
  exact ⟨spans.contains_eq spans' same, spans.parent?_eq spans' same,
    spans.inherits_eq spans' same (run.consistent_opened.performAll run.calls).sound
      (run'.consistent_opened.performAll run'.calls).sound⟩

section Reordered

/-- From the top down. The circle of 4 and 5 is not taken up. -/
def downwardRun : PlainRun turned.toHost where
  settings := ⟨8, false, true⟩
  owner := ⟨0⟩
  opened := blank ⟨8, false, true⟩ ⟨0⟩ ⟨1⟩
  opened_eq := rfl
  calls := [⟨.survey, ⟨0⟩, turned.toHost⟩, ⟨.construct ⟨⟨10⟩, ⟨3⟩, false⟩, ⟨0⟩, turned.toHost⟩,
    ⟨.register ⟨4⟩ false, ⟨0⟩, turned.toHost⟩, ⟨.register ⟨6⟩ false, ⟨0⟩, turned.toHost⟩]
  same := by simp
  apart := by simp [Call.merges]

/-- The class 6 is too deep at first. -/
def upwardRun : PlainRun turned.toHost where
  settings := ⟨3, false, true⟩
  owner := ⟨7⟩
  opened := blank ⟨3, false, true⟩ ⟨7⟩ ⟨1⟩
  opened_eq := rfl
  calls := [⟨.register ⟨6⟩ false, ⟨7⟩, turned.toHost⟩, ⟨.register ⟨3⟩ false, ⟨7⟩, turned.toHost⟩,
    ⟨.register ⟨6⟩ false, ⟨7⟩, turned.toHost⟩, ⟨.register ⟨6⟩ false, ⟨7⟩, turned.toHost⟩,
    ⟨.destroy ⟨10⟩, ⟨7⟩, turned.toHost⟩, ⟨.survey, ⟨7⟩, turned.toHost⟩]
  same := by simp
  apart := by simp [Call.merges]

theorem spans_and_agrees_downwardRun :
    downwardRun.registered = [⟨1⟩, ⟨3⟩, ⟨6⟩] ∧ upwardRun.registered = [⟨3⟩, ⟨6⟩, ⟨6⟩, ⟨1⟩] ∧
      downwardRun.census.Spans turned.toHost downwardRun.registered ∧
      (∀ d, upwardRun.census.contains d = downwardRun.census.contains d) ∧
      (∀ d, upwardRun.census.forest.parent? d = downwardRun.census.forest.parent? d) ∧
      ∀ d a, upwardRun.census.forest.inherits d a = downwardRun.census.forest.inherits d a := by
  have down : downwardRun.registered = [⟨1⟩, ⟨3⟩, ⟨6⟩] := by decide +kernel
  have up : upwardRun.registered = [⟨3⟩, ⟨6⟩, ⟨6⟩, ⟨1⟩] := by decide +kernel
  obtain ⟨spans, agree⟩ := downwardRun.spans_and_agrees
  refine ⟨down, up, spans, agree upwardRun fun d => ?_⟩
  rw [down, up]
  simp only [List.mem_cons, List.not_mem_nil, or_false]
  tauto

end Reordered

end PlainRun

end ClassCensus
