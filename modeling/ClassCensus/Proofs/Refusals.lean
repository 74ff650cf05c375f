import ClassCensus.Host.Basic
import ClassCensus.Proofs.History

/-!
# Calls in vain

A call may be turned down: the thread may not change the census, a class cannot be put
on record, an object or an observer is not there. A construction may also be
accepted and have nothing left to do, as the object is tracked already. Such a call is in
vain. It leaves the census as it was and tells nobody of anything, though it may make a
record.

A run can be cut down to the calls that are not in vain. `proceedings` keeps of each call
all that went into it and all that came of it, so that the calls which are left can be
compared one by one with what they were in the whole run. A survey that fails is not in
vain, since it may have put classes on record before it failed.
-/

namespace ClassCensus

def Answer.declines : Answer → Bool
  | refused _ => true
  | standsUnder (.ok _) => false
  | standsUnder (.error _) => true
  | surveyed _ => false
  | destroyed d => d != .released
  | subscribed _ => false
  | unsubscribed present => !present

structure Proceeding where
  before : Census
  occasion : Occasion
  outcome : Outcome Answer

namespace Proceeding

def repeats (p : Proceeding) : Bool :=
  match p.occasion.call with
  | .construct r => (p.before.roster.classOf? r.object).isSome
  | _ => false

def isVain (p : Proceeding) : Bool :=
  p.outcome.answer.declines || p.repeats

end Proceeding

namespace Census

def proceeding (c : Census) (q : Occasion) : Proceeding :=
  ⟨c, q, c.perform q.host q.thread q.call⟩

def proceedings : Census → List Occasion → List Proceeding
  | _, [] => []
  | c, q :: run => c.proceeding q :: proceedings (c.proceeding q).outcome.census run

def fruitful (c : Census) (run : List Occasion) : List Occasion :=
  ((c.proceedings run).filter fun p => !p.isVain).map Proceeding.occasion

theorem proceedings_cons (c : Census) (q : Occasion) (run : List Occasion) :
    c.proceedings (q :: run) =
      c.proceeding q :: (c.proceeding q).outcome.census.proceedings run := rfl

theorem answer_performAll (c : Census) (run : List Occasion) :
    (c.performAll run).answer = (c.proceedings run).map fun p => p.outcome.answer := by
  induction run generalizing c with
  | nil => rfl
  | cons q run ih => exact congrArg _ (ih (c.proceeding q).outcome.census)

theorem classOf?_of_error {c : Census} {q : Occasion} {r : Report} {e : AscentError}
    (call : q.call = .construct r)
    (failed : (c.proceeding q).outcome.answer = .standsUnder (.error e)) :
    c.roster.classOf? r.object = none := by
  rw [proceeding, call] at failed
  have allowed : c.ownership.permits q.thread = true :=
    permits_of_answer (by rw [failed]; nofun)
  rw [perform_of_permits allowed, apply] at failed
  cases held : c.roster.classOf? r.object with
  | none => rfl
  | some k =>
      rw [construct_of_tracked held] at failed
      cases failed

section Vain

variable {c : Census} (consistent : c.Consistent)

include consistent

/-- A call in vain leaves the census as it was, and nobody is told of anything. -/
theorem proceeding_of_isVain {q : Occasion} (vain : (c.proceeding q).isVain = true) :
    (c.proceeding q).outcome.census = c ∧
      (c.proceeding q).outcome.signals.filterMap Signal.delivery? = [] := by
  have goes := perform_goes consistent q
  unfold proceeding at vain ⊢
  generalize c.admission? q = a, c.perform q.host q.thread q.call = o at goes vain
  cases goes with
  | refused => exact ⟨rfl, rfl⟩
  | failed => exact ⟨rfl, rfl⟩
  | registered => cases vain
  | surveyed => cases vain
  | repeated => exact ⟨rfl, rfl⟩
  | constructed new =>
      have fresh : (c.roster.classOf? _).isSome = true := vain
      rw [new] at fresh
      cases fresh
  | untracked => exact ⟨rfl, rfl⟩
  | released => cases vain
  | subscribed => cases vain
  | unsubscribed id =>
      have absent : id ∉ c.observers.subscribed := by
        simpa [Proceeding.isVain, Proceeding.repeats, Answer.declines, Observers.unsubscribe]
          using vain
      refine ⟨?_, rfl⟩
      simp only [Observers.unsubscribe_of_not_mem absent]

theorem fruitful_of_isVain {q : Occasion} {run : List Occasion}
    (vain : (c.proceeding q).isVain = true) : c.fruitful (q :: run) = c.fruitful run := by
  rw [fruitful, proceedings_cons, List.filter_cons_of_neg (by simp [vain]),
    (proceeding_of_isVain consistent vain).1, fruitful]

omit consistent in
theorem fruitful_of_not_isVain {q : Occasion} {run : List Occasion}
    (fruit : (c.proceeding q).isVain = false) :
    c.fruitful (q :: run) = q :: (c.proceeding q).outcome.census.fruitful run := by
  rw [fruitful, proceedings_cons, List.filter_cons_of_pos (by simp [fruit]), List.map_cons]
  rfl

/-- The calls that are left go as they went in the whole run. -/
theorem proceedings_fruitful (run : List Occasion) :
    c.proceedings (c.fruitful run) = (c.proceedings run).filter fun p => !p.isVain := by
  induction run generalizing c with
  | nil => rfl
  | cons q run ih =>
      have after : (c.proceeding q).outcome.census.Consistent := consistent.perform q
      cases vain : (c.proceeding q).isVain with
      | true =>
          rw [fruitful_of_isVain consistent vain, proceedings_cons,
            List.filter_cons_of_neg (by simp [vain]), (proceeding_of_isVain consistent vain).1]
          exact ih consistent
      | false =>
          rw [fruitful_of_not_isVain vain, proceedings_cons, proceedings_cons,
            List.filter_cons_of_pos (by simp [vain]), ih after]

theorem performAll_fruitful_agrees (run : List Occasion) :
    (c.performAll (c.fruitful run)).census = (c.performAll run).census ∧
      (c.performAll (c.fruitful run)).signals.filterMap Signal.delivery? =
        (c.performAll run).signals.filterMap Signal.delivery? := by
  induction run generalizing c with
  | nil => exact ⟨rfl, rfl⟩
  | cons q run ih =>
      cases vain : (c.proceeding q).isVain with
      | true =>
          obtain ⟨kept, silent⟩ := proceeding_of_isVain consistent vain
          rw [proceeding] at kept silent
          rw [fruitful_of_isVain consistent vain, performAll_cons_census,
            performAll_cons_signals, List.filterMap_append, silent, kept, List.nil_append]
          exact ih consistent
      | false =>
          obtain ⟨census, told⟩ := ih (consistent.perform q)
          rw [fruitful_of_not_isVain vain, performAll_cons_census, performAll_cons_census,
            performAll_cons_signals, performAll_cons_signals, List.filterMap_append,
            List.filterMap_append]
          exact ⟨census, congrArg _ told⟩

theorem forall_proceedings {P : Proceeding → Prop}
    (each : ∀ c : Census, c.Consistent → ∀ q, P (c.proceeding q)) (run : List Occasion) :
    ∀ p ∈ c.proceedings run, P p := by
  induction run generalizing c with
  | nil => exact fun p member => absurd member List.not_mem_nil
  | cons q run ih =>
      rw [proceedings_cons]
      exact List.forall_mem_cons.mpr ⟨each c consistent q, ih (consistent.perform q)⟩

end Vain

structure VainLaws (c : Census) (run : List Occasion) : Prop where
  proceedings_eq :
    c.proceedings (c.fruitful run) = (c.proceedings run).filter fun p => !p.isVain
  answer_eq : (c.performAll (c.fruitful run)).answer =
    ((c.proceedings run).filter fun p => !p.isVain).map fun p => p.outcome.answer
  deliveries_eq : (c.performAll (c.fruitful run)).signals.filterMap Signal.delivery? =
    (c.performAll run).signals.filterMap Signal.delivery?
  census_eq : (c.performAll (c.fruitful run)).census = (c.performAll run).census
  kept : ∀ p ∈ c.proceedings run, p.isVain = true →
    p.outcome.census = p.before ∧ p.outcome.signals.filterMap Signal.delivery? = []
  untracked : ∀ p ∈ c.proceedings run, ∀ r e, p.occasion.call = .construct r →
    p.outcome.answer = .standsUnder (.error e) →
      p.outcome.census = p.before ∧ p.outcome.census.roster.classOf? r.object = none

/-- Calls in vain can be left out of a run, whatever the hosts tell in the meantime. The
other calls go as before, with the same answers and the same views for the observers, and
the census in the end is the same. A construction that fails is such a call, so it puts
nothing on record and tracks nothing. -/
theorem vainLaws_of_reachable {c : Census} (reach : c.Reachable) (run : List Occasion) :
    c.VainLaws run := by
  have consistent := reach.consistent
  obtain ⟨census, told⟩ := performAll_fruitful_agrees consistent run
  have left := proceedings_fruitful consistent run
  refine ⟨left, ?_, told, census, ?_, ?_⟩
  · rw [answer_performAll, left]
  · exact forall_proceedings (P := fun p => p.isVain = true → p.outcome.census = p.before ∧
      p.outcome.signals.filterMap Signal.delivery? = []) consistent
      (fun _ between _ vain => proceeding_of_isVain between vain) run
  · refine forall_proceedings (P := fun p => ∀ r e, p.occasion.call = .construct r →
      p.outcome.answer = .standsUnder (.error e) → p.outcome.census = p.before ∧
        p.outcome.census.roster.classOf? r.object = none) consistent ?_ run
    intro c₁ between q r e call failed
    have vain : (c₁.proceeding q).isVain = true := by
      rw [Proceeding.isVain, failed]
      rfl
    rw [(proceeding_of_isVain between vain).1]
    exact ⟨rfl, classOf?_of_error call failed⟩

section Pestered

def broken : ClassTable :=
  ((((ClassTable.empty ⟨1⟩).put ⟨1⟩ ⟨"Object", none, true⟩).put ⟨2⟩ ⟨"Item", some ⟨9⟩, false⟩).put
    ⟨3⟩ ⟨"Left", some ⟨4⟩, false⟩).put ⟨4⟩ ⟨"Right", some ⟨3⟩, false⟩

def mended : ClassTable :=
  broken.put ⟨9⟩ ⟨"Widget", some ⟨1⟩, false⟩

/-- A run in which each kind of call is made in vain and to some purpose. -/
def pesteredRun : List Occasion :=
  [⟨.subscribe, ⟨0⟩, broken.toHost⟩, ⟨.construct ⟨⟨10⟩, ⟨2⟩, true⟩, ⟨0⟩, broken.toHost⟩,
    ⟨.register ⟨3⟩ false, ⟨0⟩, broken.toHost⟩, ⟨.survey, ⟨7⟩, broken.toHost⟩,
    ⟨.construct ⟨⟨10⟩, ⟨2⟩, true⟩, ⟨0⟩, mended.toHost⟩,
    ⟨.construct ⟨⟨10⟩, ⟨1⟩, false⟩, ⟨0⟩, mended.toHost⟩, ⟨.destroy ⟨11⟩, ⟨0⟩, mended.toHost⟩,
    ⟨.unsubscribe ⟨5⟩, ⟨0⟩, mended.toHost⟩, ⟨.destroy ⟨10⟩, ⟨7⟩, mended.toHost⟩,
    ⟨.destroy ⟨10⟩, ⟨0⟩, broken.toHost⟩, ⟨.survey, ⟨0⟩, broken.toHost⟩]

theorem vainLaws_pesteredRun :
    let c := blank ⟨8, false, true⟩ ⟨0⟩ ⟨1⟩
    c.Reachable ∧
      (c.fruitful pesteredRun).map Occasion.call =
        [.subscribe, .construct ⟨⟨10⟩, ⟨2⟩, true⟩, .destroy ⟨10⟩, .survey] ∧
      (c.performAll pesteredRun).census.descriptors = [⟨1⟩, ⟨9⟩, ⟨2⟩] ∧
      ((c.performAll pesteredRun).signals.filterMap Signal.delivery?).length = 12 ∧
      c.VainLaws pesteredRun := by
  have reach : (blank ⟨8, false, true⟩ ⟨0⟩ ⟨1⟩).Reachable :=
    ⟨broken.toHost, ⟨8, false, true⟩, ⟨0⟩, _, [], trivial, rfl, fun _ _ => trivial, rfl⟩
  exact ⟨reach, by decide +kernel, by decide +kernel, by decide +kernel,
    vainLaws_of_reachable reach pesteredRun⟩

end Pestered

end Census

end ClassCensus
