import ClassCensus.Host.Store
import ClassCensus.Proofs.History

/-!
# Surveys one after the other

A survey goes through what the host lists and leaves out the classes that fail. Over
a host that stays the same, a second survey has nothing to do but for these. A class
may fail since its way up does not end. This does not change, as a survey enters a
class only below what is on record. Or it may fail since its way up is too long, and
this may change: the limit is for the unknown part of the way, and classes that come
later in the list make this part shorter.

`survey_survey_iff` says that this is all that a second survey can find. It adds
nothing just where no class that was left out for its length has come into reach.
-/

namespace ClassCensus

namespace Census

def listed (host : Host) : List (Descriptor × (AscentError → LogRecord)) :=
  catalogTargets host ++ baselineTargets host

/-- A class that the host lists was left out, as its chain was too long at that moment. -/
def LeftOut (host : Host) (signals : List Signal) (d : Descriptor) : Prop :=
  ∃ skipped limit, (d, skipped) ∈ listed host ∧ .log (skipped (.tooDeep d limit)) ∈ signals

/-- A class is not on record, and its way up ends within the limit. -/
def InReach (c : Census) (host : Host) (d : Descriptor) : Prop :=
  ∃ anchor chain, Ascent.Climbs c.contains host.describe d anchor chain ∧ chain ≠ [] ∧
    chain.length ≤ c.settings.depthLimit

/-- A class is on record, or its way up does not end. -/
def Closed (c : Census) (host : Host) (d : Descriptor) : Prop :=
  c.contains d = true ∨ ¬ Ascent.Ends c.contains host.describe d

section Growth

variable {host : Host} {c c' : Census}

theorem StandsFor.known {d k : Descriptor} (h : c.StandsFor host false d k) :
    c.contains d = true := by
  cases h with
  | self known => exact known
  | merged _ mergeable =>
      rw [Kind.isDynamic_of, Bool.and_false] at mergeable
      cases mergeable

/-- A class that is entered had a way up that ends. -/
theorem Fits.ends {s : Sighting} {p : Option Descriptor} (fits : c.Fits host false s p) :
    Ascent.Ends c.contains host.describe s.descriptor := by
  cases extended : s.info.superclass with
  | none => exact ⟨_, _, .top fits.fresh fits.described extended⟩
  | some u =>
      obtain ⟨q, _, stands⟩ := fits.below u extended
      exact ⟨_, _, .up fits.fresh fits.described extended (.anchored stands.known)⟩

/-- No way up comes to end by what is entered. -/
theorem Grows.ends (h : Grows host false c c') {d : Descriptor}
    (after : Ascent.Ends c'.contains host.describe d) :
    Ascent.Ends c.contains host.describe d := by
  induction h with
  | refl => exact after
  | tail _ enters ih =>
      refine ih ?_
      obtain ⟨anchor, chain, way⟩ := after
      refine way.ends_of_forall fun e known => ?_
      cases enters with
      | intro fits =>
          rw [contains_enter, Bool.or_eq_true, decide_eq_true_iff] at known
          rcases known with rfl | known
          · exact fits.ends
          · exact ⟨_, _, .anchored known⟩

theorem Grows.closed (h : Grows host false c c') {d : Descriptor} (before : c.Closed host d) :
    c'.Closed host d :=
  before.imp h.contains fun endless after => endless (h.ends after)

end Growth

section Reach

variable {host : Host} {c c' : Census} {d : Descriptor}

theorem InReach.not_closed (h : c.InReach host d) : ¬ c.Closed host d := by
  obtain ⟨anchor, chain, way, some_way, _⟩ := h
  rintro (known | endless)
  · exact some_way (way.unique (.anchored known)).2
  · exact endless ⟨anchor, chain, way⟩

theorem inReach_congr (contains : c'.contains = c.contains)
    (settings : c'.settings = c.settings) : c'.InReach host d ↔ c.InReach host d := by
  rw [InReach, InReach, contains, settings]

theorem not_inReach_of_error {merge : Bool} {e : AscentError}
    (failed : c.register host d merge = .error e) : ¬ c.InReach host d := by
  rintro ⟨anchor, chain, way, _, short⟩
  rw [register_eq_ok_iff.mpr ⟨anchor, chain, way, short, rfl⟩] at failed
  cases failed

theorem attempt_of_not_inReach (out : ¬ c.InReach host d) (skipped : AscentError → LogRecord) :
    (c.attempt host d skipped).1 = c := by
  rw [attempt]
  split
  · next o registered =>
    obtain ⟨anchor, chain, way, short, rfl⟩ := register_eq_ok_iff.mp registered
    have nothing : chain = [] := by
      by_contra something
      exact out ⟨anchor, chain, way, something, short⟩
    rw [nothing, settleAll_nil]
  · rfl

theorem attemptAll_of_not_inReach {targets : List (Descriptor × (AscentError → LogRecord))}
    (out : ∀ target ∈ targets, ¬ c.InReach host target.1) :
    (attemptAll host c targets).1 = c := by
  induction targets with
  | nil => rfl
  | cons target targets ih =>
      have here := attempt_of_not_inReach (out target List.mem_cons_self) target.2
      rw [attemptAll, here]
      exact ih fun t ht => out t (List.mem_cons_of_mem target ht)

/-- After its turn a class is closed, or it was recorded as too deep. -/
theorem attempt_cases (c : Census) (host : Host) (d : Descriptor)
    (skipped : AscentError → LogRecord) :
    (c.attempt host d skipped).1.Closed host d ∨
      .log (skipped (.tooDeep d c.settings.depthLimit)) ∈ (c.attempt host d skipped).2 := by
  rw [attempt]
  split
  · next o registered => exact .inl (.inl (register_grows registered).2.known)
  · next e failed =>
    by_cases ends : Ascent.Ends c.contains host.describe d
    · rw [eq_tooDeep_of_register failed ends]
      exact .inr List.mem_cons_self
    · exact .inl (.inr ends)

end Reach

section Turn

variable {host : Host} {c : Census}

theorem attemptAll_turn {target : Descriptor × (AscentError → LogRecord)}
    {targets : List (Descriptor × (AscentError → LogRecord))} (member : target ∈ targets) :
    ∃ c₁, Grows host false c c₁ ∧
      Grows host false (c₁.attempt host target.1 target.2).1 (attemptAll host c targets).1 ∧
      (c₁.attempt host target.1 target.2).2 ⊆ (attemptAll host c targets).2 := by
  induction targets generalizing c with
  | nil => cases member
  | cons t targets ih =>
      rcases List.mem_cons.mp member with rfl | later
      · exact ⟨c, .refl, (attemptAll_advances host _ targets).grows, List.subset_append_left ..⟩
      · obtain ⟨c₁, before, after, signals⟩ := ih (c := (c.attempt host t.1 t.2).1) later
        exact ⟨c₁, (attempt_advances c host t.1 t.2).grows.trans before, after,
          fun s hs => List.mem_append_right _ (signals hs)⟩

variable {n : Nat} (answered : (c.survey host).answer = .ok n)

include answered

/-- A survey that succeeds has registered the base class, between the catalog and the
baseline. -/
theorem survey_cases :
    ∃ o, (attemptAll host c (catalogTargets host)).1.register host c.base false = .ok o ∧
      (c.survey host).census = (attemptAll host o.census (baselineTargets host)).1 ∧
      (c.survey host).signals = (attemptAll host c (catalogTargets host)).2 ++ o.signals ++
        (attemptAll host o.census (baselineTargets host)).2 ++ [.log (.surveyed n)] := by
  simp only [survey] at answered ⊢
  split at answered
  · cases answered
  · next o registered =>
    cases answered
    exact ⟨o, registered, rfl, rfl⟩

/-- Each class that the host lists has its turn in a survey that succeeds. -/
theorem survey_turn {target : Descriptor × (AscentError → LogRecord)}
    (member : target ∈ listed host) :
    ∃ c₁, Grows host false c c₁ ∧
      Grows host false (c₁.attempt host target.1 target.2).1 (c.survey host).census ∧
      (c₁.attempt host target.1 target.2).2 ⊆ (c.survey host).signals := by
  obtain ⟨o, registered, census, signals⟩ := survey_cases answered
  have base := (register_grows registered).1
  have catalog := (attemptAll_advances host c (catalogTargets host)).grows
  have baseline := (attemptAll_advances host o.census (baselineTargets host)).grows
  rw [census, signals]
  rcases List.mem_append.mp member with early | late
  · obtain ⟨c₁, before, after, made⟩ := attemptAll_turn (c := c) early
    refine ⟨c₁, before, (after.trans base).trans baseline, fun s hs => ?_⟩
    simp only [List.append_assoc]
    exact List.mem_append_left _ (made hs)
  · obtain ⟨c₁, before, after, made⟩ := attemptAll_turn (c := o.census) late
    refine ⟨c₁, (catalog.trans base).trans before, after, fun s hs => ?_⟩
    exact List.mem_append_left _ (List.mem_append_right _ (made hs))

theorem contains_base_survey : (c.survey host).census.contains c.base = true := by
  obtain ⟨o, registered, census, _⟩ := survey_cases answered
  rw [census]
  exact (attemptAll_advances host _ _).grows.contains (register_grows registered).2.known

/-- After a survey, a class that the host lists is closed or was left out. -/
theorem closed_or_leftOut_of_survey {target : Descriptor × (AscentError → LogRecord)}
    (member : target ∈ listed host) :
    (c.survey host).census.Closed host target.1 ∨
      LeftOut host (c.survey host).signals target.1 := by
  obtain ⟨c₁, _, after, signals⟩ := survey_turn answered member
  rcases attempt_cases c₁ host target.1 target.2 with closed | recorded
  · exact .inl (after.closed closed)
  · exact .inr ⟨target.2, _, member, signals recorded⟩

theorem not_inReach_of_survey_eq (same : (c.survey host).census = c)
    {target : Descriptor × (AscentError → LogRecord)} (member : target ∈ listed host) :
    ¬ c.InReach host target.1 := by
  obtain ⟨c₁, before, after, _⟩ := survey_turn answered member
  rw [same] at after
  intro reach
  have attempted := (attempt_advances c₁ host target.1 target.2).grows
  have contains : c₁.contains = c.contains := by
    funext e
    rw [Bool.eq_iff_iff]
    exact ⟨fun known => after.contains (attempted.contains known), before.contains⟩
  cases registered : c₁.register host target.1 false with
  | ok o =>
      rw [attempt, registered] at after
      exact reach.not_closed (.inl (after.contains (register_grows registered).2.known))
  | error e =>
      exact not_inReach_of_error registered ((inReach_congr contains before.settings).mpr reach)

end Turn

theorem survey_of_not_inReach {host : Host} {c : Census} (base : c.contains c.base = true)
    (out : ∀ target ∈ listed host, ¬ c.InReach host target.1) :
    (c.survey host).answer = .ok 0 ∧ (c.survey host).census = c := by
  have catalog : (attemptAll host c (catalogTargets host)).1 = c :=
    attemptAll_of_not_inReach fun t ht => out t (List.mem_append_left _ ht)
  have baseline : (attemptAll host c (baselineTargets host)).1 = c :=
    attemptAll_of_not_inReach fun t ht => out t (List.mem_append_right _ ht)
  simp only [survey, catalog, register_of_contains base, baseline, Nat.sub_self, and_self]

theorem survey_survey_iff {host : Host} {c : Census} {n : Nat}
    (first : (c.survey host).answer = .ok n) :
    (((c.survey host).census.survey host).answer = .ok 0 ∧
        ((c.survey host).census.survey host).census = (c.survey host).census) ↔
      ∀ d, LeftOut host (c.survey host).signals d → ¬ (c.survey host).census.InReach host d := by
  constructor
  · rintro ⟨second, same⟩ d ⟨skipped, _, member, _⟩
    exact not_inReach_of_survey_eq second same member
  · intro out
    refine survey_of_not_inReach ?_ fun target member reach => ?_
    · rw [(survey_advances c host).grows.base]
      exact contains_base_survey first
    · rcases closed_or_leftOut_of_survey first member with closed | left
      · exact reach.not_closed closed
      · exact out target.1 left reach

/-- A survey that is called again adds nothing and leaves the census as it is, just where
no class that was left out as too deep has come into reach. -/
theorem perform_survey_again_iff {host : Host} {c : Census} {t t' : Thread} {n : Nat}
    (first : (c.perform host t .survey).answer = .surveyed (.ok n))
    (allowed : c.ownership.permits t' = true) :
    (((c.perform host t .survey).census.perform host t' .survey).answer = .surveyed (.ok 0) ∧
        ((c.perform host t .survey).census.perform host t' .survey).census =
          (c.perform host t .survey).census) ↔
      ∀ d, LeftOut host (c.perform host t .survey).signals d →
        ¬ (c.perform host t .survey).census.InReach host d := by
  have opened : c.ownership.permits t = true := by
    rw [← Bool.not_eq_false]
    intro refused
    rw [perform_of_not_permits refused] at first
    cases first
  have surveyed : c.perform host t .survey = (c.survey host).map .surveyed :=
    perform_of_permits opened host .survey
  rw [surveyed] at first ⊢
  have answered : (c.survey host).answer = .ok n := Answer.surveyed.inj first
  have again : (c.survey host).census.perform host t' .survey =
      ((c.survey host).census.survey host).map .surveyed := by
    refine perform_of_permits ?_ host .survey
    rw [(survey_advances c host).grows.ownership, allowed]
  simp only [Outcome.map, again, Answer.surveyed.injEq]
  exact survey_survey_iff answered

section Staggered

/-- The catalog lists a class, and not the root class that it extends. -/
def staggered : ClassStore :=
  (((ClassStore.withRoot "Object").define ⟨"Widget", some ⟨0x1000⟩, true⟩).2.enterType "Widget*"
    (some ⟨0x1040⟩)).2

def narrow : Census :=
  blank ⟨1, false, true⟩ ⟨0⟩ ⟨0x1000⟩

theorem reachable_narrow : narrow.Reachable :=
  ⟨staggered.toHost, ⟨1, false, true⟩, ⟨0⟩, narrow, [], trivial, rfl,
    fun _ _ => trivial, rfl⟩

/-- The class is too deep at its turn, and in reach when the root class is on record. -/
theorem perform_survey_again_narrow :
    (narrow.perform staggered.toHost ⟨0⟩ .survey).answer = .surveyed (.ok 1) ∧
      narrow.ownership.permits ⟨0⟩ = true ∧
      ((((narrow.perform staggered.toHost ⟨0⟩ .survey).census.perform staggered.toHost ⟨0⟩
              .survey).answer = .surveyed (.ok 0) ∧
          ((narrow.perform staggered.toHost ⟨0⟩ .survey).census.perform staggered.toHost ⟨0⟩
              .survey).census = (narrow.perform staggered.toHost ⟨0⟩ .survey).census) ↔
        ∀ d, LeftOut staggered.toHost (narrow.perform staggered.toHost ⟨0⟩ .survey).signals d →
          ¬ (narrow.perform staggered.toHost ⟨0⟩ .survey).census.InReach staggered.toHost d) := by
  have first : (narrow.perform staggered.toHost ⟨0⟩ .survey).answer = .surveyed (.ok 1) := rfl
  have allowed : narrow.ownership.permits ⟨0⟩ = true := rfl
  exact ⟨first, allowed, perform_survey_again_iff first allowed⟩

/-- A survey that is called again may add classes. -/
theorem exists_survey_again :
    ¬ ∀ (host : Host) (c : Census), c.Reachable → ∀ (t : Thread) (n : Nat),
      (c.perform host t .survey).answer = .surveyed (.ok n) →
        ((c.perform host t .survey).census.perform host t .survey).answer = .surveyed (.ok 0) ∧
          ((c.perform host t .survey).census.perform host t .survey).census =
            (c.perform host t .survey).census := by
  intro claim
  have first : (narrow.perform staggered.toHost ⟨0⟩ .survey).answer = .surveyed (.ok 1) := rfl
  have second : ((narrow.perform staggered.toHost ⟨0⟩ .survey).census.perform staggered.toHost
      ⟨0⟩ .survey).answer = .surveyed (.ok 1) := rfl
  have still := (claim staggered.toHost narrow reachable_narrow ⟨0⟩ 1 first).1
  rw [second] at still
  cases still

end Staggered

end Census

end ClassCensus
