import ClassCensus.Proofs.Survey

/-!
# How long the lineages get

The depth limit is for what one registration has to make up for. It does not look at
what is on record already, so a lineage is made of parts: the limit holds for each
part, and every registration can put one more below what is there.

`Extends` says what growth makes of a lineage: unknown classes in front, and behind
them the lineage of a class that was on record, if there is one. A registration has
room for so many unknown classes, and this adds up over a run. `Deep` is the bound
that is carried along.
-/

namespace ClassCensus

/-- How many registrations a call makes at most. -/
def Call.registrations (host : Host) : Call → Nat
  | register .. => 1
  | survey => (Census.listed host).length + 1
  | construct _ => 1
  | destroy _ => 0
  | subscribe => 0
  | unsubscribe _ => 0

namespace Census

def openingRegistrations (host : Host) (settings : Settings) : Nat :=
  if settings.surveyOnOpening then Call.survey.registrations host else 0

/-- How many registrations the calls of a run make at most. -/
def registrations : List Occasion → Nat
  | [] => 0
  | q :: run => q.call.registrations q.host + registrations run

def Deep (c : Census) (n : Nat) : Prop :=
  ∀ d, c.contains d = true → (c.forest.lineage d).length ≤ n

/-- A lineage has the classes `new` in front, which are not on record in `c`, and goes on
with the lineage in `c` of a class on record, or ends. -/
structure Extends (c : Census) (lineage new old : List Descriptor) : Prop where
  parts : lineage = new ++ old
  unknown : ∀ x ∈ new, c.contains x = false
  older : old = [] ∨ ∃ a, c.contains a = true ∧ old = c.forest.lineage a

section Growth

variable {host : Host} {merge : Bool} {c c' : Census}

theorem Grows.lineage (h : Grows host merge c c') (coherent : c.Coherent) {d : Descriptor}
    (known : c.contains d = true) : c'.forest.lineage d = c.forest.lineage d := by
  refine ((h.keeps (P := fun c' => c'.contains d = true ∧
    c'.forest.lineage d = c.forest.lineage d) coherent ⟨known, rfl⟩ ?_).2).2
  rintro c₁ c₂ between ⟨known₁, same⟩ enters
  refine ⟨enters.contains known₁, ?_⟩
  cases enters with
  | intro fits => rw [fits.lineage_of_contains between known₁, same]

/-- Growth puts unknown classes in front of lineages on record. -/
theorem Grows.extends (h : Grows host merge c c') (coherent : c.Coherent) {d : Descriptor}
    (known : c'.contains d = true) : ∃ new old, c.Extends (c'.forest.lineage d) new old := by
  induction h generalizing d with
  | refl => exact ⟨[], c.forest.lineage d, rfl, by simp, .inr ⟨d, known, rfl⟩⟩
  | @tail c₁ c₂ before enters ih =>
      have grown : Grows host merge c c₁ := before
      have between := grown.coherent coherent
      cases enters with
      | @intro s p fits =>
          rw [contains_enter, Bool.or_eq_true, decide_eq_true_iff] at known
          rcases known with rfl | known
          · have fresh : c.contains s.descriptor = false := by
              rw [← Bool.not_eq_true]
              intro old
              exact Bool.false_ne_true (fits.fresh.symm.trans (grown.contains old))
            rw [fits.lineage_of_new between]
            cases p with
            | none => exact ⟨[s.descriptor], [], rfl, by simpa using fresh, .inl rfl⟩
            | some q =>
                obtain ⟨new, old, parts, unknown, older⟩ :=
                  ih (fits.parent_contains between q rfl)
                refine ⟨s.descriptor :: new, old, ?_, ?_, older⟩
                · rw [Option.elim_some, parts, List.cons_append]
                · exact List.forall_mem_cons.mpr ⟨fresh, unknown⟩
          · rw [fits.lineage_of_contains between known]
            exact ih known

/-- A registration puts no more unknown classes in front than the limit has room for. -/
theorem extends_of_register {d e : Descriptor} {o : Outcome Descriptor} (coherent : c.Coherent)
    (registered : c.register host d merge = .ok o) (known : o.census.contains e = true) :
    ∃ new old, c.Extends (o.census.forest.lineage e) new old ∧
      new.length ≤ c.settings.depthLimit := by
  obtain ⟨advances, _, news, short, only⟩ := register_advances registered
  obtain ⟨new, old, extended⟩ := advances.grows.extends coherent known
  have sound := (advances.grows.coherent coherent).sound
  have distinct : new.Nodup := by
    have whole := sound.lineage_nodup e
    rw [extended.parts] at whole
    exact (List.nodup_append.mp whole).1
  have inside : new ⊆ news := by
    intro x hx
    have above : x ∈ o.census.forest.lineage e := by
      rw [extended.parts]
      exact List.mem_append_left old hx
    refine (only x (sound.forall_mem_lineage known x above)).resolve_left fun older => ?_
    exact Bool.false_ne_true ((extended.unknown x hx).symm.trans older)
  exact ⟨new, old, extended, Nat.le_trans (distinct.subperm inside).length_le short⟩

end Growth

namespace Deep

variable {host : Host} {c : Census} {n m : Nat}

theorem mono (deep : c.Deep n) (more : n ≤ m) : c.Deep m :=
  fun d known => Nat.le_trans (deep d known) more

theorem of_forest_eq {c' : Census} (deep : c.Deep n) (forest : c'.forest = c.forest) :
    c'.Deep n := by
  intro d known
  rw [contains, forest] at known
  rw [forest]
  exact deep d known

/-- A registration makes lineages longer by what the limit has room for. -/
theorem register {merge : Bool} {d : Descriptor} {o : Outcome Descriptor} (deep : c.Deep n)
    (coherent : c.Coherent) (registered : c.register host d merge = .ok o) :
    o.census.Deep (n + c.settings.depthLimit) := by
  intro e known
  obtain ⟨new, old, extended, short⟩ := extends_of_register coherent registered known
  have rest : old.length ≤ n := by
    rcases extended.older with rfl | ⟨a, older, rfl⟩
    · exact Nat.zero_le n
    · exact deep a older
  rw [extended.parts, List.length_append, Nat.add_comm]
  exact Nat.add_le_add rest short

theorem attempt (deep : c.Deep n) (coherent : c.Coherent) (d : Descriptor)
    (skipped : AscentError → LogRecord) :
    (c.attempt host d skipped).1.Deep (n + c.settings.depthLimit) := by
  rw [Census.attempt]
  split
  · next registered => exact deep.register coherent registered
  · exact deep.mono (Nat.le_add_right ..)

theorem attemptAll (deep : c.Deep n) (coherent : c.Coherent) (host : Host)
    (targets : List (Descriptor × (AscentError → LogRecord))) :
    (Census.attemptAll host c targets).1.Deep (n + c.settings.depthLimit * targets.length) := by
  induction targets generalizing c n with
  | nil => exact deep
  | cons target targets ih =>
      have grown := (attempt_advances c host target.1 target.2).grows
      have rest := ih (deep.attempt coherent target.1 target.2) (grown.coherent coherent)
      rw [grown.settings] at rest
      refine rest.mono (Nat.le_of_eq ?_)
      rw [List.length_cons, Nat.mul_succ, Nat.add_assoc, Nat.add_comm (_ * _)]

theorem survey (deep : c.Deep n) (coherent : c.Coherent) (host : Host) :
    (c.survey host).census.Deep
      (n + c.settings.depthLimit * Call.survey.registrations host) := by
  have catalog := deep.attemptAll coherent host (catalogTargets host)
  have grown := (attemptAll_advances host c (catalogTargets host)).grows
  rw [Call.registrations, listed, List.length_append]
  simp only [Census.survey]
  split
  · refine catalog.mono (Nat.add_le_add_left (Nat.mul_le_mul_left _ ?_) n)
    exact Nat.le_trans (Nat.le_add_right ..) (Nat.le_add_right ..)
  · next o registered =>
    have coherent₁ := grown.coherent coherent
    have grown₂ := (register_grows registered).1
    have baseline := (catalog.register coherent₁ registered).attemptAll
      (grown₂.coherent coherent₁) host (baselineTargets host)
    rw [grown₂.settings, grown.settings] at baseline
    refine baseline.mono (Nat.le_of_eq ?_)
    rw [Nat.mul_add, Nat.mul_add, Nat.mul_one]
    omega

theorem leads (deep : c.Deep n) (coherent : c.Coherent) {call : Call} {c' : Census}
    (led : Leads host c call c') :
    c'.Deep (n + c.settings.depthLimit * call.registrations host) := by
  have unchanged := deep.mono (Nat.le_add_right n (c.settings.depthLimit * call.registrations host))
  cases led with
  | unchanged => exact unchanged
  | registered h =>
      rw [Call.registrations, Nat.mul_one]
      exact deep.register coherent h
  | surveyed => exact deep.survey coherent host
  | constructed _ h =>
      rw [Call.registrations, Nat.mul_one]
      exact (deep.register coherent h).of_forest_eq (forest_receive ..)
  | destroyed => exact unchanged.of_forest_eq (forest_dismiss ..)
  | subscribed => exact unchanged.of_forest_eq rfl
  | unsubscribed => exact unchanged.of_forest_eq rfl

theorem performAll (deep : c.Deep n) (consistent : c.Consistent) (run : List Occasion) :
    (c.performAll run).census.Deep (n + c.settings.depthLimit * registrations run) := by
  induction run generalizing c n with
  | nil => exact deep
  | cons q run ih =>
      have steps := perform_steps consistent q
      have rest := ih (deep.leads consistent.toCoherent (perform_leads consistent q))
        (steps.consistent consistent)
      rw [steps.settings] at rest
      refine rest.mono (Nat.le_of_eq ?_)
      rw [registrations, Nat.mul_add, Nat.add_assoc]

end Deep

theorem deep_blank (settings : Settings) (owner : Thread) (base : Descriptor) :
    (blank settings owner base).Deep 0 := by
  intro d known
  simp [blank, contains, Forest.contains, Forest.empty] at known

theorem deep_of_opened {host : Host} {settings : Settings} {owner : Thread} {c : Census}
    (opened : (establish host settings owner).1 = .ok c) :
    c.Deep (settings.depthLimit * openingRegistrations host settings) := by
  have start := deep_blank settings owner host.base
  rw [establish_eq opened, openingRegistrations]
  split
  · have surveyed := start.survey (coherent_blank settings owner host.base) host
    rwa [Nat.zero_add] at surveyed
  · exact start

/-- What the depth limit says of lineages, where `n` registrations were made at most. -/
structure DepthLaws (c : Census) (n : Nat) : Prop where
  bounded : ∀ d, c.contains d = true →
    (c.forest.lineage d).length ≤ c.settings.depthLimit * n
  kept : ∀ host t d merge k,
    (c.perform host t (.register d merge)).answer = .standsUnder (.ok k) →
      ∀ e, c.contains e = true →
        (c.perform host t (.register d merge)).census.forest.lineage e = c.forest.lineage e
  extended : ∀ host t d merge k,
    (c.perform host t (.register d merge)).answer = .standsUnder (.ok k) →
      ∀ e, (c.perform host t (.register d merge)).census.contains e = true →
        ∃ new old, c.Extends
            ((c.perform host t (.register d merge)).census.forest.lineage e) new old ∧
          new.length ≤ c.settings.depthLimit

/-- The limit bounds what one registration puts in front of a lineage, and so the lineages
of a run by the number of its registrations. -/
theorem depthLaws_of_run {host : Host} {settings : Settings} {owner : Thread} {c : Census}
    (opened : (establish host settings owner).1 = .ok c) (run : List Occasion) :
    (c.performAll run).census.DepthLaws
      (openingRegistrations host settings + registrations run) := by
  have consistent := (establish_grows opened).steps.consistent
    (consistent_blank settings owner host.base)
  obtain ⟨after, unchanged⟩ := performAll_settings run consistent
  refine ⟨fun d known => ?_, fun host' t d merge k answer e known => ?_,
    fun host' t d merge k answer e known => ?_⟩
  · have deep := (deep_of_opened opened).performAll consistent run
    have set : c.settings = settings := (establish_grows opened).settings
    rw [unchanged, Nat.mul_add]
    rw [← set] at deep ⊢
    exact deep d known
  · obtain ⟨o, registered, _, reached⟩ := register_of_perform answer
    rw [← reached]
    exact (register_grows registered).1.lineage after.toCoherent known
  · obtain ⟨o, registered, _, reached⟩ := register_of_perform answer
    rw [← reached] at known ⊢
    exact extends_of_register after.toCoherent registered known

section Stacked

def stackedRun : List Occasion :=
  [.register ⟨0x1000⟩ false, .register ⟨0x1040⟩ false].map (⟨·, ⟨0⟩, staggered.toHost⟩)

/-- With room for one class each, two registrations make a lineage of two. -/
theorem depthLaws_stacked :
    (establish staggered.toHost ⟨1, false, true⟩ ⟨0⟩).1 = .ok narrow ∧
      (narrow.performAll stackedRun).census.forest.lineage ⟨0x1040⟩ = [⟨0x1040⟩, ⟨0x1000⟩] ∧
      (narrow.performAll stackedRun).census.DepthLaws 2 := by
  have opened : (establish staggered.toHost ⟨1, false, true⟩ ⟨0⟩).1 = .ok narrow := rfl
  exact ⟨opened, by decide +kernel, depthLaws_of_run opened stackedRun⟩

/-- A lineage can be longer than the depth limit. -/
theorem exists_lineage_too_long :
    ¬ ∀ c : Census, c.Reachable → ∀ d, c.contains d = true →
      (c.forest.lineage d).length ≤ c.settings.depthLimit := by
  intro claim
  have reach : (narrow.performAll stackedRun).census.Reachable :=
    ⟨staggered.toHost, ⟨1, false, true⟩, ⟨0⟩, narrow, stackedRun, trivial, rfl,
      fun _ _ => trivial, rfl⟩
  have known : (narrow.performAll stackedRun).census.contains ⟨0x1040⟩ = true := by
    decide +kernel
  have long : ((narrow.performAll stackedRun).census.forest.lineage ⟨0x1040⟩).length = 2 := by
    decide +kernel
  have limit : (narrow.performAll stackedRun).census.settings.depthLimit = 1 := rfl
  have short := claim _ reach ⟨0x1040⟩ known
  rw [long, limit] at short
  exact absurd short (by decide)

end Stacked

end Census

end ClassCensus
