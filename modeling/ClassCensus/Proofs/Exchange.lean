import ClassCensus.Proofs.Account

/-!
# Calls about different objects

Calls about different objects can be made in any order, as long as the record covers
them: they find all the classes that they need on record. Each of them leaves a census
like the one before, which says the same of the other objects. So the next call comes
to what it would have come to at first, with the same answer and the same admission.
`Unfolds` sums this up for a whole run. What the run comes to for an object is read off
the one call that is about it.

From there on the order of the calls plays no part. In two orders of a run, the same
objects are tracked in the end and their histories have the same admissions, so the
censuses are equal by `Matches.eq`.
-/

namespace ClassCensus

open Admission

namespace Admission

theorem latest?_append (h h' : List Admission) (o : Object) :
    latest? (h ++ h') o = (latest? h' o).or (latest? h o) := by
  rw [latest?, List.reverse_append, List.find?_append]
  rfl

theorem latest?_eq_some_iff {h : List Admission}
    (distinct : (h.map fun a => a.report.object).Nodup) {o : Object} {a : Admission} :
    latest? h o = some a ↔ a ∈ h ∧ a.report.object = o := by
  constructor
  · intro last
    have about := List.find?_some last
    exact ⟨mem_of_latest? last, of_decide_eq_true about⟩
  · rintro ⟨member, rfl⟩
    have found := List.find?_isSome (p := fun b => decide (b.report.object = a.report.object)).mpr
      ⟨a, List.mem_reverse.mpr member, decide_eq_true rfl⟩
    obtain ⟨b, last⟩ := Option.isSome_iff_exists.mp found
    have about := List.find?_some last
    have only : b = a :=
      List.inj_on_of_nodup_map distinct (mem_of_latest? last) member (of_decide_eq_true about)
    rw [latest?, last, only]

/-- Where no object is admitted twice, the order of the admissions does not matter to what
was reported. -/
theorem reported?_append_of_perm (h : List Admission) {t t' : List Admission}
    (distinct : (t.map fun a => a.report.object).Nodup) (perm : t.Perm t') (o : Object) :
    reported? (h ++ t') o = reported? (h ++ t) o := by
  have distinct' := (perm.map fun a => a.report.object).nodup_iff.mp distinct
  have last : latest? t' o = latest? t o := Option.ext fun a => by
    rw [latest?_eq_some_iff distinct', latest?_eq_some_iff distinct, perm.mem_iff]
  rw [reported?, reported?, latest?_append, latest?_append, last]

end Admission

structure Independent (run : List Occasion) : Prop where
  about : ∀ q ∈ run, ∃ o, q.call.object? = some o
  distinct : (run.map fun q => q.call.object?).Nodup

namespace Independent

variable {q : Occasion} {run run' : List Occasion}

theorem of_perm (independent : Independent run) (perm : run.Perm run') : Independent run' where
  about q member := independent.about q (perm.mem_iff.mpr member)
  distinct := (perm.map fun q => q.call.object?).nodup_iff.mp independent.distinct

theorem tail (independent : Independent (q :: run)) : Independent run where
  about q' member := independent.about q' (List.mem_cons_of_mem q member)
  distinct := (List.nodup_cons.mp independent.distinct).2

theorem apart (independent : Independent (q :: run)) {q' : Occasion} (later : q' ∈ run) :
    q.call.object? ≠ q'.call.object? := by
  intro same
  exact (List.nodup_cons.mp independent.distinct).1 (List.mem_map.mpr ⟨q', later, same.symm⟩)

end Independent

namespace Census

/-- The record covers a call that puts no class on record. -/
def Covers (c : Census) (q : Occasion) : Prop :=
  ∀ d, (c.perform q.host q.thread q.call).census.contains d = true → c.contains d = true

structure Persists (c c' : Census) (q : Occasion) : Prop where
  agrees : (c.perform q.host q.thread q.call).Agrees (c'.perform q.host q.thread q.call)
  admission : c'.admission? q = c.admission? q
  classOf? : ∀ o, q.call.object? = some o →
    (c'.perform q.host q.thread q.call).census.roster.classOf? o =
      (c.perform q.host q.thread q.call).census.roster.classOf? o

theorem Persists.covers_iff {c c' : Census} {q : Occasion} (persists : Persists c c' q)
    (alike : c.Alike c') : c'.Covers q ↔ c.Covers q := by
  refine forall_congr' fun d => ?_
  rw [persists.agrees.alike.contains, alike.contains]

section Head

variable {c : Census} (consistent : c.Consistent) {q : Occasion} {run : List Occasion}
  (independent : Independent (q :: run)) (covers : c.Covers q)

include consistent independent covers

theorem alike_perform : c.Alike (c.perform q.host q.thread q.call).census := by
  obtain ⟨o, about⟩ := independent.about q List.mem_cons_self
  exact (perform_leads consistent q).alike about consistent.toCoherent covers

/-- What the later calls come to is the same before the first one and after it. -/
theorem persists_perform {q' : Occasion} (later : q' ∈ run) :
    Persists c (c.perform q.host q.thread q.call).census q' := by
  obtain ⟨o, about⟩ := independent.about q List.mem_cons_self
  obtain ⟨o', about'⟩ := independent.tail.about q' later
  have alike := alike_perform consistent independent covers
  have consistent' := consistent.perform q
  have other : o ≠ o' := by
    rintro rfl
    exact independent.apart later (about.trans about'.symm)
  have same := (perform_leads consistent q).classOf?_of_ne about other
  obtain ⟨agrees, classOf?⟩ := alike.perform consistent consistent' about' same
  refine ⟨agrees, alike.admission?_eq consistent consistent' about' same, fun p hp => ?_⟩
  cases about'.symm.trans hp
  exact classOf?

end Head

theorem performAll_contains {c : Census} (consistent : c.Consistent) (run : List Occasion)
    {d : Descriptor} (known : c.contains d = true) :
    (c.performAll run).census.contains d = true := by
  induction run generalizing c with
  | nil => exact known
  | cons q run ih =>
      exact ih (consistent.perform q) ((perform_leads consistent q).contains known)

/-- The record covers each call of a run that puts no class on record, and it does so
before the run. -/
theorem covers_of_performAll {c : Census} (consistent : c.Consistent) {run : List Occasion}
    (independent : Independent run)
    (closed : ∀ d, (c.performAll run).census.contains d = true → c.contains d = true) :
    ∀ q ∈ run, c.Covers q := by
  induction run generalizing c with
  | nil => exact fun q member => absurd member List.not_mem_nil
  | cons q run ih =>
      have consistent' := consistent.perform q
      -- what the first call put on record would be there in the end
      have first : c.Covers q := fun d known =>
        closed d (performAll_contains consistent' run known)
      have alike := alike_perform consistent independent first
      intro q' member
      rcases List.mem_cons.mp member with rfl | later
      · exact first
      · refine ((persists_perform consistent independent first later).covers_iff alike).mp ?_
        refine ih consistent' independent.tail (fun d known => ?_) q' later
        rw [alike.contains]
        exact closed d known

/-- What a run comes to, told by what each of its calls would come to at first. -/
structure Unfolds (c : Census) (run : List Occasion) : Prop where
  answers : (c.performAll run).answer =
    run.map fun q => (c.perform q.host q.thread q.call).answer
  admissions : c.admissions run = run.filterMap c.admission?
  alike : c.Alike (c.performAll run).census
  classOf?_of_mem : ∀ q ∈ run, ∀ o, q.call.object? = some o →
    (c.performAll run).census.roster.classOf? o =
      (c.perform q.host q.thread q.call).census.roster.classOf? o
  classOf?_of_not_mem : ∀ o, (∀ q ∈ run, q.call.object? ≠ some o) →
    (c.performAll run).census.roster.classOf? o = c.roster.classOf? o

theorem unfolds_nil (c : Census) : c.Unfolds [] where
  answers := rfl
  admissions := rfl
  alike := .refl c
  classOf?_of_mem _ member := absurd member List.not_mem_nil
  classOf?_of_not_mem _ _ := rfl

/-- The rest of the run unfolds after the first call, and so does the whole before it. -/
theorem Unfolds.cons {c : Census} (consistent : c.Consistent) {q : Occasion}
    {run : List Occasion} (independent : Independent (q :: run)) (covers : c.Covers q)
    (rest : (c.perform q.host q.thread q.call).census.Unfolds run) : c.Unfolds (q :: run) := by
  obtain ⟨o, about⟩ := independent.about q List.mem_cons_self
  have persists : ∀ q' ∈ run, Persists c (c.perform q.host q.thread q.call).census q' :=
    fun q' later => persists_perform consistent independent covers later
  exact
  { answers := by
      refine congrArg _ (rest.answers.trans ?_)
      exact List.map_congr_left fun q' later => (persists q' later).agrees.answer
    admissions := by
      have same : run.filterMap (c.perform q.host q.thread q.call).census.admission? =
          run.filterMap c.admission? :=
        List.filterMap_congr fun q' later => (persists q' later).admission
      rw [admissions_cons, rest.admissions, same]
      cases admission : c.admission? q with
      | none => rw [List.filterMap_cons_none admission, Option.toList_none, List.nil_append]
      | some a => rw [List.filterMap_cons_some admission, Option.toList_some]; rfl
    alike := (alike_perform consistent independent covers).trans rest.alike
    classOf?_of_mem q' member p hp := by
      rw [performAll_cons_census]
      rcases List.mem_cons.mp member with rfl | later
      · -- no later call is about the object of the first one
        refine rest.classOf?_of_not_mem p fun q'' later hp' => ?_
        exact independent.apart later (hp.trans hp'.symm)
      · rw [rest.classOf?_of_mem q' later p hp]
        exact (persists q' later).classOf? p hp
    classOf?_of_not_mem p untouched := by
      rw [performAll_cons_census, rest.classOf?_of_not_mem p fun q' later =>
        untouched q' (List.mem_cons_of_mem q later)]
      refine (perform_leads consistent q).classOf?_of_ne about ?_
      rintro rfl
      exact untouched q List.mem_cons_self about }

theorem unfolds {c : Census} (consistent : c.Consistent) {run : List Occasion}
    (independent : Independent run) (covers : ∀ q ∈ run, c.Covers q) : c.Unfolds run := by
  induction run generalizing c with
  | nil => exact unfolds_nil c
  | cons q run ih =>
      have first := covers q List.mem_cons_self
      have alike := alike_perform consistent independent first
      refine .cons consistent independent first
        (ih (consistent.perform q) independent.tail fun q' later => ?_)
      exact ((persists_perform consistent independent first later).covers_iff alike).mpr
        (covers q' (List.mem_cons_of_mem q later))

theorem nodup_filterMap_admission? {c : Census} {run : List Occasion}
    (independent : Independent run) :
    ((run.filterMap c.admission?).map fun a => a.report.object).Nodup := by
  have distinct := independent.distinct
  rw [List.Nodup, List.pairwise_map] at distinct ⊢
  refine distinct.filterMap c.admission? fun q q' apart a admission a' admission' same => ?_
  refine apart ?_
  rw [object?_of_admission? admission, object?_of_admission? admission', same]

/-- Two orders of a run come to the same. -/
theorem Unfolds.matches {c : Census} {run run' : List Occasion} (one : c.Unfolds run)
    (two : c.Unfolds run') (independent : Independent run) (perm : run.Perm run')
    (h : List Admission) :
    Matches (h ++ c.admissions run) (c.performAll run).census (h ++ c.admissions run')
      (c.performAll run').census := by
  have admissions := perm.filterMap c.admission?
  rw [one.admissions, two.admissions]
  refine ⟨one.alike.symm.trans two.alike, fun o => ?_, fun o => ?_, fun d => ?_⟩
  · by_cases touched : ∃ q ∈ run, q.call.object? = some o
    · obtain ⟨q, member, about⟩ := touched
      rw [one.classOf?_of_mem q member o about,
        two.classOf?_of_mem q (perm.mem_iff.mp member) o about]
    · have untouched : ∀ q ∈ run, q.call.object? ≠ some o :=
        fun q member about => touched ⟨q, member, about⟩
      rw [one.classOf?_of_not_mem o untouched, two.classOf?_of_not_mem o fun q member =>
        untouched q (perm.mem_iff.mpr member)]
  · exact reported?_append_of_perm h (nodup_filterMap_admission? independent) admissions o
  · exact ((admissions.append_left h).countP_eq _).symm

/-- Where no class ever changes, calls about different objects that need no new class come
to the same in any order: each is answered as if it were the first one, and the census is
the same in the end, with all its counters and marks, its pools in their order and its
aliases. -/
theorem performAll_perm {M : Descriptor → ClassInfo} {c : Census}
    (reach : c.ReachableUnder (·.Tells M)) {run run' : List Occasion}
    (tells : ∀ q ∈ run, q.host.Tells M) (independent : Independent run)
    (closed : ∀ d, (c.performAll run).census.contains d = true → c.contains d = true)
    (perm : run.Perm run') :
    (c.performAll run').census = (c.performAll run).census ∧
      (c.performAll run).answer = run.map (fun q => (c.perform q.host q.thread q.call).answer) ∧
      (c.performAll run').answer =
        run'.map fun q => (c.perform q.host q.thread q.call).answer := by
  have consistent := reach.consistent
  have covers := covers_of_performAll consistent independent closed
  have one := unfolds consistent independent covers
  have two := unfolds consistent (independent.of_perm perm) fun q member =>
    covers q (perm.mem_iff.mpr member)
  obtain ⟨h, accounted⟩ := reach.accounted
  have kept (run : List Occasion) (tells : ∀ q ∈ run, q.host.Tells M) :=
    performAll_keeps (P := fun h c => c.Accounted M h) (H := (·.Tells M))
      (fun _ tells _ _ _ _ consistent before step => step.accounted tells consistent before)
      run tells consistent accounted
  obtain ⟨consistent₁, accounted₁⟩ := kept run tells
  obtain ⟨consistent₂, accounted₂⟩ := kept run' fun q member => tells q (perm.mem_iff.mpr member)
  have same := one.matches two independent perm h
  exact ⟨same.eq accounted₁ accounted₂ consistent₁ consistent₂, one.answers, two.answers⟩

section Crossing

def sharedPool : Census :=
  ((blank ⟨8, false, true⟩ ⟨0⟩ ⟨1⟩).performAll
    ([.construct ⟨⟨10⟩, ⟨5⟩, true⟩, .construct ⟨⟨11⟩, ⟨4⟩, true⟩, .construct ⟨⟨12⟩, ⟨5⟩, true⟩].map
      (⟨·, ⟨0⟩, regenerated.toHost⟩))).census

/-- Two of the objects go and two more come. One that is tracked is reported once more,
one of a class that is not described comes, and one goes that never came. -/
def crossingCalls : List Call :=
  [.destroy ⟨11⟩, .construct ⟨⟨13⟩, ⟨4⟩, true⟩, .destroy ⟨10⟩, .construct ⟨⟨12⟩, ⟨4⟩, true⟩,
    .construct ⟨⟨14⟩, ⟨9⟩, true⟩, .destroy ⟨77⟩, .construct ⟨⟨15⟩, ⟨5⟩, true⟩]

def crossingRun : List Occasion :=
  crossingCalls.map (⟨·, ⟨0⟩, regenerated.toHost⟩)

theorem independent_crossingRun : Independent crossingRun where
  about q member := by
    have about : ∀ call ∈ crossingCalls, call.object?.isSome = true := by decide
    obtain ⟨call, listed, rfl⟩ := List.mem_map.mp member
    exact Option.isSome_iff_exists.mp (about call listed)
  distinct := by decide

theorem performAll_perm_crossingRun :
    sharedPool.ReachableUnder (·.Tells regenerated.toHost.telling) ∧
      Independent crossingRun ∧
      (sharedPool.performAll crossingRun).census.descriptors = sharedPool.descriptors ∧
      ((sharedPool.performAll crossingRun).census.roster.pool? ⟨5⟩).map Pool.toList =
        some [⟨4⟩, ⟨5⟩, ⟨5⟩] ∧
      (sharedPool.performAll crossingRun.reverse).census =
        (sharedPool.performAll crossingRun).census := by
  have told : ∀ calls : List Call, ∀ q ∈ calls.map (⟨·, ⟨0⟩, regenerated.toHost⟩ : Call → Occasion),
      q.host.Tells regenerated.toHost.telling := by
    intro calls q member
    obtain ⟨_, _, rfl⟩ := List.mem_map.mp member
    exact regenerated.toHost.tells_telling
  have reach : sharedPool.ReachableUnder (·.Tells regenerated.toHost.telling) :=
    ⟨regenerated.toHost, ⟨8, false, true⟩, ⟨0⟩, blank ⟨8, false, true⟩ ⟨0⟩ ⟨1⟩, _,
      regenerated.toHost.tells_telling, rfl, told _, rfl⟩
  have same : (sharedPool.performAll crossingRun).census.descriptors =
      sharedPool.descriptors := by decide +kernel
  have after := reach.consistent.performAll crossingRun
  have closed : ∀ d, (sharedPool.performAll crossingRun).census.contains d = true →
      sharedPool.contains d = true := by
    intro d known
    have listed : d ∈ (sharedPool.performAll crossingRun).census.descriptors :=
      (after.sound.mem_order d).mpr known
    rw [same] at listed
    exact (reach.consistent.sound.mem_order d).mp listed
  exact ⟨reach, independent_crossingRun, same, by decide +kernel,
    (performAll_perm reach (told _) independent_crossingRun closed
      (List.reverse_perm crossingRun).symm).1⟩

end Crossing

end Census

end ClassCensus
