import ClassCensus.Proofs.Aliases
import ClassCensus.Proofs.Alike
import ClassCensus.Proofs.Staleness

/-!
# What determines a census

Most of a census can be worked out from the rest. The pools and the aliases come from
the objects that are tracked and their reports, the counters from these objects and the
history, and the marks from the counters. `Accounted` collects the laws that say so.
`Matches.eq` draws the conclusion: two censuses are equal, down to the order in their
pools, if the same classes are on record, the same objects are tracked with the same
reports, and as many objects of each class have been admitted.

The histories need not be the same, nor need they have the same order.
-/

namespace ClassCensus

open Admission

namespace Census

/-- A report is kept for an object only as long as it is tracked, under a class that has a
pool. -/
def Reporting (c : Census) : Prop :=
  ∀ o d, c.roster.reports[o]? = some d →
    ∃ k, c.roster.classOf? o = some k ∧ c.isDynamic k = true

namespace Reporting

variable {c c' : Census} (before : c.Reporting) (consistent : c.Consistent)

include before consistent

theorem enters {host : Host} {merge : Bool} (step : Enters host merge c c') :
    c'.Reporting := by
  intro o d report
  cases step with
  | @intro s p fits =>
      rw [reports_enter] at report
      obtain ⟨k, held, dynamic⟩ := before o d report
      refine ⟨k, ((Enters.intro fits).classOf? o).trans held, ?_⟩
      rw [isDynamic_enter, if_neg]
      · exact dynamic
      · rintro rfl
        cases fits.fresh.symm.trans (consistent.tracked_known o _ held)

theorem receive {r : Report} (new : c.roster.classOf? r.object = none) (k : Descriptor) :
    (c.receive r k).Reporting := by
  intro o d report
  simp only [isDynamic_receive r k consistent.sound, classOf?_receive]
  rw [reports_receive] at report
  by_cases here : r.object = o
  · subst here
    by_cases dynamic : c.isDynamic k = true
    · exact ⟨k, if_pos rfl, dynamic⟩
    · rw [if_neg fun joined => dynamic joined.1] at report
      obtain ⟨k', held, _⟩ := before r.object d report
      cases new.symm.trans held
  · rw [if_neg fun joined => here joined.2] at report
    rw [if_neg here]
    exact before o d report

theorem dismiss {h : List Admission} (pooled : c.Pooled h) {o : Object} {k : Descriptor}
    (held : c.roster.classOf? o = some k) : (c.dismiss o k).Reporting := by
  intro p d report
  obtain ⟨d', reported⟩ := pooled.exists_reported held
  simp only [isDynamic_dismiss o k consistent.sound, classOf?_dismiss]
  rw [reports_dismiss (pooled.reports_of_reported held reported)] at report
  split_ifs at report with left
  obtain ⟨k', held', dynamic⟩ := before p d report
  rw [if_neg]
  · exact ⟨k', held', dynamic⟩
  · rintro rfl
    cases held.symm.trans held'
    exact left ⟨dynamic, rfl⟩

end Reporting

structure Accounted (M : Descriptor → ClassInfo) (h : List Admission) (c : Census) : Prop where
  orderly : c.Orderly M h
  counted : c.Counted h
  timely : c.Timely
  reporting : c.Reporting

theorem Step.accounted {M : Descriptor → ClassInfo} {host : Host} {c c' : Census}
    {h h' : List Admission} (step : Step host c h' c') (tells : host.Tells M)
    (consistent : c.Consistent) (before : c.Accounted M h) : c'.Accounted M (h ++ h') where
  orderly := step.orderly tells consistent before.orderly
  counted := step.counted consistent before.counted
  timely := step.timely consistent before.counted before.timely
  reporting := by
    cases step with
    | enter enters => exact before.reporting.enters consistent enters
    | receive new => exact before.reporting.receive consistent new _
    | dismiss held => exact before.reporting.dismiss consistent before.orderly.pooled held
    | audience => exact before.reporting

theorem Steps.accounted {M : Descriptor → ClassInfo} {host : Host} {c c' : Census}
    {h h' : List Admission} (steps : Steps host c h' c') (tells : host.Tells M)
    (consistent : c.Consistent) (before : c.Accounted M h) :
    c'.Consistent ∧ c'.Accounted M (h ++ h') :=
  steps.keeps (P := fun h c => c.Accounted M h)
    (fun _ _ _ _ consistent before step => step.accounted tells consistent before) consistent
    before

theorem accounted_blank (M : Descriptor → ClassInfo) (settings : Settings) (owner : Thread)
    (base : Descriptor) : (blank settings owner base).Accounted M [] where
  orderly := orderly_blank M settings owner base
  counted := counted_blank settings owner base
  timely := timely_blank settings owner base
  reporting := by
    intro o d report
    simp [blank, Roster.empty] at report

theorem ReachableUnder.accounted {M : Descriptor → ClassInfo} {c : Census}
    (reach : c.ReachableUnder (·.Tells M)) : ∃ h, c.Accounted M h := by
  refine (reach.keeps (P := fun c => ∃ h, c.Accounted M h)
    (fun settings owner base => ⟨[], accounted_blank M settings owner base⟩) ?_).2
  rintro host tells c h' c' consistent ⟨h, before⟩ step
  exact ⟨_, step.accounted tells consistent before⟩

structure Matches (h : List Admission) (c : Census) (h' : List Admission) (c' : Census) :
    Prop where
  alike : c.Alike c'
  tracked : ∀ o, c'.roster.classOf? o = c.roster.classOf? o
  reported : ∀ o, reported? h' o = reported? h o
  totals : ∀ d, h'.countP (fun a => decide (a.counted = d)) =
    h.countP fun a => decide (a.counted = d)

namespace Matches

variable {M : Descriptor → ClassInfo} {h h' : List Admission} {c c' : Census}
  (same : Matches h c h' c') (accounted : c.Accounted M h) (accounted' : c'.Accounted M h')

include same

theorem under_eq (k : Descriptor) : c'.roster.under k = c.roster.under k :=
  Roster.under_eq_of_classOf?_eq same.tracked k

section Roster

include accounted accounted'

theorem reports_eq (o : Object) : c'.roster.reports[o]? = c.roster.reports[o]? := by
  by_cases held : ∃ k, c.roster.classOf? o = some k ∧ c.isDynamic k = true
  · obtain ⟨k, held, dynamic⟩ := held
    rw [accounted.orderly.pooled.reports o k held dynamic,
      accounted'.orderly.pooled.reports o k ((same.tracked o).trans held)
        ((same.alike.isDynamic k).trans dynamic), same.reported]
  · have free : c.roster.reports[o]? = none :=
      Option.eq_none_iff_forall_ne_some.mpr fun d report =>
        held (accounted.reporting o d report)
    have free' : c'.roster.reports[o]? = none := by
      refine Option.eq_none_iff_forall_ne_some.mpr fun d report => held ?_
      obtain ⟨k, held', dynamic⟩ := accounted'.reporting o d report
      rw [same.tracked] at held'
      rw [same.alike.isDynamic] at dynamic
      exact ⟨k, held', dynamic⟩
    rw [free, free']

/-- The members of a pool are known up to their order, and this is the ascending one. -/
theorem pool?_eq (k : Descriptor) : c'.roster.pool? k = c.roster.pool? k := by
  have pooled := accounted.orderly.pooled
  have pooled' := accounted'.orderly.pooled
  cases pool : c.roster.pool? k with
  | none =>
      rw [Option.eq_none_iff_forall_ne_some]
      intro p' pool'
      have dynamic := pooled'.isDynamic pool'
      rw [same.alike.isDynamic] at dynamic
      obtain ⟨p, found⟩ := (pooled.pool_iff k).mpr dynamic
      cases pool.symm.trans found
  | some p =>
      obtain ⟨p', pool'⟩ := (pooled'.pool_iff k).mpr
        ((same.alike.isDynamic k).trans (pooled.isDynamic pool))
      have members : (p'.toList : Multiset Descriptor).map some =
          (p.toList : Multiset Descriptor).map some := by
        rw [pooled'.members k p' pool', pooled.members k p pool, same.under_eq,
          funext same.reported]
      have perm : p'.toList.Perm p.toList :=
        Multiset.coe_eq_coe.mp (Multiset.map_injective (Option.some_injective _) members)
      rw [pool', Pool.eq_of_perm (pooled'.ascending k p' pool') (pooled.ascending k p pool) perm]

theorem aliases_eq (a : Descriptor) : c'.roster.aliases[a]? = c.roster.aliases[a]? := by
  have led_iff {h : List Admission} {c : Census} (orderly : c.Orderly M h) (k : Descriptor) :
      c.roster.aliases[a]? = some k ↔ ∃ p, c.roster.pool? k = some p ∧ a ∈ p.toList :=
    ⟨orderly.pooled.aliased a k, fun ⟨p, pool, member⟩ =>
      orderly.aligned.aliased k p a pool member⟩
  refine Option.ext fun k => ?_
  rw [led_iff accounted'.orderly, led_iff accounted.orderly, same.pool?_eq accounted accounted']

theorem roster_eq : c'.roster = c.roster := by
  have tracked : c'.roster.tracked = c.roster.tracked :=
    Std.ExtTreeMap.ext_getElem? same.tracked
  have reports : c'.roster.reports = c.roster.reports :=
    Std.ExtTreeMap.ext_getElem? (same.reports_eq accounted accounted')
  have pools : c'.roster.pools = c.roster.pools :=
    Std.ExtTreeMap.ext_getElem? (same.pool?_eq accounted accounted')
  have aliases : c'.roster.aliases = c.roster.aliases :=
    Std.ExtTreeMap.ext_getElem? (same.aliases_eq accounted accounted')
  generalize c'.roster = r' at tracked reports pools aliases
  generalize c.roster = r at tracked reports pools aliases
  cases r'
  cases r
  cases tracked
  cases reports
  cases pools
  cases aliases
  rfl

end Roster

variable (consistent : c.Consistent) (consistent' : c'.Consistent)

include accounted accounted' consistent consistent'

theorem ownOf_eq (d : Descriptor) : c'.ownOf d = c.ownOf d := by
  refine Tally.ext ?_ ?_
  · rw [accounted'.counted.own_total, accounted.counted.own_total, same.totals]
  · have labels := same.alike.labels d
    rw [ownOf, ownOf]
    cases entry : c.entryOf? d with
    | none =>
        rw [entry, Option.map_none, Option.map_eq_none_iff] at labels
        rw [labels]
    | some e =>
        rw [entry, Option.map_some, Option.map_eq_some_iff] at labels
        obtain ⟨e', entry', _⟩ := labels
        rw [entry']
        refine (consistent'.own_alive d e' entry').trans ?_
        rw [same.under_eq]
        exact (consistent.own_alive d e entry).symm

theorem entryOf?_eq (d : Descriptor) : c'.entryOf? d = c.entryOf? d := by
  have labels := same.alike.labels d
  cases entry : c.entryOf? d with
  | none =>
      rw [entry, Option.map_none, Option.map_eq_none_iff] at labels
      exact labels
  | some e =>
      rw [entry, Option.map_some, Option.map_eq_some_iff] at labels
      obtain ⟨e', entry', label⟩ := labels
      have name : e'.className = e.className := congrArg Prod.fst label
      have kind : e'.kind = e.kind := congrArg Prod.snd label
      have own : e'.own = e.own := by
        rw [← ownOf_of_entry entry', ← ownOf_of_entry entry,
          same.ownOf_eq accounted accounted' consistent consistent']
      have inclusive : e'.inclusive = e.inclusive := by
        rw [accounted'.counted.inclusive d e' entry', accounted.counted.inclusive d e entry,
          same.alike.forest]
        exact Finset.sum_congr rfl fun x _ =>
          same.ownOf_eq accounted accounted' consistent consistent' x
      have stale : e'.stale = e.stale := by
        refine Bool.eq_iff_iff.mpr (Iff.trans (accounted'.timely d e' entry') ?_)
        rw [kind, inclusive]
        exact Iff.symm (accounted.timely d e entry)
      rw [entry', Entry.ext name kind own inclusive stale]

theorem eq : c' = c := by
  have entries : c'.entries = c.entries :=
    Std.ExtTreeMap.ext_getElem? (same.entryOf?_eq accounted accounted' consistent consistent')
  have roster := same.roster_eq accounted accounted'
  obtain ⟨settings, ownership, base, forest, names, observers, -⟩ := same.alike
  cases c'
  cases c
  cases settings
  cases ownership
  cases base
  cases forest
  cases names
  cases observers
  cases entries
  cases roster
  rfl

end Matches

end Census

end ClassCensus
