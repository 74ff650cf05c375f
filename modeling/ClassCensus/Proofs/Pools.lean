import ClassCensus.Proofs.History
import Mathlib.Data.Multiset.MapFold

/-!
# What the pools hold

The pool of a class holds what its objects reported when they were admitted, once
for each object that is tracked. `Pooled` says so by a map over the set of these
objects: the report of an object is looked up in the history, where its last
admission is the one that counts. An alias that is there leads to a pool that has
the instance.

The hosts may change as they like. It is the census that decides which class has a
pool, when the class is entered, and not what an object says of its class.
-/

namespace ClassCensus

namespace Admission

def latest? (h : List Admission) (o : Object) : Option Admission :=
  h.reverse.find? fun a => decide (a.report.object = o)

def reported? (h : List Admission) (o : Object) : Option Descriptor :=
  (latest? h o).map fun a => a.report.descriptor

theorem latest?_concat (h : List Admission) (a : Admission) (o : Object) :
    latest? (h ++ [a]) o = if a.report.object = o then some a else latest? h o := by
  rw [latest?, List.reverse_append, List.reverse_singleton, List.singleton_append,
    List.find?_cons]
  by_cases here : a.report.object = o
  · simp [here]
  · simp [here, latest?]

theorem mem_of_latest? {h : List Admission} {a : Admission} {o : Object}
    (last : latest? h o = some a) : a ∈ h :=
  List.mem_reverse.mp (List.mem_of_find?_eq_some last)

theorem reported?_concat (h : List Admission) (a : Admission) (o : Object) :
    reported? (h ++ [a]) o =
      if a.report.object = o then some a.report.descriptor else reported? h o := by
  rw [reported?, latest?_concat]
  by_cases here : a.report.object = o
  · rw [if_pos here, if_pos here]
    rfl
  · rw [if_neg here, if_neg here]
    rfl

end Admission

open Admission

namespace Census

section Enter

variable (c : Census) (s : Sighting) (p : Option Descriptor) (kind : Kind)

theorem pool?_enter (k : Descriptor) :
    (c.enter s p kind).census.roster.pool? k =
      if kind.isDynamic = true ∧ s.descriptor = k then some ∅ else c.roster.pool? k := by
  cases dynamic : kind.isDynamic with
  | false => simp [enter, dynamic]
  | true =>
      simp only [enter, dynamic, if_true, true_and]
      exact Roster.pool?_openPool ..

theorem reports_enter : (c.enter s p kind).census.roster.reports = c.roster.reports := by
  cases dynamic : kind.isDynamic <;> simp [enter, dynamic, Roster.openPool]

theorem aliases_enter : (c.enter s p kind).census.roster.aliases = c.roster.aliases := by
  cases dynamic : kind.isDynamic <;> simp [enter, dynamic, Roster.openPool]

end Enter

theorem Grows.aliases {host : Host} {merge : Bool} {c c' : Census} (h : Grows host merge c c') :
    c'.roster.aliases = c.roster.aliases :=
  h.eq_of_enter (f := fun c => c.roster.aliases) aliases_enter

structure Pooled (h : List Admission) (c : Census) : Prop where
  pool_iff : ∀ k, (∃ p, c.roster.pool? k = some p) ↔ c.isDynamic k = true
  ascending : ∀ k p, c.roster.pool? k = some p → p.Ascending
  latest : ∀ o k, c.roster.classOf? o = some k → ∃ a, latest? h o = some a ∧ a.counted = k
  reports : ∀ o k, c.roster.classOf? o = some k → c.isDynamic k = true →
    c.roster.reports[o]? = reported? h o
  members : ∀ k p, c.roster.pool? k = some p →
    (p.toList : Multiset Descriptor).map some = (c.roster.under k).val.map (reported? h)
  aliased : ∀ a k, c.roster.aliases[a]? = some k →
    ∃ p, c.roster.pool? k = some p ∧ a ∈ p.toList

namespace Pooled

variable {h : List Admission} {c c' : Census}

theorem isDynamic (pooled : c.Pooled h) {k : Descriptor} {p : Pool}
    (pool : c.roster.pool? k = some p) : c.isDynamic k = true :=
  (pooled.pool_iff k).mp ⟨p, pool⟩

theorem pool?_of_not_contains (pooled : c.Pooled h) (coherent : c.Coherent) {d : Descriptor}
    (unknown : c.contains d = false) : c.roster.pool? d = none := by
  rw [Option.eq_none_iff_forall_ne_some]
  intro q pool
  obtain ⟨e, entry, _⟩ := isDynamic_iff.mp (pooled.isDynamic pool)
  rw [(coherent.not_contains_iff d).mp unknown] at entry
  cases entry

theorem enters (before : c.Pooled h) (consistent : c.Consistent) {host : Host} {merge : Bool}
    (step : Enters host merge c c') : c'.Pooled h := by
  have classOf? := step.classOf?
  have under := Roster.under_eq_of_classOf?_eq classOf?
  cases step with
  | @intro s p fits =>
      have nobody := consistent.under_of_not_contains fits.fresh
      have shut := before.pool?_of_not_contains consistent.toCoherent fits.fresh
      exact
      { pool_iff k := by
          rw [pool?_enter, isDynamic_enter]
          by_cases here : s.descriptor = k
          · subst here
            cases (Kind.of s.info.readOnly merge).isDynamic <;> simp [shut]
          · simp only [here, and_false, if_false]
            exact before.pool_iff k
        ascending k q pool := by
          rw [pool?_enter] at pool
          split_ifs at pool
          · cases pool
            exact Pool.ascending_empty
          · exact before.ascending k q pool
        latest o k held := by
          rw [classOf?] at held
          exact before.latest o k held
        reports o k held dynamic := by
          rw [classOf?] at held
          have other : s.descriptor ≠ k := by
            rintro rfl
            rw [← Roster.mem_under, nobody] at held
            cases held
          rw [isDynamic_enter, if_neg other] at dynamic
          rw [reports_enter]
          exact before.reports o k held dynamic
        members k q pool := by
          rw [pool?_enter] at pool
          rw [under]
          split_ifs at pool with opened
          · cases pool
            rw [← opened.2, nobody]
            rfl
          · exact before.members k q pool
        aliased a k led := by
          rw [aliases_enter] at led
          obtain ⟨q, pool, member⟩ := before.aliased a k led
          refine ⟨q, ?_, member⟩
          rw [pool?_enter, if_neg]
          · exact pool
          · rintro ⟨_, rfl⟩
            rw [shut] at pool
            cases pool }

section Receive

variable (before : c.Pooled h) {r : Report} {k k' : Descriptor} {p : Pool}

include before

/-- One more report is in the pool of the class, and the other pools are as they were. -/
theorem pool_of_receive (pool : (c.receive r k).roster.pool? k' = some p) :
    (k = k' ∧ c.isDynamic k = true ∧
        ∃ q, c.roster.pool? k = some q ∧ p = q.insert r.descriptor) ∨
      (k ≠ k' ∧ c.roster.pool? k' = some p) := by
  rw [pool?_receive] at pool
  split_ifs at pool with joined
  · obtain ⟨q, old⟩ := (before.pool_iff k).mpr joined.1
    rw [old] at pool
    exact .inl ⟨joined.2, joined.1, q, old, (Option.some.inj pool).symm⟩
  · exact .inr ⟨fun same => joined ⟨same ▸ before.isDynamic pool, same⟩, pool⟩

theorem report_mem_receive (dynamic : c.isDynamic k = true) :
    ∃ q, (c.receive r k).roster.pool? k = some q ∧ r.descriptor ∈ q.toList := by
  obtain ⟨q, old⟩ := (before.pool_iff k).mpr dynamic
  rw [pool?_receive, if_pos ⟨dynamic, rfl⟩, old]
  refine ⟨_, rfl, ?_⟩
  rw [Option.getD_some, (Pool.perm_insert (before.ascending k q old) r.descriptor).mem_iff]
  exact List.mem_cons_self

theorem mem_receive (pool : c.roster.pool? k' = some p) {a : Descriptor} (member : a ∈ p.toList) :
    ∃ q, (c.receive r k).roster.pool? k' = some q ∧ a ∈ q.toList := by
  rw [pool?_receive]
  split_ifs with joined
  · rw [joined.2, pool]
    refine ⟨_, rfl, ?_⟩
    rw [Option.getD_some, (Pool.perm_insert (before.ascending k' p pool) r.descriptor).mem_iff]
    exact List.mem_cons_of_mem _ member
  · exact ⟨p, pool, member⟩

theorem members_receive (new : c.roster.classOf? r.object = none)
    (pool : (c.receive r k).roster.pool? k' = some p) :
    (p.toList : Multiset Descriptor).map some =
      ((c.receive r k).roster.under k').val.map (reported? (h ++ [⟨r, k⟩])) := by
  have absent (k' : Descriptor) : r.object ∉ c.roster.under k' := by
    rw [Roster.mem_under, new]
    intro same
    cases same
  have kept (k' : Descriptor) : (c.roster.under k').val.map (reported? (h ++ [⟨r, k⟩])) =
      (c.roster.under k').val.map (reported? h) :=
    Multiset.map_congr rfl fun o held => by
      rw [reported?_concat, if_neg]
      rintro rfl
      exact absent k' held
  rw [under_receive c r k new]
  rcases before.pool_of_receive pool with ⟨rfl, _, q, old, rfl⟩ | ⟨apart, old⟩
  · have more := Multiset.coe_eq_coe.mpr
      (Pool.perm_insert (before.ascending k q old) r.descriptor)
    rw [if_pos rfl, Finset.insert_val_of_notMem (absent k), Multiset.map_cons, kept,
      reported?_concat, if_pos rfl, more, ← Multiset.cons_coe, Multiset.map_cons,
      before.members k q old]
  · rw [if_neg apart, kept, before.members k' p old]

theorem receive (consistent : c.Consistent) (new : c.roster.classOf? r.object = none) :
    (c.receive r k).Pooled (h ++ [⟨r, k⟩]) where
  pool_iff k' := by
    rw [pool?_receive, isDynamic_receive r k consistent.sound]
    split_ifs with joined
    · simp [← joined.2, joined.1]
    · exact before.pool_iff k'
  ascending k' p pool := by
    rcases before.pool_of_receive pool with ⟨_, _, q, old, rfl⟩ | ⟨_, old⟩
    · exact Pool.ascending_insert (before.ascending k q old) r.descriptor
    · exact before.ascending k' p old
  latest o k' held := by
    rw [classOf?_receive] at held
    rw [latest?_concat]
    split_ifs at held ⊢ with here
    · cases held
      exact ⟨_, rfl, rfl⟩
    · exact before.latest o k' held
  reports o k' held dynamic := by
    rw [isDynamic_receive r k consistent.sound] at dynamic
    rw [classOf?_receive] at held
    rw [reports_receive, reported?_concat]
    by_cases here : r.object = o
    · rw [if_pos here] at held
      cases held
      rw [if_pos ⟨dynamic, here⟩, if_pos here]
    · rw [if_neg here] at held
      rw [if_neg fun joined => here joined.2, if_neg here]
      exact before.reports o k' held dynamic
  members k' p pool := before.members_receive new pool
  aliased a k' led := by
    rw [aliases_receive] at led
    split_ifs at led with here
    · cases led
      rw [← here.2]
      exact before.report_mem_receive here.1
    · obtain ⟨q, old, member⟩ := before.aliased a k' led
      exact before.mem_receive old member

end Receive

section Dismiss

variable (before : c.Pooled h) {o : Object} {k k' d : Descriptor} {p : Pool}
  (held : c.roster.classOf? o = some k)

include before held

theorem exists_reported : ∃ d, reported? h o = some d := by
  obtain ⟨a, last, _⟩ := before.latest o k held
  rw [reported?, last]
  exact ⟨_, rfl⟩

variable (report : reported? h o = some d)

include report

theorem reports_of_reported (dynamic : c.isDynamic k = true) :
    c.roster.reports[o]? = some d := by
  rw [before.reports o k held dynamic, report]

theorem reported_mem (pool : c.roster.pool? k = some p) : d ∈ p.toList := by
  have member : some d ∈ (p.toList : Multiset Descriptor).map some := by
    rw [before.members k p pool, Multiset.mem_map]
    exact ⟨o, Roster.mem_under.mpr held, report⟩
  obtain ⟨d', found, same⟩ := Multiset.mem_map.mp member
  rw [← Option.some.inj same]
  exact found

theorem pool_of_dismiss (pool : (c.dismiss o k).roster.pool? k' = some p) :
    (k = k' ∧ c.isDynamic k = true ∧ ∃ q, c.roster.pool? k = some q ∧ p = q.erase d) ∨
      (k ≠ k' ∧ c.roster.pool? k' = some p) := by
  rw [pool?_dismiss (before.reports_of_reported held report)] at pool
  split_ifs at pool with left
  · obtain ⟨q, old⟩ := (before.pool_iff k).mpr left.1
    rw [old] at pool
    exact .inl ⟨left.2, left.1, q, old, (Option.some.inj pool).symm⟩
  · exact .inr ⟨fun same => left ⟨same ▸ before.isDynamic pool, same⟩, pool⟩

theorem members_dismiss (pool : (c.dismiss o k).roster.pool? k' = some p) :
    (p.toList : Multiset Descriptor).map some =
      ((c.dismiss o k).roster.under k').val.map (reported? h) := by
  rw [under_dismiss]
  rcases before.pool_of_dismiss held report pool with ⟨rfl, _, q, old, rfl⟩ | ⟨apart, old⟩
  · have less := Multiset.coe_eq_coe.mpr
      (Pool.perm_erase (before.ascending k q old) d (before.reported_mem held report old))
    have members := before.members k q old
    rw [less, ← Multiset.cons_coe, Multiset.map_cons,
      ← Multiset.cons_erase (Finset.mem_val.mpr (Roster.mem_under.mpr held)),
      Multiset.map_cons, report, Multiset.cons_inj_right] at members
    rw [Finset.erase_val]
    exact members
  · have absent : o ∉ c.roster.under k' := by
      rw [Roster.mem_under, held]
      exact fun same => apart (Option.some.inj same)
    rw [Finset.erase_eq_of_notMem absent, before.members k' p old]

theorem aliased_dismiss {a : Descriptor} (led : (c.dismiss o k).roster.aliases[a]? = some k') :
    ∃ p, (c.dismiss o k).roster.pool? k' = some p ∧ a ∈ p.toList := by
  have reported := before.reports_of_reported held report
  rw [aliases_dismiss reported] at led
  rw [pool?_dismiss reported]
  split_ifs at led with dropped
  obtain ⟨q, old, member⟩ := before.aliased a k' led
  split_ifs with left
  · obtain ⟨dynamic, rfl⟩ := left
    rw [old, Option.getD_some] at dropped ⊢
    have ascending := before.ascending k q old
    refine ⟨_, rfl, ?_⟩
    by_cases here : d = a
    · subst here
      rw [← Pool.contains_iff (Pool.ascending_erase ascending d), ← Bool.not_eq_false]
      exact fun gone => dropped ⟨dynamic, rfl, gone⟩
    · have less := Pool.perm_erase ascending d (before.reported_mem held report old)
      exact (List.mem_cons.mp (less.mem_iff.mp member)).resolve_left fun same => here same.symm
  · exact ⟨q, old, member⟩

omit report in
theorem dismiss (consistent : c.Consistent) : (c.dismiss o k).Pooled h := by
  obtain ⟨d, report⟩ := before.exists_reported held
  have reported := before.reports_of_reported held report
  exact
  { pool_iff k' := by
      rw [pool?_dismiss reported, isDynamic_dismiss o k consistent.sound]
      split_ifs with left
      · simp [← left.2, left.1]
      · exact before.pool_iff k'
    ascending k' p pool := by
      rcases before.pool_of_dismiss held report pool with ⟨_, _, q, old, rfl⟩ | ⟨_, old⟩
      · exact Pool.ascending_erase (before.ascending k q old) d
      · exact before.ascending k' p old
    latest o' k' tracked := by
      rw [classOf?_dismiss] at tracked
      split_ifs at tracked
      exact before.latest o' k' tracked
    reports o' k' tracked dynamic := by
      rw [isDynamic_dismiss o k consistent.sound] at dynamic
      rw [classOf?_dismiss] at tracked
      split_ifs at tracked with here
      rw [reports_dismiss reported, if_neg fun left => here left.2]
      exact before.reports o' k' tracked dynamic
    members _ _ pool := before.members_dismiss held report pool
    aliased _ _ led := before.aliased_dismiss held report led }

end Dismiss

end Pooled

theorem pooled_blank (settings : Settings) (owner : Thread) (base : Descriptor) :
    (blank settings owner base).Pooled [] := by
  constructor <;> simp [blank, Roster.empty, Roster.pool?, Roster.classOf?, Census.isDynamic,
    entryOf?]

theorem Step.pooled {host : Host} {c c' : Census} {h h' : List Admission}
    (step : Step host c h' c') (consistent : c.Consistent) (before : c.Pooled h) :
    c'.Pooled (h ++ h') := by
  cases step with
  | enter enters =>
      rw [List.append_nil]
      exact before.enters consistent enters
  | receive new stands => exact before.receive consistent new
  | dismiss held =>
      rw [List.append_nil]
      exact before.dismiss held consistent
  | audience s =>
      rw [List.append_nil]
      exact ⟨before.pool_iff, before.ascending, before.latest, before.reports, before.members,
        before.aliased⟩

theorem Steps.pooled {host : Host} {c c' : Census} {h h' : List Admission}
    (steps : Steps host c h' c') (consistent : c.Consistent) (before : c.Pooled h) :
    c'.Consistent ∧ c'.Pooled (h ++ h') :=
  steps.keeps (P := fun h c => c.Pooled h)
    (fun _ _ _ _ consistent before step => step.pooled consistent before) consistent before

theorem pooled_of_run {host : Host} {settings : Settings} {owner : Thread} {c : Census}
    (opened : (establish host settings owner).1 = .ok c) (run : List Occasion) :
    (c.performAll run).census.Consistent ∧
      (c.performAll run).census.Pooled (c.admissions run) :=
  run_keeps (P := fun h c => c.Pooled h) (H := fun _ => True) pooled_blank
    (fun _ _ _ _ _ _ consistent before step => step.pooled consistent before) trivial opened run
    fun _ _ => trivial

/-- What the pools, the representatives and the aliases say of the objects that are
tracked, where `h` is the history of the census. -/
structure PoolLaws (h : List Admission) (c : Census) : Prop where
  pool_iff : ∀ k, (∃ p, c.roster.pool? k = some p) ↔
    ∃ e, c.entryOf? k = some e ∧ e.kind.isDynamic = true
  latest : ∀ o k, c.roster.classOf? o = some k → ∃ a, latest? h o = some a ∧ a.counted = k
  sorted : ∀ k p, c.roster.pool? k = some p → p.toList.Pairwise (· ≤ ·)
  members : ∀ k p, c.roster.pool? k = some p →
    (p.toList : Multiset Descriptor).map some = (c.roster.under k).val.map (reported? h)
  length_eq : ∀ k p e, c.roster.pool? k = some p → c.entryOf? k = some e →
    p.toList.length = e.own.alive
  representative_iff : ∀ k p, c.roster.pool? k = some p → ∀ x,
    c.roster.representative? k = some x ↔ x ∈ p.toList ∧ ∀ y ∈ p.toList, x ≤ y
  no_representative_iff : ∀ k p e, c.roster.pool? k = some p → c.entryOf? k = some e →
    (c.roster.representative? k = none ↔ e.own.alive = 0)
  canonical_moved : ∀ a k, c.roster.canonical a = k → k ≠ a →
    (∃ e, c.entryOf? k = some e ∧ e.kind.isDynamic = true) ∧
      ∃ p, c.roster.pool? k = some p ∧ a ∈ p.toList

theorem Pooled.length_eq {h : List Admission} {c : Census} (pooled : c.Pooled h)
    (consistent : c.Consistent) {k : Descriptor} {p : Pool} {e : Entry}
    (pool : c.roster.pool? k = some p) (entry : c.entryOf? k = some e) :
    p.toList.length = e.own.alive := by
  have sizes := congrArg Multiset.card (pooled.members k p pool)
  rw [Multiset.card_map, Multiset.card_map, Multiset.coe_card] at sizes
  rw [sizes, consistent.own_alive k e entry]
  rfl

theorem Pooled.poolLaws {h : List Admission} {c : Census} (pooled : c.Pooled h)
    (consistent : c.Consistent) : c.PoolLaws h where
  pool_iff k := (pooled.pool_iff k).trans isDynamic_iff
  latest := pooled.latest
  sorted := pooled.ascending
  members := pooled.members
  length_eq k p e pool entry := pooled.length_eq consistent pool entry
  representative_iff k p pool x := by
    rw [Roster.representative?_of_pool pool]
    exact Pool.least?_eq_some_iff (pooled.ascending k p pool) x
  no_representative_iff k p e pool entry := by
    rw [Roster.representative?_of_pool pool, Pool.least?_eq_none_iff, ← List.length_eq_zero_iff,
      pooled.length_eq consistent pool entry]
  canonical_moved a k moved other := by
    obtain ⟨p, pool, member⟩ := pooled.aliased a k (Roster.alias_of_canonical moved other)
    exact ⟨isDynamic_iff.mp (pooled.isDynamic pool), p, pool, member⟩

end Census

end ClassCensus
