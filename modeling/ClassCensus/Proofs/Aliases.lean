import ClassCensus.Host.Basic
import ClassCensus.Proofs.Names
import ClassCensus.Proofs.Pools

/-!
# Where the aliases lead

An alias leads to a pool that has the instance, whatever the hosts do. The way back
needs hosts that always tell the same of a class. Then all members of a pool have
the name of its class, and a name belongs to one class. So no instance is in two
pools, and the alias that was made last for an instance is the one to its pool.
-/

namespace ClassCensus

open Admission

namespace Census

/-- The members of a pool have the name of its class, and their aliases lead to it. -/
structure Aligned (M : Descriptor → ClassInfo) (c : Census) : Prop where
  named : ∀ k p a, c.roster.pool? k = some p → a ∈ p.toList →
    c.names[(M a).className]? = some k
  aliased : ∀ k p a, c.roster.pool? k = some p → a ∈ p.toList →
    c.roster.aliases[a]? = some k

/-- Where what stands for a class has a pool, it has the name of the class. -/
theorem StandsFor.names {M : Descriptor → ClassInfo} {c : Census} {host : Host} {merge : Bool}
    {d k : Descriptor} (h : c.StandsFor host merge d k) (coherent : c.Coherent)
    (recorded : c.Recorded M) (tells : host.Tells M) (dynamic : c.isDynamic k = true) :
    c.names[(M d).className]? = some k := by
  cases h with
  | self =>
      obtain ⟨e, entry, kind⟩ := isDynamic_iff.mp dynamic
      exact (coherent.names_iff _ d).mpr ⟨e, entry, kind, recorded.named d e entry⟩
  | merged described _ taken =>
      rw [← tells d _ described]
      exact taken

namespace Aligned

variable {M : Descriptor → ClassInfo} {h : List Admission} {c c' : Census}

/-- No instance is in two pools. -/
theorem unique (aligned : c.Aligned M) {k k' a : Descriptor} {p p' : Pool}
    (pool : c.roster.pool? k = some p) (pool' : c.roster.pool? k' = some p')
    (member : a ∈ p.toList) (member' : a ∈ p'.toList) : k = k' := by
  have one := aligned.named k p a pool member
  rw [aligned.named k' p' a pool' member'] at one
  exact (Option.some.inj one).symm

theorem enters (before : c.Aligned M) {host : Host} {merge : Bool}
    (step : Enters host merge c c') : c'.Aligned M := by
  have names := fun {n d} => step.names (n := n) (d := d)
  cases step with
  | @intro s p fits =>
      refine ⟨fun k q a pool member => ?_, fun k q a pool member => ?_⟩
      · rw [pool?_enter] at pool
        split_ifs at pool
        · cases pool
          cases member
        · exact names (before.named k q a pool member)
      · rw [pool?_enter] at pool
        rw [aliases_enter]
        split_ifs at pool
        · cases pool
          cases member
        · exact before.aliased k q a pool member

theorem receive (before : c.Aligned M) (pooled : c.Pooled h) {r : Report} {k : Descriptor}
    (named : c.isDynamic k = true → c.names[(M r.descriptor).className]? = some k) :
    (c.receive r k).Aligned M := by
  have members : ∀ k' p a, (c.receive r k).roster.pool? k' = some p → a ∈ p.toList →
      (c.isDynamic k = true ∧ k = k' ∧ a = r.descriptor) ∨
        ∃ q, c.roster.pool? k' = some q ∧ a ∈ q.toList := by
    intro k' p a pool member
    rcases pooled.pool_of_receive pool with ⟨rfl, dynamic, q, old, rfl⟩ | ⟨_, old⟩
    · have more := Pool.perm_insert (pooled.ascending k q old) r.descriptor
      exact (List.mem_cons.mp (more.mem_iff.mp member)).imp (fun here => ⟨dynamic, rfl, here⟩)
        fun there => ⟨q, old, there⟩
    · exact .inr ⟨p, old, member⟩
  refine ⟨fun k' p a pool member => ?_, fun k' p a pool member => ?_⟩
  · rw [names_receive]
    rcases members k' p a pool member with ⟨dynamic, rfl, rfl⟩ | ⟨q, old, there⟩
    · exact named dynamic
    · exact before.named k' q a old there
  · rw [aliases_receive]
    rcases members k' p a pool member with ⟨dynamic, rfl, rfl⟩ | ⟨q, old, there⟩
    · rw [if_pos ⟨dynamic, rfl⟩]
    · split_ifs with again
      · have one := named again.1
        rw [again.2, before.named k' q a old there] at one
        exact one.symm
      · exact before.aliased k' q a old there

theorem dismiss (before : c.Aligned M) (pooled : c.Pooled h) {o : Object} {k : Descriptor}
    (held : c.roster.classOf? o = some k) : (c.dismiss o k).Aligned M := by
  obtain ⟨d, report⟩ := pooled.exists_reported held
  have members : ∀ k' p a, (c.dismiss o k).roster.pool? k' = some p → a ∈ p.toList →
      ∃ q, c.roster.pool? k' = some q ∧ a ∈ q.toList := by
    intro k' p a pool member
    rcases pooled.pool_of_dismiss held report pool with ⟨rfl, _, q, old, rfl⟩ | ⟨_, old⟩
    · have less := Pool.perm_erase (pooled.ascending k q old) d
        (pooled.reported_mem held report old)
      exact ⟨q, old, less.mem_iff.mpr (List.mem_cons_of_mem d member)⟩
    · exact ⟨p, old, member⟩
  refine ⟨fun k' p a pool member => ?_, fun k' p a pool member => ?_⟩
  · obtain ⟨q, old, there⟩ := members k' p a pool member
    rw [names_dismiss]
    exact before.named k' q a old there
  · obtain ⟨q, old, there⟩ := members k' p a pool member
    rw [aliases_dismiss (pooled.reports_of_reported held report), if_neg]
    · exact before.aliased k' q a old there
    · -- the last slot of `d` is gone, so `k'` is the class of another pool that has it
      rintro ⟨dynamic, rfl, gone⟩
      obtain ⟨q', old'⟩ := (pooled.pool_iff k).mpr dynamic
      have same := before.unique old' old (pooled.reported_mem held report old') there
      subst same
      rcases pooled.pool_of_dismiss held report pool with ⟨_, _, q', old', rfl⟩ | ⟨apart, _⟩
      · have ascending := Pool.ascending_erase (pooled.ascending k q' old') d
        rw [old', Option.getD_some, ← Bool.not_eq_true, Pool.contains_iff ascending] at gone
        exact gone member
      · exact apart rfl

end Aligned

theorem Step.aligned {M : Descriptor → ClassInfo} {host : Host} {c c' : Census}
    {h h' : List Admission} (step : Step host c h' c') (tells : host.Tells M)
    (consistent : c.Consistent) (pooled : c.Pooled h) (recorded : c.Recorded M)
    (before : c.Aligned M) : c'.Aligned M := by
  cases step with
  | enter enters => exact before.enters enters
  | receive new stands =>
      exact before.receive pooled fun dynamic =>
        stands.names consistent.toCoherent recorded tells dynamic
  | dismiss held => exact before.dismiss pooled held
  | audience s => exact ⟨before.named, before.aliased⟩

theorem aligned_blank (M : Descriptor → ClassInfo) (settings : Settings) (owner : Thread)
    (base : Descriptor) : (blank settings owner base).Aligned M := by
  constructor <;> simp [blank, Roster.empty, Roster.pool?]

structure Orderly (M : Descriptor → ClassInfo) (h : List Admission) (c : Census) : Prop where
  pooled : c.Pooled h
  recorded : c.Recorded M
  aligned : c.Aligned M

theorem Step.orderly {M : Descriptor → ClassInfo} {host : Host} {c c' : Census}
    {h h' : List Admission} (step : Step host c h' c') (tells : host.Tells M)
    (consistent : c.Consistent) (before : c.Orderly M h) : c'.Orderly M (h ++ h') where
  pooled := step.pooled consistent before.pooled
  recorded := step.recorded tells consistent before.recorded
  aligned := step.aligned tells consistent before.pooled before.recorded before.aligned

theorem orderly_blank (M : Descriptor → ClassInfo) (settings : Settings) (owner : Thread)
    (base : Descriptor) : (blank settings owner base).Orderly M [] :=
  ⟨pooled_blank settings owner base, recorded_blank settings owner base,
    aligned_blank M settings owner base⟩

theorem Steps.orderly {M : Descriptor → ClassInfo} {host : Host} {c c' : Census}
    {h h' : List Admission} (steps : Steps host c h' c') (tells : host.Tells M)
    (consistent : c.Consistent) (before : c.Orderly M h) :
    c'.Consistent ∧ c'.Orderly M (h ++ h') :=
  steps.keeps (P := fun h c => c.Orderly M h)
    (fun _ _ _ _ consistent before step => step.orderly tells consistent before) consistent
    before

theorem orderly_of_run {M : Descriptor → ClassInfo} {host : Host} {settings : Settings}
    {owner : Thread} {c : Census} (opened : (establish host settings owner).1 = .ok c)
    (told : host.Tells M) {run : List Occasion} (tells : ∀ q ∈ run, q.host.Tells M) :
    (c.performAll run).census.Consistent ∧
      (c.performAll run).census.Orderly M (c.admissions run) :=
  run_keeps (P := fun h c => c.Orderly M h) (H := fun host => host.Tells M) (orderly_blank M)
    (fun _ tells _ _ _ _ consistent before step => step.orderly tells consistent before) told
    opened run tells

/-- What the aliases say where no class ever changes. -/
structure AliasLaws (c : Census) : Prop where
  canonical_of_mem : ∀ k p a, c.roster.pool? k = some p → a ∈ p.toList →
    c.roster.canonical a = k
  unique : ∀ k k' p p' a, c.roster.pool? k = some p → c.roster.pool? k' = some p' →
    a ∈ p.toList → a ∈ p'.toList → k = k'
  canonical_canonical : ∀ a, c.roster.canonical (c.roster.canonical a) = c.roster.canonical a

/-- What an alias leads to has no alias but to itself. -/
theorem Orderly.canonical_canonical {M : Descriptor → ClassInfo} {h : List Admission}
    {c : Census} (orderly : c.Orderly M h) (coherent : c.Coherent) (a : Descriptor) :
    c.roster.canonical (c.roster.canonical a) = c.roster.canonical a := by
  obtain ⟨pooled, recorded, aligned⟩ := orderly
  cases led : c.roster.aliases[a]? with
  | none => rw [Roster.canonical_of_no_alias led, Roster.canonical_of_no_alias led]
  | some k =>
      rw [Roster.canonical_of_alias led]
      obtain ⟨p, pool, _⟩ := pooled.aliased a k led
      obtain ⟨e, entry, kind⟩ := isDynamic_iff.mp (pooled.isDynamic pool)
      have own := (coherent.names_iff _ k).mpr ⟨e, entry, kind, recorded.named k e entry⟩
      cases onward : c.roster.aliases[k]? with
      | none => exact Roster.canonical_of_no_alias onward
      | some k' =>
          obtain ⟨p', pool', member⟩ := pooled.aliased k k' onward
          rw [aligned.named k' p' k pool' member] at own
          rw [Roster.canonical_of_alias onward, Option.some.inj own]

theorem Orderly.aliasLaws {M : Descriptor → ClassInfo} {h : List Admission} {c : Census}
    (orderly : c.Orderly M h) (coherent : c.Coherent) : c.AliasLaws where
  canonical_of_mem k p a pool member :=
    Roster.canonical_of_alias (orderly.aligned.aliased k p a pool member)
  unique _ _ _ _ _ pool pool' member member' :=
    orderly.aligned.unique pool pool' member member'
  canonical_canonical := orderly.canonical_canonical coherent

/-- Whatever the hosts report and whichever calls fail, the pools hold exactly what the
tracked objects reported. Where the hosts always tell the same of a class, though they
may cease to describe it and begin again, the aliases are the way from the pools back. -/
theorem poolLaws_of_run {host : Host} {settings : Settings} {owner : Thread} {c : Census}
    (opened : (establish host settings owner).1 = .ok c) (run : List Occasion) :
    (c.performAll run).census.PoolLaws (c.admissions run) ∧
      ∀ M, host.Tells M → (∀ q ∈ run, q.host.Tells M) →
        (c.performAll run).census.AliasLaws := by
  obtain ⟨consistent, pooled⟩ := run_keeps (P := fun h c => c.Pooled h) (H := fun _ => True)
    pooled_blank (fun _ _ _ _ _ _ consistent before step => step.pooled consistent before)
    trivial opened run fun _ _ => trivial
  refine ⟨pooled.poolLaws consistent, fun M told tells => ?_⟩
  have orderly := (run_keeps (P := fun h c => c.Orderly M h) (H := fun host => host.Tells M)
    (orderly_blank M) (fun _ told _ _ _ _ consistent before step =>
      step.orderly told consistent before) told opened run tells).2
  exact orderly.aliasLaws consistent.toCoherent

section Regenerated

def regenerated : ClassTable :=
  (((ClassTable.empty ⟨1⟩).put ⟨1⟩ ⟨"Object", none, true⟩).put ⟨5⟩ ⟨"Item", some ⟨1⟩, false⟩).put
    ⟨4⟩ ⟨"Item", some ⟨1⟩, false⟩

/-- Objects of both classes, before the host forgets the second one, meanwhile and
after. -/
def regeneratedRun : List Occasion :=
  [.construct ⟨⟨10⟩, ⟨5⟩, true⟩, .construct ⟨⟨11⟩, ⟨4⟩, true⟩].map (⟨·, ⟨0⟩, regenerated.toHost⟩) ++
    [.construct ⟨⟨12⟩, ⟨4⟩, true⟩, .construct ⟨⟨13⟩, ⟨5⟩, true⟩, .destroy ⟨10⟩].map
      (⟨·, ⟨0⟩, (regenerated.drop ⟨4⟩).toHost⟩) ++
    [.construct ⟨⟨14⟩, ⟨4⟩, true⟩].map (⟨·, ⟨0⟩, regenerated.toHost⟩)

theorem tells_regeneratedRun :
    ∀ q ∈ regeneratedRun, q.host.Tells regenerated.toHost.telling := by
  have dropped : (regenerated.drop ⟨4⟩).toHost.Tells regenerated.toHost.telling := by
    intro d info described
    rw [ClassTable.describe_drop] at described
    split_ifs at described
    exact regenerated.toHost.tells_telling d info described
  intro q member
  simp only [regeneratedRun, List.mem_append, List.mem_map] at member
  rcases member with (⟨_, _, rfl⟩ | ⟨_, _, rfl⟩) | ⟨_, _, rfl⟩
  · exact regenerated.toHost.tells_telling
  · exact dropped
  · exact regenerated.toHost.tells_telling

theorem poolLaws_regenerated :
    let c := blank ⟨8, false, true⟩ ⟨0⟩ ⟨1⟩
    (establish regenerated.toHost ⟨8, false, true⟩ ⟨0⟩).1 = .ok c ∧
      ((c.performAll regeneratedRun).census.roster.pool? ⟨5⟩).map Pool.toList =
        some [⟨4⟩, ⟨4⟩, ⟨5⟩] ∧
      (c.performAll regeneratedRun).census.PoolLaws (c.admissions regeneratedRun) ∧
      (c.performAll regeneratedRun).census.AliasLaws := by
  have opened : (establish regenerated.toHost ⟨8, false, true⟩ ⟨0⟩).1 =
      .ok (blank ⟨8, false, true⟩ ⟨0⟩ ⟨1⟩) := rfl
  have laws := poolLaws_of_run opened regeneratedRun
  exact ⟨opened, by decide +kernel, laws.1,
    laws.2 _ regenerated.toHost.tells_telling tells_regeneratedRun⟩

end Regenerated

end Census

end ClassCensus
