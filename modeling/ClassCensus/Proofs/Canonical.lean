import ClassCensus.Proofs.Aliases

/-!
# Classes on record that lead elsewhere

A class that is merged is left off the record and becomes a live instance of another
one. Nothing keeps it from being registered afterwards without merging. It has an entry
of its own then, and it goes on leading to the class that it is an instance of, until the
last object that reported it is gone. So a class on record need not lead to itself.

`CanonicalLaws` says where a class leads. Where the host stays the same, those that do not
lead to themselves are not on record, or stand for themselves alone. `LedSince` says how a
class on record comes to lead elsewhere: it did so when it was entered, and never ceased
to. A class that leads to itself and is on record does so for good.
-/

namespace ClassCensus

open Admission

namespace Census

/-- In one of its calls the run put `d` on record, and `d` has led to `k` since before
this call. -/
def LedSince (c : Census) (run : List Occasion) (d k : Descriptor) : Prop :=
  ∃ before q after, run = before ++ q :: after ∧
    (c.performAll before).census.contains d = false ∧
    (c.performAll (before ++ [q])).census.contains d = true ∧
    ∀ part, before <+: part → part <+: run →
      (c.performAll part).census.roster.canonical d = k

theorem LedSince.concat {c : Census} {run : List Occasion} {d k : Descriptor}
    (since : c.LedSince run d k) {q : Occasion}
    (now : (c.performAll (run ++ [q])).census.roster.canonical d = k) :
    c.LedSince (run ++ [q]) d k := by
  obtain ⟨before, q', after, rfl, fresh, known, led⟩ := since
  refine ⟨before, q', after ++ [q], by simp, fresh, known, fun part later within => ?_⟩
  rcases List.prefix_concat_iff.mp within with rfl | within
  · exact now
  · exact led part later within

/-- A class that a call leaves on record and leading elsewhere did so before the call, on
record or not. -/
theorem Passes.canonical_eq {c c' : Census} {q : Occasion} {answer : Answer}
    (passes : c.Passes q answer c') {d k : Descriptor} (known : c'.contains d = true)
    (moved : c'.roster.canonical d = k) (other : k ≠ d) : c.roster.canonical d = k := by
  have led := Roster.alias_of_canonical moved other
  refine Roster.canonical_of_alias ?_
  cases passes with
  | grows _ _ _ grown =>
      rw [grown.aliases] at led
      exact led
  | audience => exact led
  | @admits a o _ new registered answered =>
      rw [contains, forest_receive] at known
      rw [aliases_receive] at led
      split_ifs at led with here
      · -- an instance of another class is left off the record
        cases led
        have missing := not_contains_of_register registered (by rwa [answered, here.2])
        rw [here.2] at missing
        cases known.symm.trans missing
      · rw [(register_grows registered).1.aliases] at led
        exact led
  | releases _ held => exact alias_of_dismiss _ _ _ led

/-- Where every class leads to itself in the beginning, a class on record that leads
elsewhere came on record when it did so already. -/
theorem ledSince_of_performAll {c : Census} (consistent : c.Consistent)
    (start : ∀ d, c.roster.canonical d = d) (run : List Occasion) {d k : Descriptor}
    (known : (c.performAll run).census.contains d = true)
    (moved : (c.performAll run).census.roster.canonical d = k) (other : k ≠ d) :
    c.LedSince run d k := by
  -- back from the end, up to the call before which the class is not on record
  induction run using List.reverseRecOn with
  | nil =>
      rw [performAll_nil, start] at moved
      exact absurd moved.symm other
  | append_singleton run q ih =>
      have between := consistent.performAll run
      have last := performAll_append_census c run [q]
      have earlier : (c.performAll run).census.roster.canonical d = k := by
        rw [last] at known moved
        exact (perform_passes between q).canonical_eq known moved other
      cases old : (c.performAll run).census.contains d with
      | true => exact (ih old earlier).concat moved
      | false =>
          refine ⟨run, q, [], rfl, old, known, fun part later within => ?_⟩
          rcases List.prefix_concat_iff.mp within with rfl | within
          · exact moved
          · rw [within.eq_of_length_le later.length_le]
            exact earlier

def Lends (M : Descriptor → ClassInfo) (c : Census) : Prop :=
  ∀ a k, c.roster.aliases[a]? = some k → k ≠ a → (M a).readOnly = false

theorem Step.lends {M : Descriptor → ClassInfo} {host : Host} {c c' : Census}
    {h : List Admission} (step : Step host c h c') (tells : host.Tells M) (before : c.Lends M) :
    c'.Lends M := by
  intro a k led other
  cases step with
  | enter enters =>
      rw [Grows.aliases (.single enters)] at led
      exact before a k led other
  | receive new stands =>
      rw [aliases_receive] at led
      split_ifs at led with here
      · cases led
        rw [here.2] at stands
        cases stands with
        | self => exact absurd rfl other
        | merged described mergeable =>
            rw [← tells a _ described]
            rw [Kind.isDynamic_of, Bool.and_eq_true, Bool.not_eq_true'] at mergeable
            exact mergeable.1
      · exact before a k led other
  | dismiss => exact before a k (alias_of_dismiss _ _ _ led) other
  | audience => exact before a k led other

theorem lends_blank (M : Descriptor → ClassInfo) (settings : Settings) (owner : Thread)
    (base : Descriptor) : (blank settings owner base).Lends M := by
  intro a k led
  simp [blank, Roster.empty] at led

/-- Where the classes lead, where `h` is the history of the census. -/
structure CanonicalLaws (h : List Admission) (c : Census) : Prop where
  canonical_self : ∀ d e, c.entryOf? d = some e → e.kind ≠ .separate → c.roster.canonical d = d
  moved_iff : ∀ d k, k ≠ d → (c.roster.canonical d = k ↔
    (∃ e, c.entryOf? k = some e ∧ e.kind.isDynamic = true) ∧
      ∃ o, c.roster.classOf? o = some k ∧ reported? h o = some d)

section CanonicalLaws

variable {M : Descriptor → ClassInfo} {h : List Admission} {c : Census}
  (orderly : c.Orderly M h)

include orderly

/-- A class leads to another one as long as an object that reported it is counted there.
-/
theorem Orderly.moved_iff {d k : Descriptor} (other : k ≠ d) :
    c.roster.canonical d = k ↔
      c.isDynamic k = true ∧ ∃ o, c.roster.classOf? o = some k ∧ reported? h o = some d := by
  obtain ⟨pooled, -, aligned⟩ := orderly
  constructor
  · intro moved
    obtain ⟨p, pool, member⟩ := pooled.aliased d k (Roster.alias_of_canonical moved other)
    have reports : some d ∈ (p.toList : Multiset Descriptor).map some :=
      Multiset.mem_map_of_mem some member
    rw [pooled.members k p pool, Multiset.mem_map] at reports
    obtain ⟨o, held, report⟩ := reports
    exact ⟨pooled.isDynamic pool, o, Roster.mem_under.mp held, report⟩
  · rintro ⟨dynamic, o, held, report⟩
    obtain ⟨p, pool⟩ := (pooled.pool_iff k).mpr dynamic
    exact Roster.canonical_of_alias
      (aligned.aliased k p d pool (pooled.reported_mem held report pool))

theorem Orderly.canonical_self (coherent : c.Coherent) (lends : c.Lends M) {d : Descriptor}
    {e : Entry} (entry : c.entryOf? d = some e) (kind : e.kind ≠ .separate) :
    c.roster.canonical d = d := by
  by_contra moved
  have led := Roster.alias_of_canonical rfl moved
  obtain ⟨p, pool, member⟩ := orderly.pooled.aliased d _ led
  cases same : e.kind with
  | separate => exact kind same
  | static =>
      have readOnly := orderly.recorded.static_iff d e entry
      rw [lends d _ led moved, same] at readOnly
      cases readOnly
  | dynamic =>
      have own := (coherent.names_iff _ d).mpr
        ⟨e, entry, by rw [same]; rfl, orderly.recorded.named d e entry⟩
      rw [orderly.aligned.named _ p d pool member] at own
      exact moved (Option.some.inj own)

theorem Orderly.canonicalLaws (coherent : c.Coherent) (lends : c.Lends M) :
    c.CanonicalLaws h where
  canonical_self _ _ entry kind := orderly.canonical_self coherent lends entry kind
  moved_iff d k other := by
    rw [orderly.moved_iff other, isDynamic_iff]

end CanonicalLaws

/-- Where the host stays the same during a run, a class on record leads to itself, unless
it stands for itself alone and was put on record while it was an instance of another
class. It leads there as long as it is one. -/
theorem canonicalLaws_of_run {host : Host} {settings : Settings} {owner : Thread} {c : Census}
    (opened : (establish host settings owner).1 = .ok c) (run : List Occasion)
    (same : ∀ q ∈ run, q.host = host) :
    (c.performAll run).census.CanonicalLaws (c.admissions run) ∧
      ∀ d k, (c.performAll run).census.contains d = true →
        (c.performAll run).census.roster.canonical d = k → k ≠ d → c.LedSince run d k := by
  have kept : ∀ host', host' = host → ∀ h c h' c', c.Consistent →
      c.Orderly host.telling h ∧ c.Lends host.telling → Step host' c h' c' →
        c'.Orderly host.telling (h ++ h') ∧ c'.Lends host.telling := by
    rintro host' rfl h c h' c' consistent ⟨orderly, lends⟩ step
    have tells := host'.tells_telling
    exact ⟨step.orderly tells consistent orderly, step.lends tells lends⟩
  obtain ⟨consistent, orderly, lends⟩ := run_keeps
    (P := fun h c => c.Orderly host.telling h ∧ c.Lends host.telling) (H := (· = host))
    (fun settings owner base => ⟨orderly_blank _ settings owner base,
      lends_blank _ settings owner base⟩) kept rfl opened run same
  refine ⟨orderly.canonicalLaws consistent.toCoherent lends, fun d k known moved other => ?_⟩
  have grown := establish_grows opened
  have free : c.roster.aliases = ∅ := grown.aliases
  refine ledSince_of_performAll (grown.steps.consistent (consistent_blank ..)) (fun d => ?_) run
    known moved other
  refine Roster.canonical_of_no_alias ?_
  rw [free]
  exact Std.ExtTreeMap.getElem?_empty

section Stray

/-- Objects of both twins are counted under the first one. Then the second one is put on
record for itself. -/
def strayRun : List Occasion :=
  [.construct ⟨⟨1⟩, ⟨0x1040⟩, true⟩, .construct ⟨⟨2⟩, ⟨0x1080⟩, true⟩,
    .register ⟨0x1080⟩ false].map (⟨·, ⟨0⟩, twins.toHost⟩)

theorem host_strayRun : ∀ q ∈ strayRun, q.host = twins.toHost := by
  intro q member
  obtain ⟨_, _, rfl⟩ := List.mem_map.mp member
  rfl

theorem canonicalLaws_strayRun :
    (establish twins.toHost ⟨256, false, true⟩ ⟨0⟩).1 = .ok twinless ∧
      (∀ q ∈ strayRun, q.host = twins.toHost) ∧
      (twinless.performAll strayRun).census.contains ⟨0x1080⟩ = true ∧
      (twinless.performAll strayRun).census.roster.canonical ⟨0x1080⟩ = ⟨0x1040⟩ ∧
      (twinless.performAll strayRun).census.CanonicalLaws (twinless.admissions strayRun) ∧
      twinless.LedSince strayRun ⟨0x1080⟩ ⟨0x1040⟩ := by
  have opened : (establish twins.toHost ⟨256, false, true⟩ ⟨0⟩).1 = .ok twinless := rfl
  have known : (twinless.performAll strayRun).census.contains ⟨0x1080⟩ = true := by decide +kernel
  have moved : (twinless.performAll strayRun).census.roster.canonical ⟨0x1080⟩ = ⟨0x1040⟩ := by
    decide +kernel
  have laws := canonicalLaws_of_run opened strayRun host_strayRun
  exact ⟨opened, host_strayRun, known, moved, laws.1, laws.2 _ _ known moved (by decide)⟩

/-- A class on record need not lead to itself, where the host stays the same. -/
theorem exists_canonical_ne :
    ¬ ∀ (host : Host) (c : Census), c.ReachableUnder (· = host) →
      ∀ d, c.contains d = true → c.roster.canonical d = d := by
  intro claim
  have reach : (twinless.performAll strayRun).census.ReachableUnder (· = twins.toHost) :=
    ⟨twins.toHost, ⟨256, false, true⟩, ⟨0⟩, twinless, strayRun, rfl, rfl, host_strayRun, rfl⟩
  have same := claim _ _ reach ⟨0x1080⟩ (by decide +kernel)
  exact absurd same (by decide +kernel)

end Stray

end Census

end ClassCensus
