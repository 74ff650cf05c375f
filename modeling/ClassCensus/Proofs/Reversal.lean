import ClassCensus.Proofs.Account

/-!
# An object that comes and goes

When an object is destroyed right after its construction, almost nothing is left of it.
The classes that were registered for it stay on record. Of the counting only the totals
stay, and the classes on the way up are marked again as nothing of them may be alive:
`visited` is the census with these traces. Everything else is as if the class alone had
been registered.

The roster has no trace at all. An instance that enters a pool and leaves it again
leaves the pool as it was, whichever of its slots it takes. The alias needs more: it is
dropped with the last slot, so it must not have been there before, and with other slots
it must have led to this pool. This is where the hosts have to tell the same of a class
at all times.
-/

namespace ClassCensus

/-- The entry of `d` when an object of `k` has come and gone, where `l` is the way up from
`k`. -/
def Entry.visited (l : List Descriptor) (k d : Descriptor) (e : Entry) : Entry where
  className := e.className
  kind := e.kind
  own := if k = d then { e.own with total := e.own.total + 1 } else e.own
  inclusive :=
    if d ∈ l then { e.inclusive with total := e.inclusive.total + 1 } else e.inclusive
  stale := if d ∈ l then !e.kind.isStatic && e.inclusive.alive == 0 else e.stale

namespace Census

/-- The census when an object of `k` has come and gone. The own total of `k` is one
more, and so are the inclusive totals on the way up from `k`, where a class is stale
just when it can change and nothing of it is alive. -/
def visited (c : Census) (k : Descriptor) : Census :=
  { c with entries := c.entries.map fun d e => e.visited (c.forest.lineage k) k d }

theorem entryOf?_visited (c : Census) (k d : Descriptor) :
    (c.visited k).entryOf? d =
      (c.entryOf? d).map (Entry.visited (c.forest.lineage k) k d) := by
  simp only [visited, entryOf?, Std.ExtTreeMap.getElem?_map]

theorem recount_lose_recount_gain (l : List Descriptor) (k d : Descriptor) (e : Entry) :
    recount .loseOwn .loseInclusive l k d (recount .gainOwn .gainInclusive l k d e) =
      e.visited l k d := by
  rw [recount_lose, recount_gain, Entry.visited]
  by_cases here : k = d <;> by_cases above : d ∈ l <;>
    simp [here, above, Tally.gain, Tally.lose, Bool.and_comm]

section Visit

variable {M : Descriptor → ClassInfo} {h : List Admission} {c : Census} {r : Report}
  {k : Descriptor}

/-- The instance that is reported has an alias just where it is a member of the pool. -/
theorem Aligned.aliases_eq (aligned : c.Aligned M) (pooled : c.Pooled h) {p : Pool}
    {d : Descriptor} (pool : c.roster.pool? k = some p)
    (named : c.names[(M d).className]? = some k) :
    c.roster.aliases[d]? = if p.contains d then some k else none := by
  have ascending := pooled.ascending k p pool
  cases member : p.contains d with
  | true => exact aligned.aliased k p d pool ((Pool.contains_iff ascending d).mp member)
  | false =>
      rw [if_neg Bool.false_ne_true, Option.eq_none_iff_forall_ne_some]
      intro k' led
      -- the alias leads to a pool of the same name, which is this one
      obtain ⟨p', pool', held⟩ := pooled.aliased d k' led
      cases named.symm.trans (aligned.named k' p' d pool' held)
      cases pool.symm.trans pool'
      rw [(Pool.contains_iff ascending d).mpr held] at member
      cases member

theorem Accounted.roster_dismiss_receive (accounted : c.Accounted M h)
    (consistent : c.Consistent) (new : c.roster.classOf? r.object = none)
    (named : c.isDynamic k = true → c.names[(M r.descriptor).className]? = some k) :
    ((c.receive r k).dismiss r.object k).roster = c.roster := by
  have pooled := accounted.orderly.pooled
  rw [roster_dismiss, roster_receive, isDynamic_receive r k consistent.sound]
  cases dynamic : c.isDynamic k with
  | false => exact Roster.untrack_track new k
  | true =>
      have silent : c.roster.reports[r.object]? = none := by
        refine Option.eq_none_iff_forall_ne_some.mpr fun d report => ?_
        obtain ⟨k', held, _⟩ := accounted.reporting r.object d report
        cases new.symm.trans held
      obtain ⟨p, pool⟩ := (pooled.pool_iff k).mpr dynamic
      have led := accounted.orderly.aligned.aliases_eq pooled pool (named dynamic)
      calc (((c.roster.track r.object k).enlist r.object r.descriptor k).untrack
            r.object).strike r.object k
          = (((c.roster.track r.object k).untrack r.object).enlist r.object r.descriptor
              k).strike r.object k := rfl
        _ = (c.roster.enlist r.object r.descriptor k).strike r.object k := by
          rw [Roster.untrack_track new]
        _ = c.roster := Roster.strike_enlist silent pool (pooled.ascending k p pool) led

/-- What is left of an object that has come and gone. -/
theorem Accounted.dismiss_receive (accounted : c.Accounted M h) (consistent : c.Consistent)
    (new : c.roster.classOf? r.object = none)
    (named : c.isDynamic k = true → c.names[(M r.descriptor).className]? = some k) :
    (c.receive r k).dismiss r.object k = c.visited k := by
  have sound : (c.receive r k).forest.Sound := by
    rw [forest_receive]
    exact consistent.sound
  have entries : ((c.receive r k).dismiss r.object k).entries = (c.visited k).entries := by
    refine Std.ExtTreeMap.ext_getElem? fun d => ?_
    change ((c.receive r k).dismiss r.object k).entryOf? d = (c.visited k).entryOf? d
    rw [entryOf?_dismiss r.object k sound, entryOf?_receive r k consistent.sound,
      forest_receive, entryOf?_visited, Option.map_map]
    exact congrArg (Option.map · _)
      (funext fun e => recount_lose_recount_gain (c.forest.lineage k) k d e)
  have roster := accounted.roster_dismiss_receive consistent new named
  rw [roster_dismiss] at roster
  rw [dismiss_eq, entries, roster, receive_eq]
  rfl

end Visit

/-- A destruction right after the construction of an object that was not tracked is
answered as a release. It leaves what a registration of the class alone would have left,
but for the totals and the marks on the way up. -/
theorem destroy_of_construct {M : Descriptor → ClassInfo} {c : Census}
    (reach : c.ReachableUnder (·.Tells M)) {host : Host} (tells : host.Tells M) {t t' : Thread}
    {r : Report} {k : Descriptor} (new : c.roster.classOf? r.object = none)
    (constructed : (c.perform host t (.construct r)).answer = .standsUnder (.ok k))
    (allowed : c.ownership.permits t' = true) (host' : Host) :
    let destroyed := (c.perform host t (.construct r)).census.perform host' t' (.destroy r.object)
    let registered := c.perform host t (.register r.descriptor r.generated)
    destroyed.answer = .destroyed .released ∧
      registered.answer = .standsUnder (.ok k) ∧
      destroyed.census = registered.census.visited k := by
  have opened : c.ownership.permits t = true := permits_of_answer (by rw [constructed]; nofun)
  rw [perform_of_permits opened, apply, construct_of_new new] at constructed
  simp only [perform_of_permits opened, apply, construct_of_new new]
  cases register : c.register host r.descriptor r.generated with
  | error e =>
      rw [register] at constructed
      cases constructed
  | ok o =>
      rw [register] at constructed
      cases constructed
      obtain ⟨grows, stands⟩ := register_grows register
      obtain ⟨h, accounted⟩ := reach.accounted
      obtain ⟨consistent', accounted'⟩ := grows.steps.accounted tells reach.consistent accounted
      have new' : o.census.roster.classOf? r.object = none := by
        rw [grows.classOf?, new]
      have held : (o.census.receive r o.answer).roster.classOf? r.object = some o.answer := by
        rw [classOf?_receive, if_pos rfl]
      have received := consistent'.receive new' (stands.contains consistent'.toCoherent)
      obtain ⟨e, entry, alive⟩ := received.counted held
      obtain ⟨answer, census⟩ := destroy_of_counted held entry alive
      have allowed' : (o.census.receive r o.answer).ownership.permits t' = true := by
        rw [receive_eq, grows.ownership]
        exact allowed
      have left := accounted'.dismiss_receive consistent' new' fun dynamic =>
        stands.names consistent'.toCoherent accounted'.orderly.recorded tells dynamic
      simp only [Except.map, Outcome.ofExcept, Outcome.map, perform_of_permits allowed', apply,
        answer, census, left, and_self]

section Grafted

def grafted : ClassTable :=
  regenerated.put ⟨6⟩ ⟨"Part", some ⟨4⟩, false⟩

/-- Two objects of 5, one of which reports 4, and a third one that has gone. -/
def graftedCensus : Census :=
  ((blank ⟨8, false, true⟩ ⟨0⟩ ⟨1⟩).performAll
    ([.construct ⟨⟨10⟩, ⟨5⟩, true⟩, .construct ⟨⟨11⟩, ⟨4⟩, true⟩, .construct ⟨⟨12⟩, ⟨4⟩, true⟩,
      .destroy ⟨12⟩].map (⟨·, ⟨0⟩, grafted.toHost⟩))).census

/-- An object of 4 comes and goes, where 4 is in the pool of 5 already, and so does one of
6, which is not on record before. -/
theorem destroy_of_construct_grafted :
    let c := graftedCensus
    let four : Report := ⟨⟨13⟩, ⟨4⟩, true⟩
    let six : Report := ⟨⟨13⟩, ⟨6⟩, true⟩
    let comes (r : Report) := (c.perform grafted.toHost ⟨0⟩ (.construct r)).census
    let goes (r : Report) := (comes r).perform grafted.toHost ⟨0⟩ (.destroy r.object)
    let alone (r : Report) :=
      (c.perform grafted.toHost ⟨0⟩ (.register r.descriptor r.generated)).census
    c.ReachableUnder (·.Tells grafted.toHost.telling) ∧
      c.roster.classOf? ⟨13⟩ = none ∧ c.ownership.permits ⟨0⟩ = true ∧
      (c.roster.pool? ⟨5⟩).map Pool.toList = some [⟨4⟩, ⟨5⟩] ∧
      ((comes four).roster.pool? ⟨5⟩).map Pool.toList = some [⟨4⟩, ⟨4⟩, ⟨5⟩] ∧
      (goes four).census = (alone four).visited ⟨5⟩ ∧
      c.contains ⟨6⟩ = false ∧ (comes six).roster.canonical ⟨6⟩ = ⟨6⟩ ∧
      (goes six).census = (alone six).visited ⟨6⟩ ∧
      (goes six).census.descriptors.map (fun d => ((goes six).census.entryOf? d).map
        fun e => (e.own, e.inclusive, e.stale)) =
          [some (⟨0, 0⟩, ⟨4, 2⟩, false), some (⟨3, 2⟩, ⟨4, 2⟩, false),
            some (⟨1, 0⟩, ⟨1, 0⟩, true)] := by
  have tells := grafted.toHost.tells_telling
  have reach : graftedCensus.ReachableUnder (·.Tells grafted.toHost.telling) :=
    ⟨grafted.toHost, ⟨8, false, true⟩, ⟨0⟩, blank ⟨8, false, true⟩ ⟨0⟩ ⟨1⟩, _, tells, rfl,
      fun q member => by
        obtain ⟨_, _, rfl⟩ := List.mem_map.mp member
        exact tells, rfl⟩
  have new : graftedCensus.roster.classOf? ⟨13⟩ = none := by decide +kernel
  have allowed : graftedCensus.ownership.permits ⟨0⟩ = true := by decide +kernel
  have four : (graftedCensus.perform grafted.toHost ⟨0⟩ (.construct ⟨⟨13⟩, ⟨4⟩, true⟩)).answer =
      .standsUnder (.ok ⟨5⟩) := rfl
  have six : (graftedCensus.perform grafted.toHost ⟨0⟩ (.construct ⟨⟨13⟩, ⟨6⟩, true⟩)).answer =
      .standsUnder (.ok ⟨6⟩) := rfl
  exact ⟨reach, new, allowed, by decide +kernel, by decide +kernel,
    (destroy_of_construct reach tells new four allowed grafted.toHost).2.2,
    by decide +kernel, by decide +kernel,
    (destroy_of_construct reach tells new six allowed grafted.toHost).2.2, by decide +kernel⟩

end Grafted

end Census

end ClassCensus
