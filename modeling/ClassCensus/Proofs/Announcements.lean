import ClassCensus.Proofs.Counting
import ClassCensus.Proofs.Deliveries
import ClassCensus.Proofs.Observers
import ClassCensus.Proofs.Refusals

/-!
# What is announced, and to whom

A call announces the classes that it puts on record, two events for each, and then the
classes whose counts it changes. `Announces` says that these are all of its events, and
that each of them goes to everybody who is subscribed before the next one is made.

Who is subscribed can be read off the calls and their answers. `issued` and `removed`
are the observers that came and those that were let go, and `Ledger` is what the census
keeps of them. That somebody was asked to go is told without looking at the answer:
`AskedToGo` says that it happened after the number had been given out, which is when it
counts.
-/

namespace ClassCensus

/-- Events that are told to some observers, each of them to all before the next one. -/
def addressed (ids : List ObserverId) (events : List Event) : List (ObserverId × Event) :=
  events.flatMap fun e => ids.map fun id => (id, e)

theorem addressed_append (ids : List ObserverId) (events events' : List Event) :
    addressed ids (events ++ events') = addressed ids events ++ addressed ids events' :=
  List.flatMap_append

def announcements (signals : List Signal) : List (ObserverId × Event) :=
  (signals.filterMap Signal.delivery?).map fun x => (x.observer, x.event)

theorem announcements_append (signals signals' : List Signal) :
    announcements (signals ++ signals') = announcements signals ++ announcements signals' := by
  rw [announcements, List.filterMap_append, List.map_append]
  rfl

namespace Census

theorem announcements_tell (c : Census) (e : Event) :
    announcements (c.tell e) = addressed c.observers.subscribed [e] := by
  rw [announcements, tell, List.filterMap_map, addressed, List.flatMap_singleton]
  generalize c.observers.subscribed = ids
  induction ids with
  | nil => rfl
  | cons id ids ih => exact congrArg ((id, e) :: ·) ih

theorem announcements_noteAlive (c : Census) (d : Descriptor) :
    announcements (c.noteAlive d) = [] := by
  unfold noteAlive
  split <;> rfl

theorem announcements_sweep (f : Entry → Entry) (c : Census) (ds : List Descriptor) :
    announcements (sweep f c ds).2 = addressed c.observers.subscribed (ds.map .changed) := by
  induction ds generalizing c with
  | nil => rfl
  | cons d ds ih =>
      have here : announcements ((c.adjust d f).tell (.changed d)) =
          addressed c.observers.subscribed [.changed d] := announcements_tell ..
      rw [sweep_cons, announcements_append, announcements_append, announcements_noteAlive,
        List.nil_append, here, ih]
      exact (addressed_append c.observers.subscribed [.changed d] (ds.map .changed)).symm

theorem announcements_enter (c : Census) (s : Sighting) (p : Option Descriptor) (kind : Kind) :
    announcements (c.enter s p kind).signals =
      addressed c.observers.subscribed [.adding s.descriptor, .added s.descriptor] := by
  have known := announcements_tell (c.acquaint s p kind) (.adding s.descriptor)
  have listed := announcements_tell (c.enter s p kind).census (.added s.descriptor)
  rw [signals_enter, announcements_append, announcements_append, known, listed]
  exact (addressed_append c.observers.subscribed [.adding s.descriptor]
    [.added s.descriptor]).symm

def arrivals (news : List Descriptor) : List Event :=
  news.flatMap fun d => [.adding d, .added d]

/-- While classes are entered, each of them is announced twice, in the order of arrival.
-/
theorem Advances.announces {host : Host} {merge : Bool} {c c' : Census} {signals : List Signal}
    (advances : Advances host merge c signals c') :
    ∃ news, c'.descriptors = c.descriptors ++ news ∧
      announcements signals = addressed c.observers.subscribed (arrivals news) := by
  induction advances with
  | refl => exact ⟨[], (List.append_nil _).symm, rfl⟩
  | note _ r ih =>
      obtain ⟨news, listed, announced⟩ := ih
      refine ⟨news, listed, ?_⟩
      rw [announcements_append, announced]
      exact List.append_nil _
  | @enter c' signals s p before fits ih =>
      obtain ⟨news, listed, announced⟩ := ih
      have more : arrivals (news ++ [s.descriptor]) =
          arrivals news ++ [.adding s.descriptor, .added s.descriptor] := by
        rw [arrivals, List.flatMap_append, List.flatMap_singleton]
        rfl
      refine ⟨news ++ [s.descriptor], ?_, ?_⟩
      · rw [descriptors_enter, listed, List.append_assoc]
      · rw [announcements_append, announced, announcements_enter, before.grows.observers, more,
          addressed_append]

theorem announcements_receive (c : Census) (r : Report) (k : Descriptor) :
    announcements (c.receiveSignals r k) =
      addressed c.observers.subscribed ((c.forest.lineage k).map .changed) := by
  rw [receiveSignals, announcements_sweep, enroll_eq]
  rfl

theorem announcements_dismiss (c : Census) (o : Object) (k : Descriptor) :
    announcements (c.dismissSignals o k) =
      addressed c.observers.subscribed ((c.forest.lineage k).map .changed) := by
  rw [dismissSignals, announcements_sweep, withdraw_eq]
  rfl

/-- The class that a call with this answer counts a new object under, or that it
discounts one under. -/
def recounted? (c : Census) : Call → Answer → Option Descriptor
  | .construct r, .standsUnder (.ok k) =>
    if c.roster.classOf? r.object = none then some k else none
  | .destroy o, .destroyed .released => c.roster.classOf? o
  | _, _ => none

/-- What the call `q` announces in the census `c`: each class that it puts on record is
known and then listed, and then the counts change from the class of an object on
upwards. -/
def Announces (c : Census) (q : Occasion) : Prop :=
  let o := c.perform q.host q.thread q.call
  ∃ news, o.census.descriptors = c.descriptors ++ news ∧
    announcements o.signals = addressed c.observers.subscribed (arrivals news ++
      ((c.recounted? q.call o.answer).elim [] o.census.forest.lineage).map .changed)

theorem perform_announces {c : Census} (consistent : c.Consistent) (q : Occasion) :
    c.Announces q := by
  have goes := perform_goes consistent q
  unfold Announces
  generalize c.admission? q = a, c.perform q.host q.thread q.call = o at goes
  have nothing : c.descriptors = c.descriptors ++ [] := (List.append_nil _).symm
  have only (news : List Descriptor) : arrivals news = arrivals news ++ [] :=
    (List.append_nil _).symm
  cases goes with
  | refused =>
      refine ⟨[], nothing, ?_⟩
      cases q.call <;> rfl
  | failed =>
      refine ⟨[], nothing, ?_⟩
      cases q.call <;> rfl
  | registered h =>
      obtain ⟨news, listed, announced⟩ := (register_advances h).1.announces
      exact ⟨news, listed, announced.trans (congrArg _ (only news))⟩
  | @surveyed _ host =>
      obtain ⟨news, listed, announced⟩ := (survey_advances c host).announces
      exact ⟨news, listed, announced.trans (congrArg _ (only news))⟩
  | @repeated r _ _ k held =>
      refine ⟨[], nothing, ?_⟩
      have tracked : c.recounted? (.construct r) (.standsUnder (.ok k)) = none := by
        rw [recounted?, held]
        rfl
      simp only [tracked]
      rfl
  | @constructed r _ _ o new h =>
      obtain ⟨advances, -⟩ := register_advances h
      obtain ⟨news, listed, announced⟩ := advances.announces
      have counted : c.recounted? (.construct r) (.standsUnder (.ok o.answer)) =
          some o.answer := if_pos new
      refine ⟨news, ?_, ?_⟩
      · rw [descriptors, forest_receive]
        exact listed
      · simp only [counted, Option.elim_some, forest_receive]
        rw [announcements_append, announced, announcements_receive, advances.grows.observers,
          addressed_append]
  | untracked => exact ⟨[], nothing, rfl⟩
  | @released o _ _ k held =>
      have discounted : c.recounted? (.destroy o) (.destroyed .released) = some k := held
      refine ⟨[], ?_, ?_⟩
      · rw [descriptors, forest_dismiss]
        exact nothing
      · simp only [discounted, Option.elim_some, forest_dismiss]
        exact announcements_dismiss c o k
  | subscribed => exact ⟨[], nothing, rfl⟩
  | unsubscribed => exact ⟨[], nothing, rfl⟩

end Census

namespace Proceeding

def issued? (p : Proceeding) : Option ObserverId :=
  match p.outcome.answer with
  | .subscribed id => some id
  | _ => none

def removed? (p : Proceeding) : Option ObserverId :=
  match p.occasion.call, p.outcome.answer with
  | .unsubscribe id, .unsubscribed true => some id
  | _, _ => none

/-- An observer was asked to go, by a thread that may ask, whether it was there or not. -/
def Asks (p : Proceeding) (id : ObserverId) : Prop :=
  p.occasion.call = .unsubscribe id ∧ ∃ present, p.outcome.answer = .unsubscribed present

end Proceeding

def issued (ps : List Proceeding) : List ObserverId :=
  ps.filterMap Proceeding.issued?

def removed (ps : List Proceeding) : List ObserverId :=
  ps.filterMap Proceeding.removed?

/-- An observer was asked to go when its number had been given out. -/
def AskedToGo (ps : List Proceeding) (id : ObserverId) : Prop :=
  ∃ early p late, ps = early ++ p :: late ∧ id ∈ issued early ∧ p.Asks id

theorem issued_concat (ps : List Proceeding) (p : Proceeding) :
    issued (ps ++ [p]) = issued ps ++ p.issued?.toList := by
  rw [issued, List.filterMap_append, List.filterMap_cons, List.filterMap_nil]
  cases p.issued? <;> rfl

theorem removed_concat (ps : List Proceeding) (p : Proceeding) :
    removed (ps ++ [p]) = removed ps ++ p.removed?.toList := by
  rw [removed, List.filterMap_append, List.filterMap_cons, List.filterMap_nil]
  cases p.removed? <;> rfl

theorem askedToGo_concat (ps : List Proceeding) (p : Proceeding) (id : ObserverId) :
    AskedToGo (ps ++ [p]) id ↔ AskedToGo ps id ∨ id ∈ issued ps ∧ p.Asks id := by
  constructor
  · rintro ⟨early, p', late, parts, given, asks⟩
    rcases List.eq_nil_or_concat late with rfl | ⟨late, last, rfl⟩
    · obtain ⟨rfl, same⟩ := List.append_inj' parts rfl
      cases same
      exact .inr ⟨given, asks⟩
    · rw [List.concat_eq_append, ← List.cons_append, ← List.append_assoc] at parts
      obtain ⟨rfl, -⟩ := List.append_inj' parts rfl
      exact .inl ⟨early, p', late, rfl, given, asks⟩
  · rintro (⟨early, p', late, rfl, given, asks⟩ | ⟨given, asks⟩)
    · refine ⟨early, p', late ++ [p], ?_, given, asks⟩
      rw [List.append_assoc, List.cons_append]
    · exact ⟨ps, p, [], rfl, given, asks⟩

structure Ledger (ps : List Proceeding) (s : Observers) : Prop where
  issued_eq : issued ps = (List.range s.issued).map ObserverId.mk
  subscribed_eq : s.subscribed = (issued ps).filter fun id => !(removed ps).contains id
  removed_nodup : (removed ps).Nodup
  mem_issued : ∀ id ∈ removed ps, id ∈ issued ps
  mem_removed_iff : ∀ id, id ∈ removed ps ↔ AskedToGo ps id

theorem ledger_nobody : Ledger [] .nobody where
  issued_eq := rfl
  subscribed_eq := rfl
  removed_nodup := List.nodup_nil
  mem_issued id mem := absurd mem List.not_mem_nil
  mem_removed_iff id := by
    constructor
    · exact fun mem => absurd mem List.not_mem_nil
    · rintro ⟨early, p, late, parts, -⟩
      cases early <;> cases parts

namespace Ledger

variable {ps : List Proceeding} {s : Observers} {p : Proceeding} (ledger : Ledger ps s)

include ledger

theorem mem_subscribed_iff (id : ObserverId) :
    id ∈ s.subscribed ↔ id ∈ issued ps ∧ id ∉ removed ps := by
  rw [ledger.subscribed_eq, List.mem_filter]
  simp

/-- Where nobody is asked to go, the ones that are subscribed are those that were and
the one that has come, if one has. -/
theorem arrive {s' : Observers} (kept : ∀ present, p.outcome.answer ≠ .unsubscribed present)
    (given : issued ps ++ p.issued?.toList = (List.range s'.issued).map ObserverId.mk)
    (told : s'.subscribed = s.subscribed ++ p.issued?.toList)
    (new : ∀ id ∈ p.issued?.toList, id ∉ issued ps) : Ledger (ps ++ [p]) s' := by
  have nobody : p.removed? = none := by
    unfold Proceeding.removed?
    split
    · next answer => exact absurd answer (kept true)
    · rfl
  have staying : (p.issued?.toList.filter fun id => !(removed ps).contains id) =
      p.issued?.toList := by
    rw [List.filter_eq_self]
    intro id mem
    have absent : id ∉ removed ps := fun gone => new id mem (ledger.mem_issued id gone)
    simpa using absent
  have gone : removed (ps ++ [p]) = removed ps := by
    rw [removed_concat, nobody]
    exact List.append_nil _
  refine ⟨?_, ?_, ?_, fun id mem => ?_, fun id => ?_⟩
  · rw [issued_concat, given]
  · rw [told, issued_concat, gone, List.filter_append, staying, ledger.subscribed_eq]
  · rw [gone]
    exact ledger.removed_nodup
  · rw [gone] at mem
    rw [issued_concat]
    exact List.mem_append_left _ (ledger.mem_issued id mem)
  · rw [gone, askedToGo_concat, ledger.mem_removed_iff]
    refine ⟨.inl, fun asked => asked.resolve_right ?_⟩
    rintro ⟨-, -, present, answer⟩
    exact kept present answer

theorem pass (silent : p.issued? = none)
    (kept : ∀ present, p.outcome.answer ≠ .unsubscribed present) : Ledger (ps ++ [p]) s := by
  refine ledger.arrive kept ?_ ?_ ?_
  · rw [silent, Option.toList_none, List.append_nil]
    exact ledger.issued_eq
  · rw [silent, Option.toList_none, List.append_nil]
  · rw [silent, Option.toList_none]
    exact fun _ mem => absurd mem List.not_mem_nil

theorem subscribe (answer : p.outcome.answer = .subscribed s.subscribe.1) :
    Ledger (ps ++ [p]) s.subscribe.2 := by
  have given : p.issued? = some s.subscribe.1 := by
    rw [Proceeding.issued?, answer]
  refine ledger.arrive (fun present same => nomatch answer.symm.trans same) ?_ ?_ ?_
  · rw [given, ledger.issued_eq, Observers.subscribe, List.range_succ, List.map_append]
    rfl
  · rw [given]
    rfl
  · rw [given, Option.toList_some]
    intro id mem
    rw [List.mem_singleton.mp mem, ledger.issued_eq]
    simp [Observers.subscribe]

section Unsubscribe

variable {id : ObserverId} (call : p.occasion.call = .unsubscribe id)
  (answer : p.outcome.answer = .unsubscribed (s.unsubscribe id).1)

include call answer

omit ledger in
theorem removed_unsubscribe :
    removed (ps ++ [p]) = removed ps ++ if id ∈ s.subscribed then [id] else [] := by
  rw [removed_concat, Proceeding.removed?, call, answer, Observers.unsubscribe]
  by_cases told : id ∈ s.subscribed
  · simp [told]
  · simp [told]

/-- The observer that is asked to go is let go now, unless it was before. -/
theorem mem_removed_unsubscribe {x : ObserverId} (given : x ∈ issued ps) :
    x ∈ removed (ps ++ [p]) ↔ x ∈ removed ps ∨ x = id := by
  rw [removed_unsubscribe call answer, List.mem_append]
  by_cases told : id ∈ s.subscribed
  · rw [if_pos told, List.mem_singleton]
  · rw [if_neg told]
    constructor
    · exact fun mem => .inl (mem.resolve_right List.not_mem_nil)
    · rintro (old | rfl)
      · exact .inl old
      · refine .inl ?_
        by_contra still
        exact told ((ledger.mem_subscribed_iff x).mpr ⟨given, still⟩)

theorem unsubscribe : Ledger (ps ++ [p]) (s.unsubscribe id).2 := by
  have gone : removed (ps ++ [p]) = _ := removed_unsubscribe call answer
  have nothing : issued (ps ++ [p]) = issued ps := by
    rw [issued_concat, Proceeding.issued?, answer]
    exact List.append_nil _
  have mem_issued (x : ObserverId) (mem : x ∈ removed (ps ++ [p])) : x ∈ issued ps := by
    rw [gone, List.mem_append] at mem
    rcases mem with old | last
    · exact ledger.mem_issued x old
    · split_ifs at last with told
      · rw [List.mem_singleton.mp last]
        exact ((ledger.mem_subscribed_iff id).mp told).1
      · exact absurd last List.not_mem_nil
  have mem_removed {x : ObserverId} := ledger.mem_removed_unsubscribe call answer (x := x)
  refine ⟨?_, ?_, ?_, ?_, fun x => ?_⟩
  · rw [nothing]
    exact ledger.issued_eq
  · rw [nothing]
    change s.subscribed.filter (· != id) = _
    rw [ledger.subscribed_eq, List.filter_filter]
    refine List.filter_congr fun x given => ?_
    rw [Bool.eq_iff_iff]
    simp [mem_removed given, and_comm]
  · rw [gone]
    split_ifs with told
    · have first := ((ledger.mem_subscribed_iff id).mp told).2
      exact List.nodup_append.mpr ⟨ledger.removed_nodup, List.nodup_singleton id,
        fun a old b last same => first (List.mem_singleton.mp last ▸ same ▸ old)⟩
    · rw [List.append_nil]
      exact ledger.removed_nodup
  · rw [nothing]
    exact mem_issued
  · have asks : p.Asks x ↔ x = id := by
      constructor
      · rintro ⟨same, -⟩
        exact (Call.unsubscribe.inj (call.symm.trans same)).symm
      · rintro rfl
        exact ⟨call, _, answer⟩
    rw [askedToGo_concat, ← ledger.mem_removed_iff, asks]
    by_cases given : x ∈ issued ps
    · rw [mem_removed given]
      simp [given]
    · constructor
      · exact fun mem => absurd (mem_issued x mem) given
      · rintro (old | ⟨given', -⟩)
        · exact absurd (ledger.mem_issued x old) given
        · exact absurd given' given

end Unsubscribe

end Ledger

structure Census.ObserverLaws (ps : List Proceeding) (c : Census) : Prop where
  issued_eq : issued ps = (List.range (issued ps).length).map ObserverId.mk
  removed_nodup : (removed ps).Nodup
  removed_issued : ∀ id ∈ removed ps, id ∈ issued ps
  subscribed_eq : c.observers.subscribed =
    (issued ps).filter fun id => !(removed ps).contains id
  subscribed_nodup : c.observers.subscribed.Nodup
  size_eq : c.observers.size + (removed ps).length = (issued ps).length
  subscribe : ∀ host t, c.ownership.permits t = true →
    (c.perform host t .subscribe).answer = .subscribed ⟨(issued ps).length⟩
  unsubscribe : ∀ host t id, c.ownership.permits t = true →
    ∃ present, (c.perform host t (.unsubscribe id)).answer = .unsubscribed present ∧
      (present = true ↔ id ∈ issued ps ∧ ¬ AskedToGo ps id)

theorem Ledger.observerLaws {ps : List Proceeding} {c : Census}
    (ledger : Ledger ps c.observers) : c.ObserverLaws ps := by
  have length : (issued ps).length = c.observers.issued := by
    rw [ledger.issued_eq, List.length_map, List.length_range]
  have distinct : (issued ps).Nodup := by
    rw [ledger.issued_eq]
    exact List.nodup_range.map fun m n same => congrArg ObserverId.number same
  have gone : ((issued ps).filter fun id => (removed ps).contains id).Perm (removed ps) := by
    rw [List.perm_ext_iff_of_nodup (distinct.filter _) ledger.removed_nodup]
    intro id
    rw [List.mem_filter, List.contains_iff_mem]
    exact ⟨fun both => both.2, fun old => ⟨ledger.mem_issued id old, old⟩⟩
  exact
  { issued_eq := by
      rw [length]
      exact ledger.issued_eq
    removed_nodup := ledger.removed_nodup
    removed_issued := ledger.mem_issued
    subscribed_eq := ledger.subscribed_eq
    subscribed_nodup := by
      rw [ledger.subscribed_eq]
      exact distinct.filter _
    size_eq := by
      rw [Observers.size, ledger.subscribed_eq, ← gone.length_eq, Nat.add_comm]
      exact (List.length_eq_length_filter_add _).symm
    subscribe host t allowed := by
      rw [Census.perform_of_permits allowed, length]
      rfl
    unsubscribe host t id allowed := by
      rw [Census.perform_of_permits allowed]
      refine ⟨_, rfl, ?_⟩
      rw [← ledger.mem_removed_iff, ← ledger.mem_subscribed_iff]
      exact List.contains_iff_mem }

namespace Census

section Ledger

variable {ps : List Proceeding} {c : Census} (consistent : c.Consistent)

include consistent

theorem ledger_proceeding (ledger : Ledger ps c.observers) (q : Occasion) :
    Ledger (ps ++ [c.proceeding q]) (c.proceeding q).outcome.census.observers := by
  have goes := perform_goes consistent q
  unfold proceeding
  generalize c.admission? q = a, c.perform q.host q.thread q.call = o at goes
  cases goes with
  | refused => exact ledger.pass rfl fun _ same => nomatch same
  | failed => exact ledger.pass rfl fun _ same => nomatch same
  | registered h =>
      refine Ledger.pass ?_ rfl fun _ same => nomatch same
      exact (register_grows h).1.observers ▸ ledger
  | @surveyed _ host =>
      refine Ledger.pass ?_ rfl fun _ same => nomatch same
      exact (survey_advances c host).grows.observers ▸ ledger
  | repeated => exact ledger.pass rfl fun _ same => nomatch same
  | @constructed r _ _ o new h =>
      have same : (o.census.receive r o.answer).observers = c.observers :=
        (observers_receive ..).trans (register_grows h).1.observers
      refine Ledger.pass ?_ rfl fun _ same => nomatch same
      exact same ▸ ledger
  | untracked => exact ledger.pass rfl fun _ same => nomatch same
  | @released o _ _ k held =>
      refine Ledger.pass ?_ rfl fun _ same => nomatch same
      exact (observers_dismiss c o k) ▸ ledger
  | subscribed => exact ledger.subscribe rfl
  | unsubscribed id => exact ledger.unsubscribe rfl rfl

theorem ledger_performAll (ledger : Ledger ps c.observers) (run : List Occasion) :
    Ledger (ps ++ c.proceedings run) (c.performAll run).census.observers := by
  induction run generalizing c ps with
  | nil =>
      rw [proceedings, List.append_nil]
      exact ledger
  | cons q run ih =>
      rw [proceedings_cons, List.append_cons, performAll_cons_census]
      exact ih (consistent.perform q) (ledger_proceeding consistent ledger q)

end Ledger

/-- After any run, whoever came and went in it, the next call announces what it does to
the classes and nothing else, to everybody who is subscribed. Who is subscribed is told
by the calls of the run. -/
theorem announces_of_run {host : Host} {settings : Settings} {owner : Thread} {c : Census}
    (opened : (establish host settings owner).1 = .ok c) (run : List Occasion) (q : Occasion) :
    (c.performAll run).census.Announces q ∧
      (c.performAll run).census.ObserverLaws (c.proceedings run) := by
  have grows := establish_grows opened
  have consistent := grows.steps.consistent (consistent_blank settings owner host.base)
  have start : Ledger [] c.observers := by
    rw [grows.observers]
    exact ledger_nobody
  exact ⟨perform_announces (consistent.performAll run) q,
    (ledger_performAll consistent start run).observerLaws⟩

section Audience

/-- Two observers come, and one that is not there is asked to go. The first one goes and
is asked to go again, a third one comes, and a thread that may not do so asks the second
one to go. -/
def audienceRun : List Occasion :=
  [.subscribe, .subscribe, .unsubscribe ⟨2⟩, .unsubscribe ⟨0⟩, .unsubscribe ⟨0⟩,
    .subscribe].map (⟨·, ⟨0⟩, crowd.toHost⟩) ++ [⟨.unsubscribe ⟨1⟩, ⟨7⟩, crowd.toHost⟩]

/-- The second and the third observer are told of a construction that puts a class on
record below the root, and the third one goes when it is asked for the first time. -/
theorem announces_audienceRun :
    let c := blank ⟨8, false, true⟩ ⟨0⟩ ⟨1⟩
    let q : Occasion := ⟨.construct ⟨⟨10⟩, ⟨4⟩, true⟩, ⟨0⟩, crowd.toHost⟩
    let c' := (c.performAll audienceRun).census
    (establish crowd.toHost ⟨8, false, true⟩ ⟨0⟩).1 = .ok c ∧
      issued (c.proceedings audienceRun) = [⟨0⟩, ⟨1⟩, ⟨2⟩] ∧
      removed (c.proceedings audienceRun) = [⟨0⟩] ∧
      announcements (c'.perform q.host q.thread q.call).signals =
        [(⟨1⟩, .adding ⟨1⟩), (⟨2⟩, .adding ⟨1⟩), (⟨1⟩, .added ⟨1⟩), (⟨2⟩, .added ⟨1⟩),
          (⟨1⟩, .adding ⟨4⟩), (⟨2⟩, .adding ⟨4⟩), (⟨1⟩, .added ⟨4⟩), (⟨2⟩, .added ⟨4⟩),
          (⟨1⟩, .changed ⟨4⟩), (⟨2⟩, .changed ⟨4⟩), (⟨1⟩, .changed ⟨1⟩),
          (⟨2⟩, .changed ⟨1⟩)] ∧
      c'.Announces q ∧ c'.ObserverLaws (c.proceedings audienceRun) := by
  intro c q c'
  have opened : (establish crowd.toHost ⟨8, false, true⟩ ⟨0⟩).1 = .ok c := rfl
  exact ⟨opened, by decide +kernel, by decide +kernel, by decide +kernel,
    announces_of_run opened audienceRun q⟩

end Audience

end Census

end ClassCensus
