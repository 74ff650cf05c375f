import ClassCensus.Proofs.History

/-!
# Censuses that differ in their objects

Two censuses are alike if the same classes are on record in both, with the same names
and in the same hierarchy, whatever is counted and tracked. A registration goes through
alike censuses in the same way: what it looks at is the hierarchy and the names. A call
about an object looks at this object besides. So it has the same answer in alike
censuses that say the same of the object, and it leaves alike censuses behind.

A call about an object leaves the other objects as they are. If it enters no class, the
census after it is like the one before.
-/

namespace ClassCensus

def Call.object? : Call → Option Object
  | .construct r => some r.object
  | .destroy o => some o
  | _ => none

/-- What an entry says of its class apart from the objects. -/
def Entry.label (e : Entry) : String × Kind :=
  (e.className, e.kind)

namespace Census

structure Alike (c c' : Census) : Prop where
  settings : c'.settings = c.settings
  ownership : c'.ownership = c.ownership
  base : c'.base = c.base
  forest : c'.forest = c.forest
  names : c'.names = c.names
  observers : c'.observers = c.observers
  labels : ∀ d, (c'.entryOf? d).map Entry.label = (c.entryOf? d).map Entry.label

end Census

structure Outcome.Agrees {α : Type} (o o' : Outcome α) : Prop where
  answer : o'.answer = o.answer
  alike : o.census.Alike o'.census

namespace Census

namespace Alike

variable {c c' c'' : Census}

theorem refl (c : Census) : c.Alike c :=
  ⟨rfl, rfl, rfl, rfl, rfl, rfl, fun _ => rfl⟩

theorem symm (h : c.Alike c') : c'.Alike c :=
  ⟨h.settings.symm, h.ownership.symm, h.base.symm, h.forest.symm, h.names.symm,
    h.observers.symm, fun d => (h.labels d).symm⟩

theorem trans (h : c.Alike c') (h' : c'.Alike c'') : c.Alike c'' :=
  ⟨h'.settings.trans h.settings, h'.ownership.trans h.ownership, h'.base.trans h.base,
    h'.forest.trans h.forest, h'.names.trans h.names, h'.observers.trans h.observers,
    fun d => (h'.labels d).trans (h.labels d)⟩

theorem contains (h : c.Alike c') (d : Descriptor) : c'.contains d = c.contains d := by
  rw [Census.contains, h.forest]
  rfl

theorem isDynamic (h : c.Alike c') (d : Descriptor) : c'.isDynamic d = c.isDynamic d := by
  have read (c : Census) :
      c.isDynamic d = ((c.entryOf? d).map Entry.label).any fun l => l.2.isDynamic := by
    rw [Option.any_map]
    rfl
  rw [read, read, h.labels]

theorem enter (h : c.Alike c') (s : Sighting) (p : Option Descriptor) (kind : Kind) :
    (c.enter s p kind).Agrees (c'.enter s p kind) where
  answer := rfl
  alike :=
    { settings := h.settings
      ownership := h.ownership
      base := h.base
      forest := by rw [forest_enter, forest_enter, h.forest]
      names := by
        simp only [Census.enter]
        rw [h.names]
      observers := h.observers
      labels d := by
        rw [entryOf?_enter, entryOf?_enter]
        split_ifs
        · rfl
        · exact h.labels d }

theorem settle (h : c.Alike c') (merge : Bool) (s : Sighting) (p : Option Descriptor) :
    (c.settle merge s p).Agrees (c'.settle merge s p) := by
  -- the names are the same, so one is merged where the other is
  rcases c.settle_cases merge s p with ⟨k, mergeable, taken, settled⟩ | ⟨vacant, settled⟩
  · rcases c'.settle_cases merge s p with ⟨k', _, taken', settled'⟩ | ⟨vacant', _⟩
    · rw [h.names, taken] at taken'
      cases taken'
      rw [settled, settled']
      exact ⟨rfl, h⟩
    · rw [h.names, taken] at vacant'
      cases vacant' mergeable
  · rcases c'.settle_cases merge s p with ⟨k', mergeable', taken', _⟩ | ⟨_, settled'⟩
    · rw [h.names, vacant mergeable'] at taken'
      cases taken'
    · rw [settled, settled']
      exact h.enter s p _

theorem settleAll (h : c.Alike c') (merge : Bool) (p : Option Descriptor) (last : Descriptor)
    (chain : List Sighting) :
    (settleAll merge c p last chain).Agrees (settleAll merge c' p last chain) := by
  induction chain generalizing c c' p last with
  | nil => exact ⟨rfl, h⟩
  | cons s chain ih =>
      have here := h.settle merge s p
      have rest := ih here.alike (some (c.settle merge s p).answer) (c.settle merge s p).answer
      rw [settleAll_cons, settleAll_cons, here.answer]
      exact ⟨rest.answer, rest.alike⟩

/-- A registration fails in both, for the same reason, or succeeds in both. -/
theorem register (h : c.Alike c') (host : Host) (d : Descriptor) (merge : Bool) :
    (∃ e, c.register host d merge = .error e ∧ c'.register host d merge = .error e) ∨
      ∃ o o', c.register host d merge = .ok o ∧ c'.register host d merge = .ok o' ∧
        o.Agrees o' := by
  have ascents : Ascent.of c'.contains host c'.settings.depthLimit d =
      Ascent.of c.contains host c.settings.depthLimit d := by
    rw [h.settings, show c'.contains = c.contains from funext h.contains]
  simp only [Census.register, ascents]
  cases Ascent.of c.contains host c.settings.depthLimit d with
  | error e => exact .inl ⟨e, rfl, rfl⟩
  | ok a => exact .inr ⟨_, _, rfl, rfl, h.settleAll merge a.anchor d a.chain⟩

end Alike

section Objects

variable {c : Census} (sound : c.forest.Sound)

include sound

theorem alike_receive (r : Report) (k : Descriptor) : c.Alike (c.receive r k) where
  settings := settings_receive c r k
  ownership := by rw [receive_eq]
  base := by rw [receive_eq]
  forest := forest_receive c r k
  names := names_receive c r k
  observers := by rw [receive_eq]
  labels d := by
    rw [entryOf?_receive r k sound, Option.map_map]
    refine congrArg (Option.map · (c.entryOf? d)) (funext fun e => ?_)
    rw [Function.comp_apply, recount_gain]
    rfl

theorem alike_dismiss (o : Object) (k : Descriptor) : c.Alike (c.dismiss o k) where
  settings := settings_dismiss c o k
  ownership := by rw [dismiss_eq]
  base := by rw [dismiss_eq]
  forest := forest_dismiss c o k
  names := names_dismiss c o k
  observers := by rw [dismiss_eq]
  labels d := by
    rw [entryOf?_dismiss o k sound, Option.map_map]
    refine congrArg (Option.map · (c.entryOf? d)) (funext fun e => ?_)
    rw [Function.comp_apply, recount_lose]
    rfl

end Objects

section Perform

variable {c c' : Census} (h : c.Alike c')

include h

/-- The construction of an object cannot tell alike censuses apart where they agree on
this object, and they agree on it afterwards. -/
theorem Alike.construct (coherent : c.Coherent) (coherent' : c'.Coherent) (host : Host)
    {r : Report} (same : c'.roster.classOf? r.object = c.roster.classOf? r.object) :
    (Outcome.ofExcept c (c.construct host r)).Agrees (.ofExcept c' (c'.construct host r)) ∧
      (Outcome.ofExcept c' (c'.construct host r)).census.roster.classOf? r.object =
        (Outcome.ofExcept c (c.construct host r)).census.roster.classOf? r.object := by
  cases held : c.roster.classOf? r.object with
  | some k =>
      rw [held] at same
      rw [construct_of_tracked held, construct_of_tracked same]
      exact ⟨⟨rfl, h⟩, same.trans held.symm⟩
  | none =>
      rw [held] at same
      rw [construct_of_new held, construct_of_new same]
      rcases h.register host r.descriptor r.generated with
        ⟨e, failed, failed'⟩ | ⟨o, o', done, done', agrees⟩
      · rw [failed, failed']
        exact ⟨⟨rfl, h⟩, same.trans held.symm⟩
      · have sound := ((register_grows done).1.coherent coherent).sound
        have sound' := ((register_grows done').1.coherent coherent').sound
        rw [done, done']
        simp only [Except.map, Outcome.ofExcept, Outcome.map]
        refine ⟨⟨by rw [agrees.answer], ?_⟩, ?_⟩
        · exact (alike_receive sound r o.answer).symm.trans
            (agrees.alike.trans (alike_receive sound' r o'.answer))
        · rw [classOf?_receive, classOf?_receive, if_pos rfl, if_pos rfl, agrees.answer]

variable (consistent : c.Consistent) (consistent' : c'.Consistent)

include consistent consistent'

/-- Nor can the destruction of an object. -/
theorem Alike.destroy {o : Object} (same : c'.roster.classOf? o = c.roster.classOf? o) :
    (c.destroy o).Agrees (c'.destroy o) ∧
      (c'.destroy o).census.roster.classOf? o = (c.destroy o).census.roster.classOf? o := by
  cases held : c.roster.classOf? o with
  | none =>
      rw [held] at same
      rw [destroy_of_untracked held, destroy_of_untracked same]
      exact ⟨⟨rfl, h⟩, same.trans held.symm⟩
  | some k =>
      rw [held] at same
      obtain ⟨e, entry, alive⟩ := consistent.counted held
      obtain ⟨e', entry', alive'⟩ := consistent'.counted same
      rw [destroy_eq_of_counted held entry alive, destroy_eq_of_counted same entry' alive']
      refine ⟨⟨rfl, ?_⟩, ?_⟩
      · exact (alike_dismiss consistent.sound o k).symm.trans
          (h.trans (alike_dismiss consistent'.sound o k))
      · rw [classOf?_dismiss, classOf?_dismiss, if_pos rfl, if_pos rfl]

/-- A call about an object is answered alike and comes to the same for it. -/
theorem Alike.perform {q : Occasion} {o : Object} (about : q.call.object? = some o)
    (same : c'.roster.classOf? o = c.roster.classOf? o) :
    (c.perform q.host q.thread q.call).Agrees (c'.perform q.host q.thread q.call) ∧
      (c'.perform q.host q.thread q.call).census.roster.classOf? o =
        (c.perform q.host q.thread q.call).census.roster.classOf? o := by
  obtain ⟨call, thread, host⟩ := q
  cases allowed : c.ownership.permits thread with
  | false =>
      rw [perform_of_not_permits allowed, perform_of_not_permits (h.ownership ▸ allowed)]
      exact ⟨⟨rfl, h⟩, same⟩
  | true =>
      simp only [perform_of_permits allowed, perform_of_permits (h.ownership ▸ allowed)]
      cases call with
      | construct r =>
          cases about
          exact h.construct consistent.toCoherent consistent'.toCoherent host same
      | destroy o =>
          cases about
          obtain ⟨agrees, after⟩ := h.destroy consistent consistent' same
          exact ⟨⟨congrArg Answer.destroyed agrees.answer, agrees.alike⟩, after⟩
      | register => cases about
      | survey => cases about
      | subscribe => cases about
      | unsubscribe => cases about

theorem Alike.admission?_eq {q : Occasion} {o : Object} (about : q.call.object? = some o)
    (same : c'.roster.classOf? o = c.roster.classOf? o) : c'.admission? q = c.admission? q := by
  have answer := (h.perform consistent consistent' about same).1.answer
  unfold admission?
  rw [answer]
  obtain ⟨call, thread, host⟩ := q
  cases call with
  | construct r =>
      cases about
      cases (c.perform host thread (.construct r)).answer with
      | standsUnder result =>
          cases result with
          | error => rfl
          | ok k => exact if_congr (by rw [same]) rfl rfl
      | _ => rfl
  | destroy => rfl
  | register => rfl
  | survey => rfl
  | subscribe => rfl
  | unsubscribe => rfl

end Perform

theorem object?_of_admission? {c : Census} {q : Occasion} {a : Admission}
    (admission : c.admission? q = some a) : q.call.object? = some a.report.object := by
  unfold admission? at admission
  split at admission
  · next r k construct _ =>
    split_ifs at admission
    cases admission
    rw [construct]
    rfl
  · cases admission

namespace Leads

variable {host : Host} {c c' : Census} {call : Call} (led : Leads host c call c')

include led

theorem contains {d : Descriptor} (known : c.contains d = true) : c'.contains d = true := by
  cases led with
  | unchanged => exact known
  | registered h => exact (register_grows h).1.contains known
  | surveyed => exact (survey_advances c host).grows.contains known
  | constructed _ h =>
      rw [Census.contains, forest_receive]
      exact (register_grows h).1.contains known
  | destroyed =>
      rw [Census.contains, forest_dismiss]
      exact known
  | subscribed => exact known
  | unsubscribed => exact known

variable {o : Object} (about : call.object? = some o)

include about

theorem classOf?_of_ne {p : Object} (other : o ≠ p) :
    c'.roster.classOf? p = c.roster.classOf? p := by
  cases led with
  | unchanged => rfl
  | registered => cases about
  | surveyed => cases about
  | constructed _ h =>
      cases about
      rw [classOf?_receive, if_neg other, (register_grows h).1.classOf?]
  | destroyed =>
      cases about
      rw [classOf?_dismiss, if_neg other]
  | subscribed => cases about
  | unsubscribed => cases about

/-- A call about an object that puts no class on record leaves a census like the one
before. -/
theorem alike (coherent : c.Coherent)
    (covers : ∀ d, c'.contains d = true → c.contains d = true) : c.Alike c' := by
  cases led with
  | unchanged => exact .refl c
  | registered => cases about
  | surveyed => cases about
  | @constructed r o' _ h =>
      have grown := (register_grows h).1
      have kept : o'.census = c := grown.eq_of_contains fun d known => by
        refine covers d ?_
        rw [Census.contains, forest_receive]
        exact known
      rw [kept]
      exact alike_receive coherent.sound r o'.answer
  | destroyed => exact alike_dismiss coherent.sound _ _
  | subscribed => cases about
  | unsubscribed => cases about

end Leads

end Census

end ClassCensus
