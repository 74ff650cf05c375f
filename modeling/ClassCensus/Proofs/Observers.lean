import ClassCensus.Proofs.History

/-!
# Who is told

Observers go by numbers that are given out once. `Numbered` is what this comes to for
those that are subscribed: their numbers are different, and each was given out. So an
observer that is subscribed at the end of a run, and was known before it, was
subscribed all the time, since a number that was let go does not come back.

The list of observers is changed by subscribing and unsubscribing and by nothing else
that a call may do.
-/

namespace ClassCensus

namespace Observers

structure Numbered (s : Observers) : Prop where
  nodup : s.subscribed.Nodup
  issued : ∀ id ∈ s.subscribed, id.number < s.issued

structure Precedes (s s' : Observers) : Prop where
  issued_le : s.issued ≤ s'.issued
  mem_of_mem : ∀ id, id.number < s.issued → id ∈ s'.subscribed → id ∈ s.subscribed

theorem numbered_nobody : nobody.Numbered where
  nodup := List.nodup_nil
  issued _ h := absurd h List.not_mem_nil

namespace Numbered

variable {s : Observers} (numbered : s.Numbered)

include numbered

theorem subscribe : s.subscribe.2.Numbered where
  nodup := List.nodup_append.mpr ⟨numbered.nodup, List.nodup_singleton _, fun a ha b hb same => by
    have old := numbered.issued a ha
    rw [same, List.mem_singleton.mp hb] at old
    exact Nat.lt_irrefl _ old⟩
  issued id h := by
    rcases List.mem_append.mp h with old | new
    · exact Nat.lt_succ_of_lt (numbered.issued id old)
    · rw [List.mem_singleton.mp new]
      exact Nat.lt_succ_self _

theorem unsubscribe (id : ObserverId) : (s.unsubscribe id).2.Numbered where
  nodup := numbered.nodup.filter _
  issued a h := numbered.issued a (List.mem_filter.mp h).1

end Numbered

namespace Precedes

theorem refl (s : Observers) : s.Precedes s :=
  ⟨Nat.le_refl _, fun _ _ h => h⟩

theorem subscribe (s : Observers) : s.Precedes s.subscribe.2 where
  issued_le := Nat.le_succ _
  mem_of_mem id old h := by
    rcases List.mem_append.mp h with here | new
    · exact here
    · rw [List.mem_singleton.mp new] at old
      exact absurd old (Nat.lt_irrefl _)

theorem unsubscribe (s : Observers) (id : ObserverId) : s.Precedes (s.unsubscribe id).2 :=
  ⟨Nat.le_refl _, fun _ _ h => (List.mem_filter.mp h).1⟩

end Precedes

end Observers

namespace Census

theorem observers_receive (c : Census) (r : Report) (k : Descriptor) :
    (c.receive r k).observers = c.observers := by
  rw [receive_eq]

theorem observers_dismiss (c : Census) (o : Object) (k : Descriptor) :
    (c.dismiss o k).observers = c.observers := by
  rw [dismiss_eq]

section Move

variable {host : Host} {c c' : Census} {h : List Admission} {signals : List Signal}

theorem Move.observers (move : Move host c h signals c') :
    c'.observers = c.observers ∨ c'.observers = c.observers.subscribe.2 ∨
      ∃ id, c'.observers = (c.observers.unsubscribe id).2 := by
  cases move with
  | note => exact .inl rfl
  | enter => exact .inl rfl
  | receive => exact .inl (observers_receive ..)
  | dismiss => exact .inl (observers_dismiss ..)
  | subscribe => exact .inr (.inl rfl)
  | unsubscribe _ id => exact .inr (.inr ⟨id, rfl⟩)

theorem Move.numbered (move : Move host c h signals c') (before : c.observers.Numbered) :
    c'.observers.Numbered := by
  rcases move.observers with same | same | ⟨id, same⟩ <;> rw [same]
  · exact before
  · exact before.subscribe
  · exact before.unsubscribe id

theorem Move.precedes (move : Move host c h signals c') :
    c.observers.Precedes c'.observers := by
  rcases move.observers with same | same | ⟨id, same⟩ <;> rw [same]
  · exact .refl _
  · exact .subscribe _
  · exact .unsubscribe _ id

end Move

/-- An observer that is not asked to go stays. -/
theorem Leads.mem_subscribed {host : Host} {c c' : Census} {call : Call}
    (led : Leads host c call c') {id : ObserverId} (stays : call ≠ .unsubscribe id)
    (told : id ∈ c.observers.subscribed) : id ∈ c'.observers.subscribed := by
  cases led with
  | unchanged => exact told
  | registered h =>
      rw [(register_grows h).1.observers]
      exact told
  | surveyed =>
      rw [(survey_advances c host).grows.observers]
      exact told
  | constructed _ h =>
      rw [observers_receive, (register_grows h).1.observers]
      exact told
  | destroyed =>
      rw [observers_dismiss]
      exact told
  | subscribed => exact List.mem_append_left _ told
  | unsubscribed other =>
      refine List.mem_filter.mpr ⟨told, bne_iff_ne.mpr ?_⟩
      rintro rfl
      exact stays rfl

theorem mem_subscribed_performAll {c : Census} (consistent : c.Consistent) {id : ObserverId}
    (told : id ∈ c.observers.subscribed) (run : List Occasion)
    (stays : ∀ q ∈ run, q.call ≠ .unsubscribe id) :
    id ∈ (c.performAll run).census.observers.subscribed := by
  induction run generalizing c with
  | nil => exact told
  | cons q run ih =>
      refine ih (consistent.perform q) ?_ fun q' hq' =>
        stays q' (List.mem_cons_of_mem q hq')
      exact (perform_leads consistent q).mem_subscribed (stays q List.mem_cons_self) told

theorem Reachable.numbered {c : Census} (reach : c.Reachable) : c.observers.Numbered := by
  obtain ⟨host, settings, owner, c₀, run, -, opened, -, rfl⟩ := reach
  have grows := establish_grows opened
  have consistent := grows.steps.consistent (consistent_blank settings owner host.base)
  refine (performAll_keeps_signals (P := fun _ c => c.observers.Numbered)
    (fun _ _ _ _ _ _ _ before move => move.numbered before) [] run consistent ?_).2
  rw [grows.observers]
  exact Observers.numbered_nobody

end Census

end ClassCensus
