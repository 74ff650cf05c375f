import ClassCensus.Host.Basic
import ClassCensus.Proofs.History
import Mathlib.Algebra.Order.BigOperators.Group.Finset

/-!
# What the counters count

The totals of a class are read off the history: its own total is the number of
admissions that were counted under it. What is alive is read off the roster. The
inclusive tally is the sum of the own tallies over the subtree, so both counters
of it are told at once by a sum of tallies.

The walks that keep the inclusive tallies go up, and a sum over a subtree goes
down. They meet in `Forest.Sound.sum_subtree_of_more`: what is added at one class
is added to the sums of its lineage and to no others.
-/

namespace ClassCensus

open Relation

namespace Tally

instance : Zero Tally := ⟨zero⟩

instance : Add Tally := ⟨fun s t => ⟨s.total + t.total, s.alive + t.alive⟩⟩

@[simp] theorem total_zero : (0 : Tally).total = 0 := rfl

@[simp] theorem alive_zero : (0 : Tally).alive = 0 := rfl

@[simp] theorem total_add (s t : Tally) : (s + t).total = s.total + t.total := rfl

@[simp] theorem alive_add (s t : Tally) : (s + t).alive = s.alive + t.alive := rfl

instance : AddCommMonoid Tally where
  add_assoc s t u := Tally.ext (Nat.add_assoc ..) (Nat.add_assoc ..)
  zero_add t := Tally.ext (Nat.zero_add _) (Nat.zero_add _)
  add_zero t := rfl
  add_comm s t := Tally.ext (Nat.add_comm ..) (Nat.add_comm ..)
  nsmul := nsmulRec

theorem total_sum (s : Finset Descriptor) (g : Descriptor → Tally) :
    (∑ x ∈ s, g x).total = ∑ x ∈ s, (g x).total :=
  map_sum (⟨⟨Tally.total, rfl⟩, total_add⟩ : Tally →+ Nat) g s

theorem alive_sum (s : Finset Descriptor) (g : Descriptor → Tally) :
    (∑ x ∈ s, g x).alive = ∑ x ∈ s, (g x).alive :=
  map_sum (⟨⟨Tally.alive, rfl⟩, alive_add⟩ : Tally →+ Nat) g s

theorem gain_eq_add (t : Tally) : t.gain = t + ⟨1, 1⟩ := rfl

/-- Something has to be alive for a loss to be one. -/
theorem lose_add {t : Tally} (alive : t.alive ≠ 0) : t.lose + ⟨0, 1⟩ = t :=
  Tally.ext rfl (Nat.succ_pred alive)

theorem lose_of_add (t : Tally) : (t + ⟨0, 1⟩).lose = t := rfl

end Tally

namespace Census

def ownOf (c : Census) (d : Descriptor) : Tally :=
  ((c.entryOf? d).map Entry.own).getD 0

theorem ownOf_of_entry {c : Census} {d : Descriptor} {e : Entry} (entry : c.entryOf? d = some e) :
    c.ownOf d = e.own := by
  rw [ownOf, entry]
  rfl

theorem Enters.ownOf {host : Host} {merge : Bool} {c c' : Census} (before : c.Coherent)
    (h : Enters host merge c c') (d : Descriptor) : c'.ownOf d = c.ownOf d := by
  cases h with
  | @intro s p fits =>
      rw [Census.ownOf, Census.ownOf, entryOf?_enter]
      by_cases here : s.descriptor = d
      · subst here
        rw [if_pos rfl, (before.not_contains_iff s.descriptor).mp fits.fresh]
        rfl
      · rw [if_neg here]

section Tallies

variable {c : Census} {k : Descriptor} {e : Entry}

theorem ownOf_receive (sound : c.forest.Sound) (r : Report) (entry : c.entryOf? k = some e)
    (d : Descriptor) :
    (c.receive r k).ownOf d = c.ownOf d + if d = k then ⟨1, 1⟩ else 0 := by
  rw [ownOf, ownOf, entryOf?_receive r k sound]
  by_cases here : d = k
  · subst here
    rw [entry, if_pos rfl]
    simp only [Option.map_some, Option.getD_some, recount_gain, if_true]
    exact Tally.gain_eq_add _
  · have there : k ≠ d := fun h => here h.symm
    rw [if_neg here, add_zero]
    cases c.entryOf? d with
    | none => rfl
    | some e => simp only [Option.map_some, Option.getD_some, recount_gain, if_neg there]

theorem ownOf_dismiss (sound : c.forest.Sound) (o : Object) (entry : c.entryOf? k = some e)
    (alive : e.own.alive ≠ 0) (d : Descriptor) :
    c.ownOf d = (c.dismiss o k).ownOf d + if d = k then ⟨0, 1⟩ else 0 := by
  rw [ownOf, ownOf, entryOf?_dismiss o k sound]
  by_cases here : d = k
  · subst here
    rw [entry, if_pos rfl]
    simp only [Option.map_some, Option.getD_some, recount_lose, if_true]
    exact (Tally.lose_add alive).symm
  · have there : k ≠ d := fun h => here h.symm
    rw [if_neg here, add_zero]
    cases c.entryOf? d with
    | none => rfl
    | some e => simp only [Option.map_some, Option.getD_some, recount_lose, if_neg there]

end Tallies

structure Counted (h : List Admission) (c : Census) : Prop where
  known : ∀ a ∈ h, c.contains a.counted = true
  own_total : ∀ d, (c.ownOf d).total = h.countP fun a => decide (a.counted = d)
  alive_le : ∀ d, (c.ownOf d).alive ≤ (c.ownOf d).total
  inclusive : ∀ d e, c.entryOf? d = some e →
    e.inclusive = ∑ x ∈ c.forest.subtree d, c.ownOf x

namespace Counted

variable {h : List Admission} {c c' : Census}

theorem enters (before : c.Counted h) (coherent : c.Coherent) {host : Host} {merge : Bool}
    (step : Enters host merge c c') : c'.Counted h := by
  have own := step.ownOf coherent
  cases step with
  | @intro s p fits =>
      have nothing : c.ownOf s.descriptor = 0 := by
        rw [ownOf, (coherent.not_contains_iff s.descriptor).mp fits.fresh]
        rfl
      have sums (d : Descriptor) :
          ∑ x ∈ (c.enter s p (Kind.of s.info.readOnly merge)).census.forest.subtree d, c.ownOf x =
            ∑ x ∈ c.forest.subtree d, c.ownOf x :=
        coherent.sound.sum_subtree_grow fits.fresh (fits.parent_contains coherent) nothing d
      refine ⟨fun a ha => ?_, fun d => ?_, fun d => ?_, fun d e entry => ?_⟩
      · exact (Enters.intro fits).contains (before.known a ha)
      · rw [own, before.own_total]
      · rw [own]
        exact before.alive_le d
      · simp only [own, sums]
        rw [entryOf?_enter] at entry
        by_cases here : s.descriptor = d
        · rw [if_pos here] at entry
          cases entry
          subst here
          rw [coherent.sound.subtree_of_not_contains fits.fresh]
          rfl
        · rw [if_neg here] at entry
          exact before.inclusive d e entry

theorem receive (before : c.Counted h) (consistent : c.Consistent) (r : Report) {k : Descriptor}
    (known : c.contains k = true) : (c.receive r k).Counted (h ++ [⟨r, k⟩]) := by
  have sound := consistent.sound
  obtain ⟨e, entry⟩ := (consistent.contains_iff k).mp known
  have own := ownOf_receive sound r entry
  refine ⟨fun a ha => ?_, fun d => ?_, fun d => ?_, fun d e' entry' => ?_⟩
  · rw [contains, forest_receive]
    rcases List.mem_append.mp ha with old | new
    · exact before.known a old
    · rw [List.mem_singleton.mp new]
      exact known
  · rw [own, List.countP_append, Tally.total_add, before.own_total]
    by_cases here : d = k
    · simp [here]
    · have there : k ≠ d := fun h => here h.symm
      simp [here, there]
  · rw [own, Tally.alive_add, Tally.total_add]
    have less := before.alive_le d
    split_ifs
    · exact Nat.succ_le_succ less
    · exact less
  · rw [entryOf?_receive r k sound, Option.map_eq_some_iff] at entry'
    obtain ⟨e', entry', rfl⟩ := entry'
    rw [forest_receive, sound.sum_subtree_of_more known own, recount_gain,
      ← before.inclusive d e' entry']
    by_cases above : d ∈ c.forest.lineage k
    · simp only [if_pos above]
      exact Tally.gain_eq_add _
    · simp only [if_neg above]
      exact (add_zero _).symm

theorem dismiss (before : c.Counted h) (consistent : c.Consistent) {o : Object} {k : Descriptor}
    (held : c.roster.classOf? o = some k) : (c.dismiss o k).Counted h := by
  have sound := consistent.sound
  have known := consistent.tracked_known o k held
  obtain ⟨e, entry, alive⟩ := consistent.counted held
  have own := ownOf_dismiss sound o entry alive
  refine ⟨fun a ha => ?_, fun d => ?_, fun d => ?_, fun d e' entry' => ?_⟩
  · rw [contains, forest_dismiss]
    exact before.known a ha
  · rw [← before.own_total, own d]
    split_ifs <;> rfl
  · have less := before.alive_le d
    rw [own d, Tally.alive_add, Tally.total_add] at less
    split_ifs at less
    · exact Nat.le_of_succ_le less
    · exact less
  · rw [entryOf?_dismiss o k sound, Option.map_eq_some_iff] at entry'
    obtain ⟨e', entry', rfl⟩ := entry'
    have sums := before.inclusive d e' entry'
    rw [sound.sum_subtree_of_more known own] at sums
    rw [forest_dismiss, recount_lose]
    by_cases above : d ∈ c.forest.lineage k
    · simp only [if_pos above] at sums ⊢
      rw [sums]
      exact Tally.lose_of_add _
    · simp only [if_neg above] at sums ⊢
      rw [sums]
      exact add_zero _

end Counted

theorem counted_blank (settings : Settings) (owner : Thread) (base : Descriptor) :
    (blank settings owner base).Counted [] where
  known a ha := by
    cases ha
  own_total d := by
    simp [ownOf, blank, entryOf?]
  alive_le d := by
    simp [ownOf, blank, entryOf?]
  inclusive d e entry := by
    simp [blank, entryOf?] at entry

theorem Step.counted {host : Host} {c c' : Census} {h h' : List Admission}
    (step : Step host c h' c') (consistent : c.Consistent) (before : c.Counted h) :
    c'.Counted (h ++ h') := by
  cases step with
  | enter enters =>
      rw [List.append_nil]
      exact before.enters consistent.toCoherent enters
  | receive new stands =>
      exact before.receive consistent _ (stands.contains consistent.toCoherent)
  | dismiss held =>
      rw [List.append_nil]
      exact before.dismiss consistent held
  | audience s =>
      rw [List.append_nil]
      exact ⟨before.known, before.own_total, before.alive_le, before.inclusive⟩

theorem Steps.counted {host : Host} {c c' : Census} {h h' : List Admission}
    (steps : Steps host c h' c') (consistent : c.Consistent) (before : c.Counted h) :
    c'.Consistent ∧ c'.Counted (h ++ h') :=
  steps.keeps (P := fun h c => c.Counted h)
    (fun _ _ _ _ consistent before step => step.counted consistent before) consistent before

theorem counted_of_run {host : Host} {settings : Settings} {owner : Thread} {c : Census}
    (opened : (establish host settings owner).1 = .ok c) (run : List Occasion) :
    (c.performAll run).census.Consistent ∧
      (c.performAll run).census.Counted (c.admissions run) :=
  run_keeps (P := fun h c => c.Counted h) (H := fun _ => True) counted_blank
    (fun _ _ _ _ _ _ consistent before step => step.counted consistent before) trivial opened run
    fun _ _ => trivial

/-- What the counters in the entry of `d` say, where `h` is the history of the census. -/
structure Tallied (h : List Admission) (c : Census) (d : Descriptor) (e : Entry) : Prop where
  own_total : e.own.total = h.countP fun a => decide (a.counted = d)
  own_alive : e.own.alive = (c.roster.under d).card
  subtree_iff : ∀ x, x ∈ c.forest.subtree d ↔ ReflTransGen c.forest.IsChild d x
  inclusive_total : e.inclusive.total = ∑ x ∈ c.forest.subtree d, (c.ownOf x).total
  inclusive_alive : e.inclusive.alive = ∑ x ∈ c.forest.subtree d, (c.ownOf x).alive
  own_alive_le : e.own.alive ≤ e.own.total
  inclusive_alive_le : e.inclusive.alive ≤ e.inclusive.total
  own_total_le : e.own.total ≤ e.inclusive.total
  inclusive_total_le : e.inclusive.total ≤ h.length

/-- What the counters say of the objects that are tracked, and what a destruction can
rely on. -/
structure CountLaws (h : List Admission) (c : Census) : Prop where
  tallied : ∀ d, c.contains d = true → ∃ e, c.entryOf? d = some e ∧ c.Tallied h d e
  own_alive_pos : ∀ o k, c.roster.classOf? o = some k →
    ∃ e, c.entryOf? k = some e ∧ 0 < e.own.alive
  inclusive_alive_pos : ∀ o k, c.roster.classOf? o = some k →
    ∀ d ∈ c.forest.lineage k, ∃ e, c.entryOf? d = some e ∧ 0 < e.inclusive.alive
  released_iff : ∀ o, (c.destroy o).answer = .released ↔ ∃ k, c.roster.classOf? o = some k
  not_inconsistent : ∀ o, (c.destroy o).answer ≠ .inconsistent
  discounted : ∀ o k, c.roster.classOf? o = some k → ∀ d ∈ c.forest.lineage k, ∃ e e',
    c.entryOf? d = some e ∧ (c.destroy o).census.entryOf? d = some e' ∧
      e'.inclusive.alive + 1 = e.inclusive.alive

theorem sum_countP_le (h : List Admission) (s : Finset Descriptor) :
    ∑ x ∈ s, h.countP (fun a => decide (a.counted = x)) ≤ h.length := by
  induction h with
  | nil => simp
  | cons a h ih =>
      simp only [List.countP_cons, Finset.sum_add_distrib, List.length_cons]
      refine Nat.add_le_add ih ?_
      simp only [decide_eq_true_iff, Finset.sum_ite_eq]
      split_ifs
      · exact le_refl 1
      · exact Nat.zero_le 1

namespace Counted

variable {h : List Admission} {c : Census} (counted : c.Counted h) (consistent : c.Consistent)

include counted consistent

theorem tallied {d : Descriptor} {e : Entry} (entry : c.entryOf? d = some e) :
    c.Tallied h d e := by
  have known := (consistent.contains_iff d).mpr ⟨e, entry⟩
  have total : e.inclusive.total = ∑ x ∈ c.forest.subtree d, (c.ownOf x).total := by
    rw [counted.inclusive d e entry, Tally.total_sum]
  have alive : e.inclusive.alive = ∑ x ∈ c.forest.subtree d, (c.ownOf x).alive := by
    rw [counted.inclusive d e entry, Tally.alive_sum]
  have own := ownOf_of_entry entry
  refine ⟨?_, consistent.own_alive d e entry, fun x => ?_, total, alive, ?_, ?_, ?_, ?_⟩
  · rw [← own, counted.own_total]
  · exact consistent.sound.mem_subtree_iff_reaches known
  · rw [← own]
    exact counted.alive_le d
  · rw [alive, total]
    exact Finset.sum_le_sum fun x _ => counted.alive_le x
  · rw [total, ← own]
    exact Finset.single_le_sum (f := fun x => (c.ownOf x).total) (fun x _ => Nat.zero_le _)
      (consistent.sound.self_mem_subtree known)
  · simp only [total, counted.own_total]
    exact sum_countP_le h _

/-- A tracked object is counted alive all the way up. -/
theorem inclusive_alive_pos {o : Object} {k : Descriptor}
    (held : c.roster.classOf? o = some k) {d : Descriptor} (above : d ∈ c.forest.lineage k) :
    ∃ e, c.entryOf? d = some e ∧ 0 < e.inclusive.alive := by
  have known := consistent.tracked_known o k held
  obtain ⟨e, entry⟩ := (consistent.contains_iff d).mp
    (consistent.sound.forall_mem_lineage known d above)
  obtain ⟨e', entry', alive⟩ := consistent.counted held
  refine ⟨e, entry, ?_⟩
  rw [(counted.tallied consistent entry).inclusive_alive]
  refine Finset.sum_pos' (fun x _ => Nat.zero_le _) ⟨k, ?_, ?_⟩
  · exact consistent.sound.mem_subtree.mpr ⟨known, above⟩
  · rw [ownOf_of_entry entry']
    exact Nat.pos_of_ne_zero alive

theorem countLaws : c.CountLaws h where
  tallied d known := by
    obtain ⟨e, entry⟩ := (consistent.contains_iff d).mp known
    exact ⟨e, entry, counted.tallied consistent entry⟩
  own_alive_pos o k held := by
    obtain ⟨e, entry, alive⟩ := consistent.counted held
    exact ⟨e, entry, Nat.pos_of_ne_zero alive⟩
  inclusive_alive_pos o k held d above := counted.inclusive_alive_pos consistent held above
  released_iff o := by
    cases held : c.roster.classOf? o with
    | none =>
        rw [destroy_of_untracked held]
        simp
    | some k =>
        obtain ⟨e, entry, alive⟩ := consistent.counted held
        rw [(destroy_of_counted held entry alive).1]
        simp
  not_inconsistent o := by
    cases held : c.roster.classOf? o with
    | none =>
        rw [destroy_of_untracked held]
        intro same
        cases same
    | some k =>
        obtain ⟨e, entry, alive⟩ := consistent.counted held
        rw [(destroy_of_counted held entry alive).1]
        intro same
        cases same
  discounted o k held d above := by
    obtain ⟨e', entry', alive⟩ := consistent.counted held
    obtain ⟨e, entry, positive⟩ := counted.inclusive_alive_pos consistent held above
    rw [(destroy_of_counted held entry' alive).2, entryOf?_dismiss o k consistent.sound, entry]
    refine ⟨e, _, rfl, rfl, ?_⟩
    rw [recount_lose]
    simp only [if_pos above]
    exact Nat.succ_pred_eq_of_pos positive

end Counted

/-- Whatever the hosts report and whichever calls fail, the counters say exactly what the
history and the roster say. No counter exceeds the length of the history, so words do
for the counters of every run with fewer than `2 ^ 64` admissions. -/
theorem countLaws_of_run {host : Host} {settings : Settings} {owner : Thread} {c : Census}
    (opened : (establish host settings owner).1 = .ok c) (run : List Occasion) :
    (c.performAll run).census.CountLaws (c.admissions run) := by
  obtain ⟨consistent, counted⟩ := run_keeps (P := fun h c => c.Counted h) (H := fun _ => True)
    counted_blank (fun _ _ _ _ _ _ consistent before step => step.counted consistent before)
    trivial opened run fun _ _ => trivial
  exact counted.countLaws consistent

section Crowd

def crowd : ClassTable :=
  ((((ClassTable.empty ⟨1⟩).put ⟨1⟩ ⟨"Object", none, true⟩).put ⟨2⟩
    ⟨"Widget", some ⟨1⟩, true⟩).put ⟨3⟩ ⟨"Item", some ⟨2⟩, false⟩).put
    ⟨4⟩ ⟨"Item", some ⟨1⟩, false⟩

/-- An object of each, one reported twice, one of a class that is not described, and one
of the class above. Then one is destroyed, and one that never was. -/
def crowdRun : List Occasion :=
  [.construct ⟨⟨10⟩, ⟨3⟩, true⟩, .construct ⟨⟨11⟩, ⟨4⟩, true⟩, .construct ⟨⟨10⟩, ⟨2⟩, false⟩,
    .construct ⟨⟨12⟩, ⟨9⟩, false⟩, .construct ⟨⟨12⟩, ⟨2⟩, false⟩, .destroy ⟨11⟩,
    .destroy ⟨77⟩].map fun call => ⟨call, ⟨0⟩, crowd.toHost⟩

theorem countLaws_crowd :
    let c := blank ⟨8, false, true⟩ ⟨0⟩ ⟨1⟩
    (establish crowd.toHost ⟨8, false, true⟩ ⟨0⟩).1 = .ok c ∧
      (c.admissions crowdRun).map (·.counted) = [⟨3⟩, ⟨3⟩, ⟨2⟩] ∧
      (c.performAll crowdRun).census.CountLaws (c.admissions crowdRun) := by
  have opened : (establish crowd.toHost ⟨8, false, true⟩ ⟨0⟩).1 =
      .ok (blank ⟨8, false, true⟩ ⟨0⟩ ⟨1⟩) := rfl
  exact ⟨opened, by decide +kernel, countLaws_of_run opened crowdRun⟩

end Crowd

end Census

end ClassCensus
