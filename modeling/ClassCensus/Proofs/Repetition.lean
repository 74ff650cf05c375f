import ClassCensus.Proofs.Settling

/-!
# Registering again

A class that was merged is not on record, so when it is registered again the way up is
gone through once more. What was entered the first time is on record now, and the way
ends there. All that is left of it are classes that were merged. Their names are taken,
and by the classes that they were merged with, so each of them is merged again and
nothing is entered.

`Confirms` is what such a registration comes to: an answer and nothing else. No limit
gets in its way, as the way up has not become longer.
-/

namespace ClassCensus

open Ascent

namespace Census

/-- A registration is answered with `k`. Nothing is entered, and nobody is told of
anything. -/
structure Confirms (c : Census) (host : Host) (t : Thread) (d : Descriptor) (merge : Bool)
    (k : Descriptor) : Prop where
  answer : (c.perform host t (.register d merge)).answer = .standsUnder (.ok k)
  census : (c.perform host t (.register d merge)).census = c
  silent : (c.perform host t (.register d merge)).signals.filterMap Signal.delivery? = []

theorem confirms_of_register {c : Census} {host : Host} {t : Thread} {d : Descriptor}
    {merge : Bool} {o : Outcome Descriptor} (allowed : c.ownership.permits t = true)
    (registered : c.register host d merge = .ok o) (census : o.census = c)
    (silent : o.signals.filterMap Signal.delivery? = []) :
    c.Confirms host t d merge o.answer := by
  have performed : c.perform host t (.register d merge) =
      o.map fun k => .standsUnder (.ok k) := by
    rw [perform_of_permits allowed, apply, registered]
    rfl
  constructor
  · rw [performed]
    rfl
  · rw [performed]
    exact census
  · rw [performed]
    exact silent

section Settled

variable {c c' : Census} {host : Host} {merge : Bool} {chain : List Sighting}

/-- A class of the chain that was not entered was merged: its name is taken, by the
class that stands for it. -/
theorem Settled.taken (settled : c.Settled host merge chain c') (coherent : c'.Coherent)
    {s : Sighting} (member : s ∈ chain) (unknown : c.contains s.descriptor = false)
    (described : host.describe s.descriptor = some s.info)
    (left : c'.contains s.descriptor = false) :
    s.mergeable merge = true ∧
      c'.names[s.info.className]? = some (c.standIn host merge chain s.descriptor) := by
  have other : c.standIn host merge chain s.descriptor ≠ s.descriptor := by
    intro itself
    have known := (coherent.contains_iff _).mpr ⟨_, (settled.entered s member itself).1⟩
    exact Bool.false_ne_true (left.symm.trans known)
  cases mergeable : s.mergeable merge with
  | false => exact absurd (standIn_of_not_mergeable unknown described mergeable) other
  | true =>
      have stands : c.standIn host merge chain s.descriptor = _ :=
        standIn_of_mergeable unknown described mergeable
      rw [← settled.names] at stands
      refine ⟨rfl, ?_⟩
      cases taken : c'.names[s.info.className]? with
      | none =>
          rw [taken, Option.getD_none] at stands
          exact absurd stands other
      | some k => rw [stands, taken, Option.getD_some]

/-- Where all names of a chain are taken, nothing is entered. -/
theorem settleAll_of_taken (taken : ∀ s ∈ chain, s.mergeable merge = true ∧
      ∃ k, c.names[s.info.className]? = some k) (p : Option Descriptor) (last : Descriptor) :
    (settleAll merge c p last chain).census = c ∧
      (settleAll merge c p last chain).signals.filterMap Signal.delivery? = [] := by
  induction chain generalizing p last with
  | nil => exact ⟨rfl, rfl⟩
  | cons s chain ih =>
      obtain ⟨mergeable, k, name⟩ := taken s List.mem_cons_self
      rcases c.settle_cases merge s p with ⟨k', _, _, settles⟩ | ⟨vacant, _⟩
      · rw [settleAll_cons, settles, List.filterMap_append]
        exact ih (fun s' later => taken s' (List.mem_cons_of_mem s later)) _ _
      · cases name.symm.trans (vacant mergeable)

end Settled

/-- A registration that succeeded can be repeated. It is answered as before, and nothing
comes of it. -/
theorem register_again {c : Census} (coherent : c.Coherent) {host : Host} {d : Descriptor}
    {merge : Bool} {o : Outcome Descriptor} (registered : c.register host d merge = .ok o) :
    ∃ o', o.census.register host d merge = .ok o' ∧ o'.answer = o.answer ∧
      o'.census = o.census ∧ o'.signals.filterMap Signal.delivery? = [] := by
  cases known : o.census.contains d with
  | true =>
      have itself : o.answer = d := by
        by_contra other
        exact Bool.false_ne_true ((not_contains_of_register registered other).symm.trans known)
      exact ⟨_, register_of_contains known host merge, itself.symm, rfl, rfl⟩
  | false =>
      obtain ⟨anchor, chain, way, short, rfl⟩ := register_eq_ok_iff.mp registered
      obtain ⟨settled, answer⟩ := settleAll_settled coherent merge way
      have grows := (settleAll_advances merge way).1.grows
      have coherent' := grows.coherent coherent
      generalize settleAll merge c anchor d chain = o at *
      -- the way that is left, and what its classes were merged with
      obtain ⟨anchor', chain', way', lower⟩ := way.exists_suffix fun _ => grows.contains
      have taken : ∀ s ∈ chain', s.mergeable merge = true ∧
          o.census.names[s.info.className]? =
            some (c.standIn host merge chain s.descriptor) := by
        intro s hs
        have member := lower.subset hs
        exact settled.taken coherent' member (way.not_known_of_mem s member)
          (way.met_of_mem s member).1 (way'.not_known_of_mem s hs)
      obtain ⟨census, silent⟩ := settleAll_of_taken
        (fun s hs => ⟨(taken s hs).1, _, (taken s hs).2⟩) anchor' d
      refine ⟨_, register_eq_ok_iff.mpr ⟨anchor', chain', way', ?_, rfl⟩, ?_, census, silent⟩
      · rw [grows.settings]
        exact lower.length_le.trans short
      · rw [(settleAll_settled coherent' merge way').2, answer]
        rcases way'.met with here | ⟨info, described, member⟩
        · exact absurd (known.symm.trans here) Bool.false_ne_true
        · obtain ⟨mergeable, name⟩ := taken _ member
          rw [standIn_of_mergeable (s := ⟨d, info⟩) known described mergeable, name,
            Option.some_or, Option.getD_some]

/-- Where a registration was answered with a class, the same registration is confirmed,
and so is one of the class in the answer, with merging and without. It makes no
difference which of the classes on the way were merged. -/
theorem confirms_of_perform {c : Census} (reach : c.Reachable) {host : Host} {t t' : Thread}
    {d k : Descriptor} {merge : Bool}
    (first : (c.perform host t (.register d merge)).answer = .standsUnder (.ok k))
    (allowed : c.ownership.permits t' = true) :
    (c.perform host t (.register d merge)).census.Confirms host t' d merge k ∧
      ∀ host' merge',
        (c.perform host t (.register d merge)).census.Confirms host' t' k merge' k := by
  have coherent := reach.consistent.toCoherent
  obtain ⟨o, registered, rfl, after⟩ := register_of_perform first
  obtain ⟨grows, stands⟩ := register_grows registered
  have allowed' : o.census.ownership.permits t' = true := by
    rw [grows.ownership, allowed]
  rw [← after]
  constructor
  · obtain ⟨o', again, answer, census, silent⟩ := register_again coherent registered
    rw [← answer]
    exact confirms_of_register allowed' again census silent
  · intro host' merge'
    have known := stands.contains (grows.coherent coherent)
    have again := register_of_contains known host' merge'
    exact confirms_of_register (o := ⟨o.answer, o.census, []⟩) allowed' again rfl rfl

section Folded

/-- A chain of parts and items in turn, from the item 7 up to the item 3. -/
def folded : ClassTable :=
  (items.put ⟨6⟩ ⟨"Part", some ⟨5⟩, false⟩).put ⟨7⟩ ⟨"Item", some ⟨6⟩, false⟩

/-- The item 3 is entered. The item 5, the part 6 and the item 7 are merged, and the way
up from 7 goes through all three of them again. -/
theorem confirms_renamedCensus :
    renamedCensus.Reachable ∧ renamedCensus.ownership.permits ⟨0⟩ = true ∧
      renamedCensus.descriptors = [⟨1⟩, ⟨2⟩] ∧
      (renamedCensus.perform folded.toHost ⟨0⟩ (.register ⟨7⟩ true)).answer =
        .standsUnder (.ok ⟨3⟩) ∧
      (renamedCensus.perform folded.toHost ⟨0⟩ (.register ⟨7⟩ true)).census.descriptors =
        [⟨1⟩, ⟨2⟩, ⟨3⟩] ∧
      (renamedCensus.perform folded.toHost ⟨0⟩ (.register ⟨7⟩ true)).census.Confirms
        folded.toHost ⟨0⟩ ⟨7⟩ true ⟨3⟩ ∧
      ∀ host merge, (renamedCensus.perform folded.toHost ⟨0⟩ (.register ⟨7⟩ true)).census.Confirms
        host ⟨0⟩ ⟨3⟩ merge ⟨3⟩ := by
  have reach : renamedCensus.Reachable :=
    ⟨parts.toHost, ⟨8, false, true⟩, ⟨0⟩, blank ⟨8, false, true⟩ ⟨0⟩ ⟨1⟩, renamedRun, trivial,
      rfl, fun _ _ => trivial, rfl⟩
  have first : (renamedCensus.perform folded.toHost ⟨0⟩ (.register ⟨7⟩ true)).answer =
      .standsUnder (.ok ⟨3⟩) := rfl
  have allowed : renamedCensus.ownership.permits ⟨0⟩ = true := rfl
  exact ⟨reach, allowed, by decide +kernel, first, by decide +kernel,
    confirms_of_perform reach first allowed⟩

end Folded

end Census

end ClassCensus
