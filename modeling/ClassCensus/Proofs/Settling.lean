import ClassCensus.Proofs.Exits
import ClassCensus.Proofs.NameTable

/-!
# What a registration settles

When a chain is settled, `standIn` says of every class of it which one stands for it. It
is looked up in the census that was there before and in the chain, and not in what came
of them: where classes of one name are merged, the class that has the name already
stands for them, or else the uppermost one of the chain.

`Settled` says what is on record then. The classes that stand for themselves have been
entered, from the top down, each below what stands for its superclass, and nothing else
was entered. It is carried along the chain by `Settled.concat`, one class at a time.

`RegisterLaws` puts the way up and the way down together.
-/

namespace ClassCensus

def Sighting.mergeable (s : Sighting) (merge : Bool) : Bool :=
  (Kind.of s.info.readOnly merge).isDynamic

namespace Ascent

def Met (known : Descriptor → Bool) (describe : Descriptor → Option ClassInfo)
    (chain : List Sighting) (u : Descriptor) : Prop :=
  known u = true ∨ ∃ info, describe u = some info ∧ ⟨u, info⟩ ∈ chain

variable {known : Descriptor → Bool} {describe : Descriptor → Option ClassInfo}

theorem Met.concat {chain : List Sighting} {u : Descriptor} (met : Met known describe chain u)
    (s : Sighting) : Met known describe (chain ++ [s]) u :=
  met.imp_right fun ⟨info, described, member⟩ =>
    ⟨info, described, List.mem_append_left _ member⟩

namespace Climbs

variable {d : Descriptor} {anchor : Option Descriptor} {chain : List Sighting}

theorem met (h : Climbs known describe d anchor chain) : Met known describe chain d := by
  cases h with
  | anchored here => exact .inl here
  | top _ described => exact .inr ⟨_, described, List.mem_singleton_self _⟩
  | up _ described => exact .inr ⟨_, described, List.mem_append_right _ (List.mem_singleton_self _)⟩

/-- Of every class on the way up the superclass has been met. -/
theorem met_of_mem (h : Climbs known describe d anchor chain) :
    ∀ s ∈ chain, describe s.descriptor = some s.info ∧
      ∀ u, s.info.superclass = some u → Met known describe chain u := by
  induction h with
  | anchored =>
      intro s hs
      cases hs
  | top _ described last =>
      intro s hs
      rw [List.mem_singleton.mp hs]
      exact ⟨described, fun u extended => by cases last.symm.trans extended⟩
  | up _ described next above ih =>
      intro s hs
      rcases List.mem_append.mp hs with higher | here
      · exact ⟨(ih s higher).1, fun u extended => ((ih s higher).2 u extended).concat _⟩
      · rw [List.mem_singleton.mp here]
        refine ⟨described, fun u extended => ?_⟩
        cases next.symm.trans extended
        exact above.met.concat _

end Climbs

end Ascent

open Ascent

namespace Census

/-- The uppermost class of the chain that a name can be given to. -/
def namesake? (merge : Bool) (chain : List Sighting) (n : String) : Option Descriptor :=
  (chain.find? fun s => s.mergeable merge && s.info.className == n).map Sighting.descriptor

/-- The class that stands for `u` when the chain is settled. -/
def standIn (c : Census) (host : Host) (merge : Bool) (chain : List Sighting)
    (u : Descriptor) : Descriptor :=
  if c.contains u then u
  else
    match host.describe u with
    | none => u
    | some info =>
      if Sighting.mergeable ⟨u, info⟩ merge then
        ((c.names[info.className]?).or (namesake? merge chain info.className)).getD u
      else u

/-- The class has its entry, with nothing counted, and its place below what `f` makes of
its superclass. -/
def Places (c : Census) (merge : Bool) (f : Descriptor → Descriptor) (s : Sighting) : Prop :=
  c.entryOf? s.descriptor = some (.fresh s.info.className (Kind.of s.info.readOnly merge)) ∧
    c.forest.parent? s.descriptor = s.info.superclass.map f

/-- What the record is when the chain, listed from the top down, is settled. -/
structure Settled (c : Census) (host : Host) (merge : Bool) (chain : List Sighting)
    (c' : Census) : Prop where
  names : ∀ n : String, c'.names[n]? = (c.names[n]?).or (namesake? merge chain n)
  descriptors : c'.descriptors = c.descriptors ++
    (chain.map Sighting.descriptor).filter fun u => decide (c.standIn host merge chain u = u)
  entered : ∀ s ∈ chain, c.standIn host merge chain s.descriptor = s.descriptor →
    c'.Places merge (c.standIn host merge chain) s

section Namesake

variable {merge : Bool} {chain : List Sighting}

theorem namesake?_concat (s : Sighting) (n : String) :
    namesake? merge (chain ++ [s]) n = (namesake? merge chain n).or
      (if s.mergeable merge = true ∧ s.info.className = n then some s.descriptor else none) := by
  rw [namesake?, List.find?_append, Option.map_or, ← namesake?]
  congr 1
  by_cases here : s.mergeable merge = true ∧ s.info.className = n
  · simp [here]
  · simp [here]

theorem namesake?_isSome {s : Sighting} (member : s ∈ chain)
    (mergeable : s.mergeable merge = true) :
    (namesake? merge chain s.info.className).isSome = true := by
  rw [namesake?, Option.isSome_map, List.find?_isSome]
  exact ⟨s, member, by simp [mergeable]⟩

end Namesake

section StandIn

variable {c : Census} {host : Host} {merge : Bool} {chain : List Sighting}

theorem standIn_of_contains {u : Descriptor} (known : c.contains u = true) :
    c.standIn host merge chain u = u := by
  rw [standIn, if_pos known]

variable {s : Sighting} (unknown : c.contains s.descriptor = false)
  (described : host.describe s.descriptor = some s.info)

include unknown described

theorem standIn_of_mergeable (mergeable : s.mergeable merge = true) :
    c.standIn host merge chain s.descriptor =
      ((c.names[s.info.className]?).or (namesake? merge chain s.info.className)).getD
        s.descriptor := by
  simp only [standIn, unknown, described, Bool.false_eq_true, if_false]
  exact if_pos mergeable

theorem standIn_of_not_mergeable (alone : s.mergeable merge = false) :
    c.standIn host merge chain s.descriptor = s.descriptor := by
  simp only [standIn, unknown, described, Bool.false_eq_true, if_false]
  exact if_neg (Bool.eq_false_iff.mp alone)

omit unknown described

/-- What comes further down makes no difference to a class that was met. -/
theorem standIn_concat {u : Descriptor} (met : Met c.contains host.describe chain u)
    (t : Sighting) :
    c.standIn host merge (chain ++ [t]) u = c.standIn host merge chain u := by
  cases known : c.contains u with
  | true => rw [standIn_of_contains known, standIn_of_contains known]
  | false =>
      rcases met with here | ⟨info, described, member⟩
      · rw [known] at here
        cases here
      · cases mergeable : Sighting.mergeable ⟨u, info⟩ merge with
        | false =>
            exact (standIn_of_not_mergeable known described mergeable).trans
              (standIn_of_not_mergeable known described mergeable).symm
        | true =>
            obtain ⟨k, namesake⟩ := Option.isSome_iff_exists.mp (namesake?_isSome member mergeable)
            refine (standIn_of_mergeable known described mergeable).trans
              (.trans ?_ (standIn_of_mergeable known described mergeable).symm)
            rw [namesake?_concat, namesake, Option.some_or]

end StandIn

namespace Settled

variable {c c' : Census} {host : Host} {merge : Bool} {chain : List Sighting}

theorem nil (c : Census) (host : Host) (merge : Bool) : c.Settled host merge [] c where
  names _ := Option.or_none.symm
  descriptors := (List.append_nil _).symm
  entered _ member := nomatch member

section Concat

variable {t : Sighting} {p : Option Descriptor} (settled : c.Settled host merge chain c')
  (unknown : c.contains t.descriptor = false)
  (described : host.describe t.descriptor = some t.info)

include settled unknown described

/-- A class whose name is taken is stood for by the class that has it. -/
theorem standIn_of_taken {k : Descriptor} (mergeable : t.mergeable merge = true)
    (taken : c'.names[t.info.className]? = some k) :
    c.standIn host merge (chain ++ [t]) t.descriptor = k := by
  rw [standIn_of_mergeable unknown described mergeable, namesake?_concat, ← Option.or_assoc,
    ← settled.names, taken, Option.some_or, Option.getD_some]

theorem standIn_of_vacant
    (vacant : t.mergeable merge = true → c'.names[t.info.className]? = none) :
    c.standIn host merge (chain ++ [t]) t.descriptor = t.descriptor := by
  cases mergeable : t.mergeable merge with
  | false => exact standIn_of_not_mergeable unknown described mergeable
  | true =>
      rw [standIn_of_mergeable unknown described mergeable, namesake?_concat, ← Option.or_assoc,
        ← settled.names, vacant mergeable, if_pos ⟨mergeable, rfl⟩, Option.none_or,
        Option.getD_some]

omit settled unknown described

variable (met : ∀ s ∈ chain, host.describe s.descriptor = some s.info ∧
    ∀ u, s.info.superclass = some u → Met c.contains host.describe chain u)

include met

theorem standIn_of_mem {s : Sighting} (member : s ∈ chain) (t : Sighting) :
    c.standIn host merge (chain ++ [t]) s.descriptor = c.standIn host merge chain s.descriptor :=
  standIn_concat (.inr ⟨s.info, (met s member).1, member⟩) t

/-- The classes that stand for themselves go on doing so. -/
theorem filter_concat (t : Sighting) :
    (((chain ++ [t]).map Sighting.descriptor).filter fun u =>
        decide (c.standIn host merge (chain ++ [t]) u = u)) =
      ((chain.map Sighting.descriptor).filter fun u => decide (c.standIn host merge chain u = u)) ++
        if c.standIn host merge (chain ++ [t]) t.descriptor = t.descriptor then [t.descriptor]
        else [] := by
  rw [List.map_append, List.filter_append, List.map_singleton, List.filter_singleton]
  congr 1
  · refine List.filter_congr fun u member => ?_
    obtain ⟨s, earlier, rfl⟩ := List.mem_map.mp member
    rw [standIn_of_mem met earlier t]
  · exact Bool.cond_decide ..

include settled

/-- What was entered stays as it is when one more class is settled. -/
theorem entered_concat {c'' : Census} (coherent : c'.Coherent)
    (kept : ∀ u, c'.contains u = true → c''.entryOf? u = c'.entryOf? u ∧
      c''.forest.parent? u = c'.forest.parent? u)
    (next : ∀ u, t.info.superclass = some u → Met c.contains host.describe chain u)
    (new : c.standIn host merge (chain ++ [t]) t.descriptor = t.descriptor →
      c''.Places merge (c.standIn host merge chain) t) :
    ∀ s ∈ chain ++ [t], c.standIn host merge (chain ++ [t]) s.descriptor = s.descriptor →
      c''.Places merge (c.standIn host merge (chain ++ [t])) s := by
  -- a superclass that was met is stood for by the same class as before
  have onward : ∀ s : Sighting,
      (∀ u, s.info.superclass = some u → Met c.contains host.describe chain u) →
        c''.Places merge (c.standIn host merge chain) s →
          c''.Places merge (c.standIn host merge (chain ++ [t])) s := by
    rintro s covered ⟨entry, parent⟩
    refine ⟨entry, parent.trans (Option.map_congr fun u extended => ?_)⟩
    exact (standIn_concat (covered u extended) t).symm
  intro s member itself
  rcases List.mem_append.mp member with earlier | here
  · rw [standIn_of_mem met earlier t] at itself
    obtain ⟨entry, parent⟩ := settled.entered s earlier itself
    have known := (coherent.contains_iff s.descriptor).mpr ⟨_, entry⟩
    exact onward s (met s earlier).2
      ⟨(kept _ known).1.trans entry, (kept _ known).2.trans parent⟩
  · rw [List.mem_singleton.mp here] at itself ⊢
    exact onward t next (new itself)

include unknown described

/-- One more class is settled, below what stands for its superclass. -/
theorem concat (coherent : c'.Coherent) (fresh : c'.contains t.descriptor = false)
    (next : ∀ u, t.info.superclass = some u → Met c.contains host.describe chain u)
    (parent : p = t.info.superclass.map (c.standIn host merge chain)) :
    c.Settled host merge (chain ++ [t]) (c'.settle merge t p).census ∧
      (c'.settle merge t p).answer = c.standIn host merge (chain ++ [t]) t.descriptor := by
  rcases c'.settle_cases merge t p with ⟨k, mergeable, taken, settles⟩ | ⟨vacant, settles⟩
  · -- the class that has the name is on record, and `t` is not
    have stands := settled.standIn_of_taken unknown described mergeable taken
    have other : c.standIn host merge (chain ++ [t]) t.descriptor ≠ t.descriptor := by
      rw [stands]
      rintro rfl
      obtain ⟨e, entry, _⟩ := (coherent.names_iff _ _).mp taken
      rw [(coherent.contains_iff _).mpr ⟨e, entry⟩] at fresh
      cases fresh
    rw [settles]
    refine ⟨⟨fun n => ?_, ?_, ?_⟩, stands.symm⟩
    · rw [namesake?_concat, ← Option.or_assoc, ← settled.names]
      by_cases here : t.mergeable merge = true ∧ t.info.className = n
      · rw [← here.2, taken, Option.some_or]
      · rw [if_neg here, Option.or_none]
    · rw [filter_concat met, if_neg other, List.append_nil]
      exact settled.descriptors
    · exact settled.entered_concat met coherent (fun _ _ => ⟨rfl, rfl⟩) next
        fun itself => absurd itself other
  · have stands := settled.standIn_of_vacant unknown described vacant
    rw [settles]
    refine ⟨⟨fun n => ?_, ?_, ?_⟩, stands.symm⟩
    · rw [namesake?_concat, ← Option.or_assoc, ← settled.names, names_enter]
      by_cases here : t.mergeable merge = true ∧ t.info.className = n
      · rw [if_pos here, ← here.2, vacant here.1, Option.none_or, if_pos ⟨here.1, rfl⟩]
      · rw [if_neg here, Option.or_none]
        exact if_neg here
    · rw [filter_concat met, if_pos stands, ← List.append_assoc, ← settled.descriptors]
      exact Forest.order_grow c'.forest t.descriptor p
    · refine settled.entered_concat met coherent (fun u known => ?_) next fun _ => ?_
      · have apart : t.descriptor ≠ u := by
          rintro rfl
          rw [fresh] at known
          cases known
        rw [entryOf?_enter, if_neg apart, forest_enter, Forest.parent?_grow, if_neg apart]
        exact ⟨rfl, rfl⟩
      · rw [Places, entryOf?_enter, if_pos rfl, forest_enter, Forest.parent?_grow, if_pos rfl]
        exact ⟨rfl, parent⟩

end Concat

end Settled

/-- The way up from a class is settled from the top down, and what stands for the class is
the answer. -/
theorem settleAll_settled {c : Census} (coherent : c.Coherent) {host : Host} (merge : Bool)
    {d : Descriptor} {anchor : Option Descriptor} {chain : List Sighting}
    (way : Climbs c.contains host.describe d anchor chain) :
    c.Settled host merge chain (settleAll merge c anchor d chain).census ∧
      (settleAll merge c anchor d chain).answer = c.standIn host merge chain d := by
  induction way with
  | anchored here => exact ⟨.nil c host merge, (standIn_of_contains here).symm⟩
  | @top d info unknown described last =>
      exact (Settled.nil c host merge).concat (t := ⟨d, info⟩) unknown described
        (fun s member => nomatch member) coherent unknown
        (fun u extended => by cases last.symm.trans extended) (by rw [last, Option.map_none])
  | @up d u info anchor chain unknown described next above ih =>
      obtain ⟨advances, -, only⟩ := settleAll_advances merge above
      rw [settleAll_up above]
      refine ih.1.concat (t := ⟨d, info⟩) unknown described above.met_of_mem
        (advances.grows.coherent coherent)
        (not_contains_of_above unknown described next above only) (fun v extended => ?_) ?_
      · cases next.symm.trans extended
        exact above.met
      · rw [next, Option.map_some, ih.2]

/-- What a registration of a class that is not on record comes to, by what the host
tells of the classes above it. -/
structure RegisterLaws (c : Census) (host : Host) (t : Thread) (d : Descriptor)
    (merge : Bool) : Prop where
  ends : ∃ r, (c.perform host t (.register d merge)).answer = .standsUnder r
  ok_iff : (∃ k, (c.perform host t (.register d merge)).answer = .standsUnder (.ok k)) ↔
    ∃ k, 1 ≤ k ∧ k ≤ c.settings.depthLimit ∧ Lands c.contains host d k
  unresolved_iff : ∀ u,
    (c.perform host t (.register d merge)).answer = .standsUnder (.error (.unresolved u)) ↔
      ∃ i < c.settings.depthLimit, Breaks c.contains host d i u
  tooDeep_iff : ∀ d' limit,
    (c.perform host t (.register d merge)).answer = .standsUnder (.error (.tooDeep d' limit)) ↔
      d' = d ∧ limit = c.settings.depthLimit ∧ Exceeds c.contains host d c.settings.depthLimit
  circle : ∀ i j, i < j → Clear c.contains host d j → host.above d i = host.above d j →
    (c.perform host t (.register d merge)).answer =
      .standsUnder (.error (.tooDeep d c.settings.depthLimit))
  settled : ∀ k ≤ c.settings.depthLimit, Lands c.contains host d k →
    (c.perform host t (.register d merge)).answer =
        .standsUnder (.ok (c.standIn host merge (host.chart d k) d)) ∧
      c.Settled host merge (host.chart d k) (c.perform host t (.register d merge)).census

section Perform

variable {c : Census} {t : Thread} (allowed : c.ownership.permits t = true) (host : Host)
  (d : Descriptor) (merge : Bool)

include allowed

theorem perform_register :
    c.perform host t (.register d merge) =
      .ofExcept c ((Ascent.of c.contains host c.settings.depthLimit d).map fun a =>
        settleAll merge c a.anchor d a.chain) :=
  perform_of_permits allowed host _

theorem exists_answer_eq : ∃ r, (c.perform host t (.register d merge)).answer = .standsUnder r := by
  rw [perform_register allowed]
  cases Ascent.of c.contains host c.settings.depthLimit d with
  | ok a => exact ⟨_, rfl⟩
  | error e => exact ⟨_, rfl⟩

theorem exists_answer_eq_ok_iff :
    (∃ k, (c.perform host t (.register d merge)).answer = .standsUnder (.ok k)) ↔
      ∃ a, Ascent.of c.contains host c.settings.depthLimit d = .ok a := by
  rw [perform_register allowed]
  cases Ascent.of c.contains host c.settings.depthLimit d with
  | ok a => exact iff_of_true ⟨_, rfl⟩ ⟨a, rfl⟩
  | error e => exact iff_of_false (fun ⟨_, ok⟩ => nomatch ok) fun ⟨_, ok⟩ => nomatch ok

theorem answer_eq_error_iff (e : AscentError) :
    (c.perform host t (.register d merge)).answer = .standsUnder (.error e) ↔
      Ascent.of c.contains host c.settings.depthLimit d = .error e := by
  rw [perform_register allowed]
  cases Ascent.of c.contains host c.settings.depthLimit d with
  | ok a => exact iff_of_false (fun failed => nomatch failed) fun failed => nomatch failed
  | error e' =>
      simp only [Except.map, Outcome.ofExcept, Answer.standsUnder.injEq, Except.error.injEq]

end Perform

/-- Whatever a host tells, a registration comes to an end, and where the way up ends
decides on the answer and on what is put on record. This goes for ways that have no end
as well. -/
theorem registerLaws_of_reachable {c : Census} (reach : c.Reachable) {host : Host} {t : Thread}
    {d : Descriptor} (unknown : c.contains d = false) (allowed : c.ownership.permits t = true)
    (merge : Bool) : c.RegisterLaws host t d merge := by
  have coherent := reach.consistent.toCoherent
  have failed := answer_eq_error_iff allowed host d merge
  exact
  { ends := exists_answer_eq allowed host d merge
    ok_iff := (exists_answer_eq_ok_iff allowed host d merge).trans (exists_of_eq_ok_iff unknown)
    unresolved_iff u := (failed _).trans (of_eq_unresolved_iff unknown)
    tooDeep_iff d' limit := (failed _).trans (of_eq_tooDeep_iff unknown)
    circle i j before clear again :=
      (failed _).mpr (clear.exceeds_of_again before again _).of_eq
    settled k short lands := by
      have ascent := lands.of_eq short
      obtain ⟨settled, answer⟩ := settleAll_settled coherent merge (of_eq_ok_iff.mp ascent).1
      rw [perform_register allowed, ascent]
      exact ⟨congrArg (fun k => Answer.standsUnder (.ok k)) answer, settled⟩ }

section Leaf

/-- The class 7 extends 5, which is merged with 3. The classes 8 and 9 extend each
other. -/
def leaves : ClassTable :=
  ((items.put ⟨7⟩ ⟨"Leaf", some ⟨5⟩, false⟩).put ⟨8⟩ ⟨"Left", some ⟨9⟩, false⟩).put ⟨9⟩
    ⟨"Right", some ⟨8⟩, false⟩

theorem registerLaws_renamedCensus :
    renamedCensus.Reachable ∧ renamedCensus.contains ⟨7⟩ = false ∧
      renamedCensus.contains ⟨8⟩ = false ∧ renamedCensus.ownership.permits ⟨0⟩ = true ∧
      (leaves.toHost.chart ⟨7⟩ 3).map Sighting.descriptor = [⟨3⟩, ⟨5⟩, ⟨7⟩] ∧
      renamedCensus.standIn leaves.toHost true (leaves.toHost.chart ⟨7⟩ 3) ⟨5⟩ = ⟨3⟩ ∧
      leaves.toHost.above ⟨8⟩ 0 = leaves.toHost.above ⟨8⟩ 2 ∧
      renamedCensus.RegisterLaws leaves.toHost ⟨0⟩ ⟨7⟩ true ∧
      renamedCensus.RegisterLaws leaves.toHost ⟨0⟩ ⟨8⟩ true := by
  have reach : renamedCensus.Reachable :=
    ⟨parts.toHost, ⟨8, false, true⟩, ⟨0⟩, blank ⟨8, false, true⟩ ⟨0⟩ ⟨1⟩, renamedRun, trivial,
      rfl, fun _ _ => trivial, rfl⟩
  have leaf : renamedCensus.contains ⟨7⟩ = false := by decide +kernel
  have left : renamedCensus.contains ⟨8⟩ = false := by decide +kernel
  have allowed : renamedCensus.ownership.permits ⟨0⟩ = true := rfl
  exact ⟨reach, leaf, left, allowed, by decide +kernel, by decide +kernel, by decide +kernel,
    registerLaws_of_reachable reach leaf allowed true,
    registerLaws_of_reachable reach left allowed true⟩

end Leaf

end Census

end ClassCensus
