import ClassCensus.Host.Basic
import ClassCensus.Proofs.History

/-!
# One class for a name

The table of names is read off the entries: it leads from a name to the class that
stands for all of this name, and to no other. So there is one such class for a name
at most. Names are those of the time of registration. The hosts may rename a class
later on, and may give its handle to another one.

`NameLaws` says besides what a registration with merging makes of a class that is not
on record. The name that the host tells at this moment decides. If it is taken, the
answer is the class that has it. If it is free, the class that takes it is the one
asked for or one above it, since a chain may have the same name more than once and is
settled from the top down.
-/

namespace ClassCensus

open Relation

/-- The host tells that `d` extends `u`. -/
def Host.Extends (host : Host) (d u : Descriptor) : Prop :=
  ∃ info, host.describe d = some info ∧ info.superclass = some u

theorem Ascent.Climbs.extends_of_mem {known : Descriptor → Bool} {host : Host} {d : Descriptor}
    {anchor : Option Descriptor} {chain : List Sighting}
    (way : Climbs known host.describe d anchor chain) :
    ∀ u ∈ chain.map Sighting.descriptor, ReflTransGen host.Extends d u := by
  induction way with
  | anchored =>
      intro u hu
      cases hu
  | top =>
      intro u hu
      rw [List.mem_singleton.mp hu]
  | @up d s info anchor chain _ described next _ ih =>
      intro u hu
      rw [List.map_append, List.map_singleton, List.mem_append, List.mem_singleton] at hu
      rcases hu with higher | rfl
      · exact .head ⟨info, described, next⟩ (ih u higher)
      · exact .refl

namespace Census

section Register

variable {c : Census} {host : Host} {d : Descriptor} {info : ClassInfo} {o : Outcome Descriptor}
  (coherent : c.Coherent) (fresh : c.contains d = false)
  (described : host.describe d = some info) (writable : info.readOnly = false)
  (registered : c.register host d true = .ok o)

/-- What is new after a registration is the class that was asked for or extended by it. -/
theorem extends_of_new {merge : Bool} {o : Outcome Descriptor}
    (registered : c.register host d merge = .ok o) {e : Descriptor}
    (unknown : c.contains e = false) (known : o.census.contains e = true) :
    ReflTransGen host.Extends d e := by
  obtain ⟨anchor, chain, way, -, rfl⟩ := register_eq_ok_iff.mp registered
  rcases (settleAll_advances merge way).2.2 e known with old | new
  · rw [unknown] at old
    cases old
  · exact way.extends_of_mem e new

include coherent fresh described writable registered

/-- With merging, a class that was not on record is answered with the one that stands for
its name. -/
theorem names_of_register_fresh : o.census.names[info.className]? = some o.answer := by
  obtain ⟨grown, stands⟩ := register_grows registered
  generalize answered : o.answer = k at stands
  cases stands with
  | self known =>
      obtain ⟨info', described', entry⟩ := grown.entryOf?_of_new coherent fresh known
      cases described.symm.trans described'
      refine ((grown.coherent coherent).names_iff _ d).mpr ⟨_, entry, ?_, rfl⟩
      rw [Entry.fresh, Kind.isDynamic_of, writable]
      rfl
  | merged described' _ taken =>
      cases described.symm.trans described'
      exact taken

/-- Where the name was taken, the class that had it is the answer. -/
theorem answer_of_taken {k : Descriptor} (taken : c.names[info.className]? = some k) :
    o.answer = k := by
  have named := names_of_register_fresh coherent fresh described writable registered
  rw [(register_grows registered).1.names taken] at named
  exact (Option.some.inj named).symm

/-- Where the name was free, the answer is new, and it is the class that was asked for or
extended by it. -/
theorem answer_of_free (free : c.names[info.className]? = none) :
    c.contains o.answer = false ∧ ReflTransGen host.Extends d o.answer := by
  have grown := (register_grows registered).1
  have named := names_of_register_fresh coherent fresh described writable registered
  obtain ⟨e, entry, dynamic, name⟩ := ((grown.coherent coherent).names_iff _ _).mp named
  have known := ((grown.coherent coherent).contains_iff o.answer).mpr ⟨e, entry⟩
  have unknown : c.contains o.answer = false := by
    rw [← Bool.not_eq_true]
    intro old
    obtain ⟨e', entry'⟩ := (coherent.contains_iff o.answer).mp old
    cases entry.symm.trans (grown.entryOf? coherent entry')
    -- an older class of this kind would have the name
    have taken := (coherent.names_iff info.className o.answer).mpr ⟨e, entry', dynamic, name⟩
    rw [free] at taken
    cases taken
  exact ⟨unknown, extends_of_new registered unknown known⟩

end Register

/-- What the names say of the entries, and what a registration with merging makes of a
class that is not on record. -/
structure NameLaws (c : Census) : Prop where
  names_iff : ∀ n d, c.names[n]? = some d ↔
    ∃ e, c.entryOf? d = some e ∧ e.kind.isDynamic = true ∧ e.className = n
  unique : ∀ d d' e e', c.entryOf? d = some e → c.entryOf? d' = some e' →
    e.kind.isDynamic = true → e'.kind.isDynamic = true → e.className = e'.className → d = d'
  not_static : ∀ d e, c.entryOf? d = some e → e.kind.isDynamic = true → e.kind.isStatic = false
  unnamed : ∀ d e, c.entryOf? d = some e → e.kind.isDynamic = false →
    ∀ n : String, c.names[n]? ≠ some d
  answered : ∀ host t d info k, c.contains d = false → host.describe d = some info →
    info.readOnly = false →
      (c.perform host t (.register d true)).answer = .standsUnder (.ok k) →
        (∃ e, (c.perform host t (.register d true)).census.entryOf? k = some e ∧
          e.kind.isDynamic = true ∧ e.className = info.className) ∧
        ((∃ e, c.entryOf? k = some e ∧ e.kind.isDynamic = true ∧ e.className = info.className) ∨
          (∀ d' e, c.entryOf? d' = some e → e.kind.isDynamic = true →
            e.className ≠ info.className) ∧
          c.contains k = false ∧ (k = d ∨ TransGen host.Extends d k))

theorem Coherent.eq_of_className {c : Census} (coherent : c.Coherent) {d d' : Descriptor}
    {e e' : Entry} (entry : c.entryOf? d = some e) (entry' : c.entryOf? d' = some e')
    (dynamic : e.kind.isDynamic = true) (dynamic' : e'.kind.isDynamic = true)
    (named : e.className = e'.className) : d = d' := by
  have one := (coherent.names_iff e.className d).mpr ⟨e, entry, dynamic, rfl⟩
  rw [(coherent.names_iff e.className d').mpr ⟨e', entry', dynamic', named.symm⟩] at one
  exact (Option.some.inj one).symm

theorem Coherent.nameLaws {c : Census} (coherent : c.Coherent) : c.NameLaws where
  names_iff := coherent.names_iff
  unique _ _ _ _ entry entry' dynamic dynamic' named :=
    coherent.eq_of_className entry entry' dynamic dynamic' named
  not_static _ _ _ dynamic := Kind.isStatic_of_isDynamic dynamic
  unnamed d e entry alone n taken := by
    obtain ⟨e', entry', dynamic, _⟩ := (coherent.names_iff n d).mp taken
    cases entry.symm.trans entry'
    rw [alone] at dynamic
    cases dynamic
  answered host t d info k fresh described writable answer := by
    obtain ⟨o, registered, rfl, after⟩ := register_of_perform answer
    rw [← after]
    have named := names_of_register_fresh coherent fresh described writable registered
    have grown := (register_grows registered).1
    refine ⟨((grown.coherent coherent).names_iff _ _).mp named, ?_⟩
    cases earlier : c.names[info.className]? with
    | some k =>
        rw [answer_of_taken coherent fresh described writable registered earlier]
        exact .inl ((coherent.names_iff _ k).mp earlier)
    | none =>
        obtain ⟨unknown, above⟩ :=
          answer_of_free coherent fresh described writable registered earlier
        refine .inr ⟨fun d' e entry dynamic name => ?_, unknown,
          reflTransGen_iff_eq_or_transGen.mp above⟩
        rw [(coherent.names_iff _ d').mpr ⟨e, entry, dynamic, name⟩] at earlier
        cases earlier

/-- Whatever the hosts report and however they rename their classes, there is one class
for each name that is taken, and registrations with merging find it. -/
theorem nameLaws_of_reachable {c : Census} (reach : c.Reachable) : c.NameLaws :=
  reach.consistent.toCoherent.nameLaws

section Renamed

def parts : ClassTable :=
  ((ClassTable.empty ⟨1⟩).put ⟨1⟩ ⟨"Object", none, true⟩).put ⟨2⟩ ⟨"Part", some ⟨1⟩, false⟩

def items : ClassTable :=
  ((parts.put ⟨2⟩ ⟨"Item", some ⟨1⟩, false⟩).put ⟨3⟩ ⟨"Item", some ⟨1⟩, false⟩).put ⟨5⟩
    ⟨"Item", some ⟨3⟩, false⟩

/-- The class 2 is registered before and after the host renames it. -/
def renamedRun : List Occasion :=
  [⟨.register ⟨2⟩ true, ⟨0⟩, parts.toHost⟩, ⟨.register ⟨2⟩ true, ⟨0⟩, items.toHost⟩]

def renamedCensus : Census :=
  ((blank ⟨8, false, true⟩ ⟨0⟩ ⟨1⟩).performAll renamedRun).census

/-- The class 2 goes on standing for parts, and 3 comes to stand for 5, which extends
it. -/
theorem nameLaws_renamedCensus :
    renamedCensus.Reachable ∧ renamedCensus.names["Part"]? = some ⟨2⟩ ∧
      renamedCensus.names["Item"]? = none ∧
      (renamedCensus.perform items.toHost ⟨0⟩ (.register ⟨5⟩ true)).answer =
        .standsUnder (.ok ⟨3⟩) ∧
      renamedCensus.NameLaws := by
  have reach : renamedCensus.Reachable :=
    ⟨parts.toHost, ⟨8, false, true⟩, ⟨0⟩, blank ⟨8, false, true⟩ ⟨0⟩ ⟨1⟩, renamedRun, trivial,
      rfl, fun _ _ => trivial, rfl⟩
  exact ⟨reach, by decide +kernel, by decide +kernel, rfl, nameLaws_of_reachable reach⟩

end Renamed

end Census

end ClassCensus
