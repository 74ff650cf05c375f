import ClassCensus.Host.Store
import ClassCensus.Proofs.History

/-!
# What a name stands for

Two classes that are generated at run time under one name are one class to the
census, if merging is asked for. `answer_eq_answer_iff` says when: two registrations
with merging agree, unless one of the classes is on record already as a class that
stands for itself alone. Such a class was registered without merging. It keeps its
record, and its name is open to others.

The law needs a host that stays the same during the run. `Recorded` is what it
rests on: what the entries say of the classes is what the host tells.
-/

namespace ClassCensus

def Host.Tells (host : Host) (M : Descriptor → ClassInfo) : Prop :=
  ∀ d info, host.describe d = some info → info = M d

/-- What a host tells, made up for the classes that it does not describe. -/
def Host.telling (host : Host) (d : Descriptor) : ClassInfo :=
  (host.describe d).getD ⟨"", none, false⟩

theorem Host.tells_telling (host : Host) : host.Tells host.telling := by
  intro d info described
  rw [telling, described]
  rfl

namespace Census

structure Recorded (M : Descriptor → ClassInfo) (c : Census) : Prop where
  named : ∀ d e, c.entryOf? d = some e → e.className = (M d).className
  static_iff : ∀ d e, c.entryOf? d = some e → e.kind.isStatic = (M d).readOnly

/-- The class is on record and does not stand for all of its name. -/
def StandsAlone (c : Census) (d : Descriptor) : Prop :=
  ∃ e, c.entryOf? d = some e ∧ e.kind.isDynamic = false

section Recorded

variable {M : Descriptor → ClassInfo} {host : Host} {c c' : Census}

theorem Recorded.enters (before : c.Recorded M) (tells : host.Tells M) {merge : Bool}
    (h : Enters host merge c c') : c'.Recorded M := by
  cases h with
  | @intro s p fits =>
      have told := tells s.descriptor s.info fits.described
      refine ⟨fun d e entry => ?_, fun d e entry => ?_⟩
      · rw [entryOf?_enter] at entry
        split_ifs at entry with here
        · cases entry
          rw [← here, ← told]
          rfl
        · exact before.named d e entry
      · rw [entryOf?_enter] at entry
        split_ifs at entry with here
        · cases entry
          rw [← here, ← told]
          exact Kind.isStatic_of ..
        · exact before.static_iff d e entry

theorem Recorded.recounted (before : c.Recorded M) (recounts : c.Recounts c') :
    c'.Recorded M := by
  refine ⟨fun d e' entry' => ?_, fun d e' entry' => ?_⟩
  · obtain ⟨e, entry, same⟩ := recounts.origin d e' entry'
    rw [same.className]
    exact before.named d e entry
  · obtain ⟨e, entry, same⟩ := recounts.origin d e' entry'
    rw [same.kind]
    exact before.static_iff d e entry

theorem Step.recorded {h : List Admission} (step : Step host c h c') (tells : host.Tells M)
    (consistent : c.Consistent) (before : c.Recorded M) : c'.Recorded M := by
  cases step with
  | enter enters => exact before.enters tells enters
  | receive new stands => exact before.recounted (recounts_receive _ _ consistent.sound)
  | dismiss held => exact before.recounted (recounts_dismiss _ _ consistent.sound)
  | audience s => exact ⟨before.named, before.static_iff⟩

theorem recorded_blank (settings : Settings) (owner : Thread) (base : Descriptor) :
    (blank settings owner base).Recorded M := by
  constructor <;> simp [blank, entryOf?]

theorem ReachableUnder.recorded (reach : c.ReachableUnder (·.Tells M)) : c.Recorded M :=
  (reach.keeps recorded_blank fun _ tells _ _ _ consistent before step =>
    step.recorded tells consistent before).2

theorem Grows.recorded {merge : Bool} (h : Grows host merge c c') (coherent : c.Coherent)
    (tells : host.Tells M) (before : c.Recorded M) : c'.Recorded M :=
  (h.keeps coherent before fun _ _ _ held enters => held.enters tells enters).2

end Recorded

section StandsAlone

variable {host : Host} {c c' : Census} {d : Descriptor} {info : ClassInfo}

theorem Grows.standsAlone {merge : Bool} (h : Grows host merge c c') (coherent : c.Coherent)
    (alone : c.StandsAlone d) : c'.StandsAlone d := by
  obtain ⟨e, entry, kind⟩ := alone
  exact ⟨e, h.entryOf? coherent entry, kind⟩

/-- With merging, a class that can be merged does not come to stand alone. -/
theorem Enters.not_standsAlone (h : Enters host true c c')
    (described : host.describe d = some info) (writable : info.readOnly = false)
    (apart : ¬ c.StandsAlone d) : ¬ c'.StandsAlone d := by
  rintro ⟨e, entry, kind⟩
  cases h with
  | @intro s p fits =>
      rw [entryOf?_enter] at entry
      split_ifs at entry with here
      · cases entry
        rw [← here, fits.described] at described
        cases described
        rw [Entry.fresh, Kind.isDynamic_of, writable] at kind
        cases kind
      · exact apart ⟨e, entry, kind⟩

theorem Grows.not_standsAlone (h : Grows host true c c')
    (described : host.describe d = some info) (writable : info.readOnly = false)
    (apart : ¬ c.StandsAlone d) : ¬ c'.StandsAlone d := by
  induction h with
  | refl => exact apart
  | tail _ enters ih => exact enters.not_standsAlone described writable ih

/-- A class that stands alone stands for no other. -/
theorem StandsFor.not_standsAlone {merge : Bool} {k : Descriptor}
    (h : c.StandsFor host merge d k) (coherent : c.Coherent) (other : d ≠ k) :
    ¬ c.StandsAlone k := by
  rintro ⟨e, entry, kind⟩
  cases h with
  | self => exact other rfl
  | merged _ _ taken =>
      obtain ⟨e', entry', dynamic, _⟩ := (coherent.names_iff _ k).mp taken
      rw [entry] at entry'
      cases entry'
      rw [kind] at dynamic
      cases dynamic

theorem names_of_contains {M : Descriptor → ClassInfo} (coherent : c.Coherent)
    (recorded : c.Recorded M) (known : c.contains d = true) (apart : ¬ c.StandsAlone d) :
    c.names[(M d).className]? = some d := by
  obtain ⟨e, entry⟩ := (coherent.contains_iff d).mp known
  refine (coherent.names_iff _ d).mpr ⟨e, entry, ?_, recorded.named d e entry⟩
  rw [← Bool.not_eq_false]
  exact fun kind => apart ⟨e, entry, kind⟩

theorem StandsAlone.contains (alone : c.StandsAlone d) (coherent : c.Coherent) :
    c.contains d = true := by
  obtain ⟨e, entry, _⟩ := alone
  exact (coherent.contains_iff d).mpr ⟨e, entry⟩

/-- A registration with merging is answered with what the name of the class stands for,
unless the class stands alone. -/
theorem names_register {M : Descriptor → ClassInfo} (coherent : c.Coherent)
    (recorded : c.Recorded M) (tells : host.Tells M) (described : host.describe d = some info)
    (writable : info.readOnly = false) (apart : ¬ c.StandsAlone d) {o : Outcome Descriptor}
    (registered : c.register host d true = .ok o) :
    o.census.names[info.className]? = some o.answer := by
  obtain ⟨grows, stands⟩ := register_grows registered
  generalize answered : o.answer = k at stands
  cases stands with
  | self known =>
      rw [tells d info described]
      exact names_of_contains (grows.coherent coherent) (grows.recorded coherent tells recorded)
        known (grows.not_standsAlone described writable apart)
  | merged described' _ taken =>
      rw [described] at described'
      cases described'
      exact taken

/-- A class that stands alone is answered with itself, and nothing is entered. -/
theorem register_of_standsAlone {merge : Bool} (coherent : c.Coherent) (alone : c.StandsAlone d)
    {o : Outcome Descriptor} (registered : c.register host d merge = .ok o) :
    o.answer = d ∧ o.census = c := by
  rw [register_of_contains (alone.contains coherent)] at registered
  cases registered
  exact ⟨rfl, rfl⟩

end StandsAlone

section Pair

variable {host : Host} {c : Census} {d₁ d₂ : Descriptor} {o₁ o₂ : Outcome Descriptor}
  (coherent : c.Coherent) (first : c.register host d₁ true = .ok o₁)
  (second : o₁.census.register host d₂ true = .ok o₂)

include coherent first second

theorem answer_ne_of_standsAlone (other : d₁ ≠ d₂)
    (alone : c.StandsAlone d₁ ∨ c.StandsAlone d₂) : o₁.answer ≠ o₂.answer := by
  obtain ⟨grows₁, stands₁⟩ := register_grows first
  obtain ⟨grows₂, stands₂⟩ := register_grows second
  have coherent₁ := grows₁.coherent coherent
  intro same
  rcases alone with alone | alone
  · have alone₂ := grows₂.standsAlone coherent₁ (grows₁.standsAlone coherent alone)
    rw [← same, (register_of_standsAlone coherent alone first).1] at stands₂
    exact stands₂.not_standsAlone (grows₂.coherent coherent₁) other.symm alone₂
  · have alone₁ := grows₁.standsAlone coherent alone
    rw [same, (register_of_standsAlone coherent₁ alone₁ second).1] at stands₁
    exact stands₁.not_standsAlone coherent₁ other alone₁

theorem answer_eq_of_not_standsAlone (recorded : c.Recorded host.telling) {i₁ i₂ : ClassInfo}
    (described₁ : host.describe d₁ = some i₁) (described₂ : host.describe d₂ = some i₂)
    (writable₁ : i₁.readOnly = false) (writable₂ : i₂.readOnly = false)
    (named : i₁.className = i₂.className) (apart₁ : ¬ c.StandsAlone d₁)
    (apart₂ : ¬ c.StandsAlone d₂) : o₁.answer = o₂.answer := by
  have tells := host.tells_telling
  obtain ⟨grows₁, -⟩ := register_grows first
  obtain ⟨grows₂, -⟩ := register_grows second
  have name₁ := names_register coherent recorded tells described₁ writable₁ apart₁ first
  have name₂ := names_register (grows₁.coherent coherent)
    (grows₁.recorded coherent tells recorded) tells described₂ writable₂
    (grows₁.not_standsAlone described₂ writable₂ apart₂) second
  rw [named] at name₁
  rw [grows₂.names name₁] at name₂
  exact Option.some.inj name₂

end Pair

/-- Where the host stays the same, two registrations with merging of classes of one name
that can be merged agree, unless the classes are different and one of them was on record
as a class that stands alone. -/
theorem answer_eq_answer_iff {c : Census} {host : Host} (reach : c.ReachableUnder (· = host))
    {d₁ d₂ : Descriptor} {i₁ i₂ : ClassInfo} (described₁ : host.describe d₁ = some i₁)
    (described₂ : host.describe d₂ = some i₂) (writable₁ : i₁.readOnly = false)
    (writable₂ : i₂.readOnly = false) (named : i₁.className = i₂.className)
    {t₁ t₂ : Thread} {k₁ k₂ : Descriptor}
    (first : (c.perform host t₁ (.register d₁ true)).answer = .standsUnder (.ok k₁))
    (second : ((c.perform host t₁ (.register d₁ true)).census.perform host t₂
      (.register d₂ true)).answer = .standsUnder (.ok k₂)) :
    k₁ = k₂ ↔ d₁ = d₂ ∨ ¬ c.StandsAlone d₁ ∧ ¬ c.StandsAlone d₂ := by
  have coherent := reach.consistent.toCoherent
  have recorded : c.Recorded host.telling := (reach.mono fun host' same => by
    rw [same]
    exact host.tells_telling).recorded
  obtain ⟨o₁, registered₁, rfl, after⟩ := register_of_perform first
  rw [← after] at second
  obtain ⟨o₂, registered₂, rfl, -⟩ := register_of_perform second
  have agree := answer_eq_of_not_standsAlone coherent registered₁ registered₂ recorded described₁
    described₂ writable₁ writable₂ named
  constructor
  · intro same
    by_cases equal : d₁ = d₂
    · exact .inl equal
    · have differ := answer_ne_of_standsAlone coherent registered₁ registered₂ equal
      exact .inr ⟨fun alone => differ (.inl alone) same, fun alone => differ (.inr alone) same⟩
  · rintro (rfl | ⟨apart₁, apart₂⟩)
    · by_cases alone : c.StandsAlone d₁
      · obtain ⟨itself, unchanged⟩ := register_of_standsAlone coherent alone registered₁
        rw [unchanged] at registered₂
        rw [itself, (register_of_standsAlone coherent alone registered₂).1]
      · exact agree alone alone
    · exact agree apart₁ apart₂

section Twins

def twins : ClassStore :=
  (((ClassStore.withRoot "Object").define ⟨"Foo", none, false⟩).2.define ⟨"Foo", none, false⟩).2

theorem describe_twins :
    twins.toHost.describe ⟨0x1040⟩ = some ⟨"Foo", none, false⟩ ∧
      twins.toHost.describe ⟨0x1080⟩ = some ⟨"Foo", none, false⟩ := by
  decide +kernel

def twinless : Census :=
  blank ⟨256, false, true⟩ ⟨0⟩ ⟨0x1000⟩

/-- With merging, whichever is registered first stands for the other one. -/
theorem answer_eq_answer_iff_twins :
    let c := (twinless.perform twins.toHost ⟨0⟩ (.register ⟨0x1080⟩ true)).census
    (twinless.perform twins.toHost ⟨0⟩ (.register ⟨0x1080⟩ true)).answer =
        .standsUnder (.ok ⟨0x1080⟩) ∧
      (c.perform twins.toHost ⟨0⟩ (.register ⟨0x1040⟩ true)).answer =
        .standsUnder (.ok ⟨0x1080⟩) ∧
      ((⟨0x1080⟩ : Descriptor) = ⟨0x1080⟩ ↔ (⟨0x1080⟩ : Descriptor) = ⟨0x1040⟩ ∨
        ¬ twinless.StandsAlone ⟨0x1080⟩ ∧ ¬ twinless.StandsAlone ⟨0x1040⟩) := by
  have reach : twinless.ReachableUnder (· = twins.toHost) :=
    ⟨twins.toHost, ⟨256, false, true⟩, ⟨0⟩, twinless, [], rfl, rfl,
      fun q hq => absurd hq List.not_mem_nil, rfl⟩
  have first : (twinless.perform twins.toHost ⟨0⟩ (.register ⟨0x1080⟩ true)).answer =
      .standsUnder (.ok ⟨0x1080⟩) := rfl
  have second : ((twinless.perform twins.toHost ⟨0⟩ (.register ⟨0x1080⟩ true)).census.perform
      twins.toHost ⟨0⟩ (.register ⟨0x1040⟩ true)).answer = .standsUnder (.ok ⟨0x1080⟩) := rfl
  exact ⟨first, second, answer_eq_answer_iff reach describe_twins.2 describe_twins.1 rfl rfl rfl
    first second⟩

def firstTwin : Census :=
  (twinless.performAll [⟨.register ⟨0x1040⟩ false, ⟨0⟩, twins.toHost⟩]).census

/-- Registrations with merging of classes of one name need not agree. -/
theorem exists_answer_ne_answer :
    ¬ ∀ (host : Host) (c : Census), c.ReachableUnder (· = host) →
      ∀ (d₁ d₂ : Descriptor) (i₁ i₂ : ClassInfo), host.describe d₁ = some i₁ →
        host.describe d₂ = some i₂ → i₁.readOnly = false → i₂.readOnly = false →
        i₁.className = i₂.className → ∀ (t₁ t₂ : Thread) (k₁ k₂ : Descriptor),
          (c.perform host t₁ (.register d₁ true)).answer = .standsUnder (.ok k₁) →
          ((c.perform host t₁ (.register d₁ true)).census.perform host t₂
            (.register d₂ true)).answer = .standsUnder (.ok k₂) → k₁ = k₂ := by
  intro claim
  have reach : firstTwin.ReachableUnder (· = twins.toHost) :=
    ⟨twins.toHost, ⟨256, false, true⟩, ⟨0⟩, twinless,
      [⟨.register ⟨0x1040⟩ false, ⟨0⟩, twins.toHost⟩], rfl, rfl,
      fun q hq => by rw [List.mem_singleton.mp hq], rfl⟩
  have first : (firstTwin.perform twins.toHost ⟨0⟩ (.register ⟨0x1040⟩ true)).answer =
      .standsUnder (.ok ⟨0x1040⟩) := rfl
  have second : ((firstTwin.perform twins.toHost ⟨0⟩ (.register ⟨0x1040⟩ true)).census.perform
      twins.toHost ⟨0⟩ (.register ⟨0x1080⟩ true)).answer = .standsUnder (.ok ⟨0x1080⟩) := rfl
  have same := claim twins.toHost firstTwin reach _ _ _ _ describe_twins.1 describe_twins.2 rfl rfl
    rfl _ _ _ _ first second
  exact absurd same (by decide)

end Twins

end Census

end ClassCensus
