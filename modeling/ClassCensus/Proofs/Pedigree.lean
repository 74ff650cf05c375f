import ClassCensus.Census.Attribute
import ClassCensus.Host.Basic
import ClassCensus.Proofs.Names
import ClassCensus.Proofs.Pools

/-!
# What merging keeps of the hierarchy

A class that is merged is replaced by one of its name that came earlier, and what
is above the earlier one need not be what is above the merged one. So the lineages
of a census and the superclass chains of the host are chains of different classes.
Where classes of one name have chains of the same names, they agree in their names,
and this is what a `Pedigree` is: the names along the chain that the host tells.

`Uniform` asks this of the classes that can be merged, as far as their chains come
to an end. A class that is merged has such a chain: it was climbed before anything
was entered.
-/

namespace ClassCensus

open Admission

namespace Host

/-- The class names along the superclass chain of a class, up to a class that extends
nothing. -/
inductive Pedigree (host : Host) : Descriptor → List String → Prop
  | root {d : Descriptor} {info : ClassInfo} (described : host.describe d = some info)
    (last : info.superclass = none) : Pedigree host d [info.className]
  | extending {d s : Descriptor} {info : ClassInfo} {names : List String}
    (described : host.describe d = some info) (next : info.superclass = some s)
    (above : Pedigree host s names) : Pedigree host d (info.className :: names)

/-- Classes that can be merged and have one name have chains of the same names. -/
def Uniform (host : Host) : Prop :=
  ∀ d₁ d₂ i₁ i₂ names₁ names₂, host.describe d₁ = some i₁ → host.describe d₂ = some i₂ →
    i₁.readOnly = false → i₂.readOnly = false → i₁.className = i₂.className →
    host.Pedigree d₁ names₁ → host.Pedigree d₂ names₂ → names₁ = names₂

variable {host : Host}

theorem Pedigree.unique {d : Descriptor} {names names' : List String}
    (h : host.Pedigree d names) (h' : host.Pedigree d names') : names = names' := by
  induction h generalizing names' with
  | root described last =>
      cases h' with
      | root described' =>
          cases described.symm.trans described'
          rfl
      | extending described' next =>
          cases described.symm.trans described'
          cases last.symm.trans next
  | extending described next _ ih =>
      cases h' with
      | root described' last =>
          cases described.symm.trans described'
          cases last.symm.trans next
      | extending described' next' above' =>
          cases described.symm.trans described'
          cases next.symm.trans next'
          rw [ih above']

theorem Pedigree.described {d : Descriptor} {names : List String} (h : host.Pedigree d names) :
    ∃ info, host.describe d = some info := by
  cases h with
  | root described => exact ⟨_, described⟩
  | extending described => exact ⟨_, described⟩

/-- A host is uniform where the name of a class settles its pedigree. -/
theorem uniform_of_pedigrees {F : String → List String}
    (settled : ∀ d info, host.describe d = some info → info.readOnly = false →
      host.Pedigree d (F info.className)) : host.Uniform := by
  intro d₁ d₂ i₁ i₂ names₁ names₂ described₁ described₂ writable₁ writable₂ named h₁ h₂
  rw [h₁.unique (settled d₁ i₁ described₁ writable₁),
    h₂.unique (settled d₂ i₂ described₂ writable₂), named]

end Host

/-- A way up that ends at a class with a pedigree settles one for the class it starts
from. -/
theorem Ascent.Ends.pedigree {known : Descriptor → Bool} {host : Host} {d : Descriptor}
    (ends : Ascent.Ends known host.describe d)
    (settled : ∀ e, known e = true → ∃ names, host.Pedigree e names) :
    ∃ names, host.Pedigree d names := by
  obtain ⟨anchor, chain, way⟩ := ends
  induction way with
  | anchored here => exact settled _ here
  | top _ described last => exact ⟨_, .root described last⟩
  | up _ described next _ ih =>
      obtain ⟨names, above⟩ := ih
      exact ⟨_, .extending described next above⟩

namespace Census

def pedigree (c : Census) (d : Descriptor) : List String :=
  (c.forest.lineage d).map c.className

structure Pedigreed (host : Host) (h : List Admission) (c : Census) : Prop where
  recorded : c.Recorded host.telling
  registered : ∀ d, c.contains d = true → host.Pedigree d (c.pedigree d)
  admitted : ∀ a ∈ h, c.contains a.counted = true ∧
    host.Pedigree a.report.descriptor (c.pedigree a.counted)

theorem Recounts.className {c c' : Census} (recounts : c.Recounts c') :
    c'.className = c.className := by
  funext d
  unfold Census.className
  cases entry : c.entryOf? d with
  | some e =>
      obtain ⟨e', entry', same⟩ := recounts.entry d e entry
      rw [entry']
      exact same.className
  | none =>
      cases entry' : c'.entryOf? d with
      | none => rfl
      | some e' =>
          obtain ⟨e, known, -⟩ := recounts.origin d e' entry'
          cases entry.symm.trans known

section Enter

variable {c : Census} {host : Host} {merge : Bool} {s : Sighting} {p : Option Descriptor}

theorem className_enter (kind : Kind) (d : Descriptor) :
    (c.enter s p kind).census.className d =
      if s.descriptor = d then s.info.className else c.className d := by
  unfold className
  rw [entryOf?_enter]
  by_cases here : s.descriptor = d
  · rw [if_pos here, if_pos here]
    rfl
  · rw [if_neg here, if_neg here]

theorem Fits.pedigree_of_contains (fits : c.Fits host merge s p) (coherent : c.Coherent)
    {d : Descriptor} (known : c.contains d = true) (kind : Kind) :
    (c.enter s p kind).census.pedigree d = c.pedigree d := by
  rw [pedigree, pedigree, fits.lineage_of_contains coherent known]
  apply List.map_congr_left
  intro e he
  have old := coherent.sound.forall_mem_lineage known e he
  rw [className_enter, if_neg]
  rintro rfl
  exact Bool.false_ne_true (fits.fresh.symm.trans old)

theorem Fits.pedigree_of_new (fits : c.Fits host merge s p) (coherent : c.Coherent)
    (kind : Kind) :
    (c.enter s p kind).census.pedigree s.descriptor =
      s.info.className :: p.elim [] c.pedigree := by
  rw [pedigree, fits.lineage_of_new coherent, List.map_cons, className_enter, if_pos rfl]
  cases p with
  | none => rfl
  | some q =>
      have known := fits.parent_contains coherent q rfl
      rw [Option.elim_some, Option.elim_some, ← fits.pedigree_of_contains coherent known kind,
        pedigree, fits.lineage_of_contains coherent known]

end Enter

section Pedigreed

variable {host : Host} {h : List Admission} {c c' : Census}

/-- What stands for a class has the pedigree of the class. -/
theorem StandsFor.pedigree {merge : Bool} {d k : Descriptor}
    (stands : c.StandsFor host merge d k) (coherent : c.Coherent) (uniform : host.Uniform)
    (pedigreed : c.Pedigreed host h) : host.Pedigree d (c.pedigree k) := by
  have known := stands.contains coherent
  have settled := pedigreed.registered k known
  cases stands with
  | self => exact settled
  | @merged _ info described mergeable taken ends =>
      obtain ⟨e, entry, dynamic, named⟩ := (coherent.names_iff _ k).mp taken
      obtain ⟨info', described'⟩ := settled.described
      obtain ⟨names, own⟩ := ends.pedigree fun e known => ⟨_, pedigreed.registered e known⟩
      have told : host.telling k = info' := (host.tells_telling k info' described').symm
      have writable : info.readOnly = false := by
        rw [Kind.isDynamic_of, Bool.and_eq_true, Bool.not_eq_true'] at mergeable
        exact mergeable.1
      have writable' : info'.readOnly = false := by
        rw [← told, ← pedigreed.recorded.static_iff k e entry]
        exact Kind.isStatic_of_isDynamic dynamic
      have same : info.className = info'.className := by
        rw [← told, ← pedigreed.recorded.named k e entry, named]
      rw [← uniform d k info info' _ _ described described' writable writable' same own settled]
      exact own

namespace Pedigreed

theorem enters (before : c.Pedigreed host h) (coherent : c.Coherent) (uniform : host.Uniform)
    {merge : Bool} (step : Enters host merge c c') : c'.Pedigreed host h := by
  have recorded := before.recorded.enters host.tells_telling step
  have contains := fun d => step.contains (d := d)
  cases step with
  | @intro s p fits =>
      refine ⟨recorded, fun d known => ?_, fun a ha => ?_⟩
      · rw [contains_enter, Bool.or_eq_true, decide_eq_true_iff] at known
        rcases known with rfl | known
        · rw [fits.pedigree_of_new coherent]
          cases extended : s.info.superclass with
          | none =>
              rw [fits.root extended]
              exact .root fits.described extended
          | some u =>
              obtain ⟨q, rfl, stands⟩ := fits.below u extended
              exact .extending fits.described extended (stands.pedigree coherent uniform before)
        · rw [fits.pedigree_of_contains coherent known]
          exact before.registered d known
      · obtain ⟨known, settled⟩ := before.admitted a ha
        rw [fits.pedigree_of_contains coherent known]
        exact ⟨contains a.counted known, settled⟩

theorem recounted (before : c.Pedigreed host h) (recorded : c'.Recorded host.telling)
    (recounts : c.Recounts c') : c'.Pedigreed host h := by
  have pedigree : c'.pedigree = c.pedigree := by
    funext d
    rw [Census.pedigree, Census.pedigree, recounts.forest, recounts.className]
  refine ⟨recorded, ?_, ?_⟩
  · rw [recounts.contains, pedigree]
    exact before.registered
  · rw [recounts.contains, pedigree]
    exact before.admitted

/-- An object is admitted under a class with the pedigree of what it reports. -/
theorem received (before : c.Pedigreed host h) (coherent : c.Coherent) (uniform : host.Uniform)
    {r : Report} {k : Descriptor} (stands : c.StandsFor host r.generated r.descriptor k) :
    c.Pedigreed host (h ++ [⟨r, k⟩]) where
  recorded := before.recorded
  registered := before.registered
  admitted a ha := by
    rcases List.mem_append.mp ha with old | new
    · exact before.admitted a old
    · rw [List.mem_singleton.mp new]
      exact ⟨stands.contains coherent, stands.pedigree coherent uniform before⟩

theorem grows (before : c.Pedigreed host h) (coherent : c.Coherent) (uniform : host.Uniform)
    {merge : Bool} (grown : Grows host merge c c') : c'.Pedigreed host h :=
  (grown.keeps coherent before fun _ _ between held step =>
    held.enters between uniform step).2

end Pedigreed

theorem Step.pedigreed {h' : List Admission} (step : Step host c h' c') (uniform : host.Uniform)
    (consistent : c.Consistent) (before : c.Pedigreed host h) :
    c'.Pedigreed host (h ++ h') := by
  have coherent := consistent.toCoherent
  have recorded := step.recorded host.tells_telling consistent before.recorded
  cases step with
  | enter enters =>
      rw [List.append_nil]
      exact before.enters coherent uniform enters
  | @receive _ r k new stands =>
      exact (before.received coherent uniform stands).recounted recorded
        (recounts_receive r k coherent.sound)
  | @dismiss _ o k held =>
      rw [List.append_nil]
      exact before.recounted recorded (recounts_dismiss o k coherent.sound)
  | audience s =>
      rw [List.append_nil]
      exact ⟨recorded, before.registered, before.admitted⟩

theorem pedigreed_blank (settings : Settings) (owner : Thread) (base : Descriptor) :
    (blank settings owner base).Pedigreed host [] where
  recorded := recorded_blank settings owner base
  registered d known := by
    simp [blank, Census.contains, Forest.contains, Forest.empty] at known
  admitted a ha := by
    cases ha

end Pedigreed

/-- What the names along the lineages of a census say of the host, where `h` is the
history of the census. -/
structure PedigreeLaws (host : Host) (h : List Admission) (c : Census) : Prop where
  registered : ∀ d, c.contains d = true → host.Pedigree d (c.pedigree d)
  answered : ∀ t d merge k,
    (c.perform host t (.register d merge)).answer = .standsUnder (.ok k) →
      host.Pedigree d ((c.perform host t (.register d merge)).census.pedigree k)
  tracked : ∀ o k, c.roster.classOf? o = some k →
    ∃ a, latest? h o = some a ∧ a.counted = k ∧
      host.Pedigree a.report.descriptor (c.pedigree k)

theorem Pedigreed.pedigreeLaws {host : Host} {h : List Admission} {c : Census}
    (pedigreed : c.Pedigreed host h) (coherent : c.Coherent) (uniform : host.Uniform)
    (pooled : c.Pooled h) : c.PedigreeLaws host h where
  registered := pedigreed.registered
  answered t d merge k answer := by
    obtain ⟨o, registered, rfl, after⟩ := register_of_perform answer
    obtain ⟨grown, stands⟩ := register_grows registered
    rw [← after]
    exact stands.pedigree (grown.coherent coherent) uniform
      (pedigreed.grows coherent uniform grown)
  tracked o k held := by
    obtain ⟨a, last, rfl⟩ := pooled.latest o k held
    exact ⟨a, last, rfl, (pedigreed.admitted a (mem_of_latest? last)).2⟩

/-- Where the host stays the same and classes of one name have chains of the same names,
the names along each lineage are those of the host, whatever was merged. -/
theorem pedigreeLaws_of_run {host : Host} (uniform : host.Uniform) {settings : Settings}
    {owner : Thread} {c : Census} (opened : (establish host settings owner).1 = .ok c)
    (run : List Occasion) (same : ∀ q ∈ run, q.host = host) :
    (c.performAll run).census.PedigreeLaws host (c.admissions run) := by
  obtain ⟨consistent, pooled, pedigreed⟩ := run_keeps
    (P := fun h c => c.Pooled h ∧ c.Pedigreed host h) (H := (· = host))
    (fun settings owner base => ⟨pooled_blank settings owner base,
      pedigreed_blank settings owner base⟩)
    (fun _ known _ _ _ _ consistent before step => ⟨step.pooled consistent before.1,
      (known ▸ step).pedigreed uniform consistent before.2⟩) rfl opened run same
  exact pedigreed.pedigreeLaws consistent.toCoherent uniform pooled

section Parallel

def parallel : ClassTable :=
  ((((((ClassTable.empty ⟨1⟩).put ⟨1⟩ ⟨"Object", none, true⟩).put ⟨2⟩
    ⟨"Item", some ⟨3⟩, false⟩).put ⟨3⟩ ⟨"Widget", some ⟨1⟩, false⟩).put ⟨4⟩
    ⟨"Item", some ⟨5⟩, false⟩).put ⟨5⟩ ⟨"Widget", some ⟨1⟩, false⟩).put ⟨6⟩
    ⟨"Part", some ⟨4⟩, false⟩

def parallelNames (name : String) : List String :=
  if name = "Widget" then ["Widget", "Object"]
  else if name = "Item" then ["Item", "Widget", "Object"]
  else ["Part", "Item", "Widget", "Object"]

theorem uniform_parallel : parallel.toHost.Uniform := by
  have object : parallel.toHost.describe ⟨1⟩ = some ⟨"Object", none, true⟩ := by decide +kernel
  have widget : parallel.toHost.describe ⟨3⟩ = some ⟨"Widget", some ⟨1⟩, false⟩ := by
    decide +kernel
  have widget' : parallel.toHost.describe ⟨5⟩ = some ⟨"Widget", some ⟨1⟩, false⟩ := by
    decide +kernel
  have item : parallel.toHost.describe ⟨2⟩ = some ⟨"Item", some ⟨3⟩, false⟩ := by decide +kernel
  have item' : parallel.toHost.describe ⟨4⟩ = some ⟨"Item", some ⟨5⟩, false⟩ := by decide +kernel
  have part : parallel.toHost.describe ⟨6⟩ = some ⟨"Part", some ⟨4⟩, false⟩ := by decide +kernel
  have root := Host.Pedigree.root object rfl
  have lower := Host.Pedigree.extending item' rfl (.extending widget' rfl root)
  refine Host.uniform_of_pedigrees (F := parallelNames) fun d info described writable => ?_
  have listed := described
  simp only [parallel, ClassTable.describe_put] at listed
  split_ifs at listed with six five four three two one
  · cases listed
    exact six ▸ .extending part rfl lower
  · cases listed
    exact five ▸ .extending widget' rfl root
  · cases listed
    exact four ▸ lower
  · cases listed
    exact three ▸ .extending widget rfl root
  · cases listed
    exact two ▸ .extending item rfl (.extending widget rfl root)
  · cases listed
    cases writable
  · simp [ClassTable.empty, ClassTable.toHost] at listed

/-- The second chain is merged into the first one, class by class. -/
def parallelRun : List Occasion :=
  [.construct ⟨⟨10⟩, ⟨2⟩, true⟩, .construct ⟨⟨11⟩, ⟨4⟩, true⟩, .register ⟨6⟩ true,
    .register ⟨5⟩ false, .destroy ⟨10⟩].map (⟨·, ⟨0⟩, parallel.toHost⟩)

theorem pedigreeLaws_parallel :
    let c := blank ⟨8, false, true⟩ ⟨0⟩ ⟨1⟩
    (establish parallel.toHost ⟨8, false, true⟩ ⟨0⟩).1 = .ok c ∧
      (c.performAll parallelRun).census.forest.lineage ⟨6⟩ = [⟨6⟩, ⟨2⟩, ⟨3⟩, ⟨1⟩] ∧
      (c.performAll parallelRun).census.roster.classOf? ⟨11⟩ = some ⟨2⟩ ∧
      (c.performAll parallelRun).census.pedigree ⟨2⟩ = ["Item", "Widget", "Object"] ∧
      (c.performAll parallelRun).census.PedigreeLaws parallel.toHost
        (c.admissions parallelRun) := by
  have opened : (establish parallel.toHost ⟨8, false, true⟩ ⟨0⟩).1 =
      .ok (blank ⟨8, false, true⟩ ⟨0⟩ ⟨1⟩) := rfl
  refine ⟨opened, by decide +kernel, by decide +kernel, by decide +kernel, ?_⟩
  refine pedigreeLaws_of_run uniform_parallel opened parallelRun fun q member => ?_
  obtain ⟨_, _, rfl⟩ := List.mem_map.mp member
  rfl

end Parallel

end Census

end ClassCensus
