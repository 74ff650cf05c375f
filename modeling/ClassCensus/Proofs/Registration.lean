import ClassCensus.Census.Registration
import ClassCensus.Proofs.Ascent
import ClassCensus.Proofs.Forest.Lineage

/-!
# What a registration does

A registration enters classes one by one, from the top down. `Enters` is one such
step with all that is settled when it is taken, and `Grows` is any number of them.
Whatever holds of a census and is kept by `Enters` is kept by `register` and by
`survey`, so later modules look at one entered class only. `Advances` is the same
growth together with the signals that it gives.

`Coherent` ties the hierarchy, the entries and the names together. It is what
makes the next step possible: a class that is merged is answered with the class
of its name, and this class has to be on record to be a parent. `StandsFor` says
which classes can be answered.
-/

namespace ClassCensus

open Relation

namespace Census

structure Coherent (c : Census) : Prop where
  sound : c.forest.Sound
  contains_iff : ∀ d, c.contains d = true ↔ ∃ e, c.entryOf? d = some e
  names_iff : ∀ n d, c.names[n]? = some d ↔
    ∃ e, c.entryOf? d = some e ∧ e.kind.isDynamic = true ∧ e.className = n

def isDynamic (c : Census) (d : Descriptor) : Bool :=
  (c.entryOf? d).any fun e => e.kind.isDynamic

/-- `k` stands for `d` if it is `d`, or if `d` may be merged and `k` has its name. A class
that is merged was looked up to the end of its own way, though its way is not entered. -/
inductive StandsFor (c : Census) (host : Host) (merge : Bool) :
    Descriptor → Descriptor → Prop
  | self {d : Descriptor} (known : c.contains d = true) : StandsFor c host merge d d
  | merged {d k : Descriptor} {info : ClassInfo} (described : host.describe d = some info)
    (mergeable : (Kind.of info.readOnly merge).isDynamic = true)
    (taken : c.names[info.className]? = some k)
    (ends : Ascent.Ends c.contains host.describe d) : StandsFor c host merge d k

structure Fits (c : Census) (host : Host) (merge : Bool) (s : Sighting)
    (p : Option Descriptor) : Prop where
  fresh : c.contains s.descriptor = false
  described : host.describe s.descriptor = some s.info
  vacant : (Kind.of s.info.readOnly merge).isDynamic = true →
    c.names[s.info.className]? = none
  root : s.info.superclass = none → p = none
  below : ∀ u, s.info.superclass = some u → ∃ q, p = some q ∧ c.StandsFor host merge u q

inductive Enters (host : Host) (merge : Bool) (c : Census) : Census → Prop
  | intro {s : Sighting} {p : Option Descriptor} (fits : c.Fits host merge s p) :
    Enters host merge c (c.enter s p (Kind.of s.info.readOnly merge)).census

abbrev Grows (host : Host) (merge : Bool) : Census → Census → Prop :=
  ReflTransGen (Enters host merge)

inductive Advances (host : Host) (merge : Bool) (c : Census) : List Signal → Census → Prop
  | refl : Advances host merge c [] c
  | note {c' : Census} {signals : List Signal} (before : Advances host merge c signals c')
    (r : LogRecord) : Advances host merge c (signals ++ [.log r]) c'
  | enter {c' : Census} {signals : List Signal} {s : Sighting} {p : Option Descriptor}
    (before : Advances host merge c signals c') (fits : c'.Fits host merge s p) :
    Advances host merge c
      (signals ++ (c'.enter s p (Kind.of s.info.readOnly merge)).signals)
      (c'.enter s p (Kind.of s.info.readOnly merge)).census

namespace Advances

variable {host : Host} {merge : Bool} {c c' c'' : Census} {signals signals' : List Signal}

theorem trans (h : Advances host merge c signals c') (h' : Advances host merge c' signals' c'') :
    Advances host merge c (signals ++ signals') c'' := by
  induction h' with
  | refl =>
      rw [List.append_nil]
      exact h
  | note _ r ih =>
      rw [← List.append_assoc]
      exact ih.note r
  | enter _ fits ih =>
      rw [← List.append_assoc]
      exact ih.enter fits

theorem grows (h : Advances host merge c signals c') : Grows host merge c c' := by
  induction h with
  | refl => exact .refl
  | note _ _ ih => exact ih
  | enter _ fits ih => exact ih.tail (.intro fits)

end Advances

section Enter

variable (c : Census) (s : Sighting) (p : Option Descriptor) (kind : Kind)

theorem forest_enter : (c.enter s p kind).census.forest = c.forest.grow s.descriptor p := rfl

theorem descriptors_enter :
    (c.enter s p kind).census.descriptors = c.descriptors ++ [s.descriptor] :=
  Forest.order_grow c.forest s.descriptor p

theorem contains_enter (d : Descriptor) :
    (c.enter s p kind).census.contains d = (decide (s.descriptor = d) || c.contains d) :=
  Forest.contains_grow c.forest s.descriptor p d

theorem contains_enter_self : (c.enter s p kind).census.contains s.descriptor = true := by
  rw [contains_enter, decide_eq_true rfl, Bool.true_or]

theorem entryOf?_enter (d : Descriptor) :
    (c.enter s p kind).census.entryOf? d =
      if s.descriptor = d then some (.fresh s.info.className kind) else c.entryOf? d := by
  simp only [enter, entryOf?, Std.ExtTreeMap.getElem?_insert,
    Std.LawfulEqOrd.compare_eq_iff_eq]

theorem names_enter (n : String) :
    (c.enter s p kind).census.names[n]? =
      if kind.isDynamic = true ∧ s.info.className = n then some s.descriptor
      else c.names[n]? := by
  by_cases dynamic : kind.isDynamic = true
  · simp only [enter, dynamic, if_true, true_and, Std.ExtTreeMap.getElem?_insert,
      Std.LawfulEqOrd.compare_eq_iff_eq]
  · simp only [enter, dynamic, false_and, if_false, Bool.false_eq_true]

theorem isDynamic_enter (d : Descriptor) :
    (c.enter s p kind).census.isDynamic d =
      if s.descriptor = d then kind.isDynamic else c.isDynamic d := by
  rw [isDynamic, entryOf?_enter]
  by_cases here : s.descriptor = d
  · rw [if_pos here, if_pos here]
    rfl
  · rw [if_neg here, if_neg here]
    rfl

end Enter

theorem isDynamic_iff {c : Census} {d : Descriptor} :
    c.isDynamic d = true ↔ ∃ e, c.entryOf? d = some e ∧ e.kind.isDynamic = true := by
  rw [isDynamic, Option.any_eq_true]

theorem Coherent.not_contains_iff {c : Census} (coherent : c.Coherent) (d : Descriptor) :
    c.contains d = false ↔ c.entryOf? d = none := by
  rw [← Bool.not_eq_true, coherent.contains_iff, Option.eq_none_iff_forall_ne_some,
    not_exists]

theorem StandsFor.contains {c : Census} {host : Host} {merge : Bool} {d k : Descriptor}
    (h : c.StandsFor host merge d k) (coherent : c.Coherent) : c.contains k = true := by
  cases h with
  | self known => exact known
  | merged _ _ taken =>
      obtain ⟨e, entry, _⟩ := (coherent.names_iff _ _).mp taken
      exact (coherent.contains_iff k).mpr ⟨e, entry⟩

namespace Fits

variable {c : Census} {host : Host} {merge : Bool} {s : Sighting} {p : Option Descriptor}

theorem parent_contains (h : c.Fits host merge s p) (coherent : c.Coherent) :
    ∀ q, p = some q → c.contains q = true := by
  intro q hq
  cases extended : s.info.superclass with
  | none =>
      rw [h.root extended] at hq
      cases hq
  | some u =>
      obtain ⟨q', parent, stands⟩ := h.below u extended
      cases hq.symm.trans parent
      exact stands.contains coherent

theorem coherent (h : c.Fits host merge s p) (before : c.Coherent) :
    (c.enter s p (Kind.of s.info.readOnly merge)).census.Coherent where
  sound := before.sound.grow h.fresh (h.parent_contains before)
  contains_iff d := by
    rw [contains_enter, entryOf?_enter, Bool.or_eq_true, decide_eq_true_iff,
      before.contains_iff]
    by_cases here : s.descriptor = d
    · simp [here]
    · simp [here]
  names_iff n d := by
    have absent := (before.not_contains_iff s.descriptor).mp h.fresh
    rw [names_enter, entryOf?_enter]
    by_cases here : s.descriptor = d
    · subst here
      have old : c.names[n]? ≠ some s.descriptor := by
        intro taken
        obtain ⟨e, entry, _⟩ := (before.names_iff n _).mp taken
        rw [absent] at entry
        cases entry
      by_cases named : (Kind.of s.info.readOnly merge).isDynamic = true ∧ s.info.className = n
      · simp [named, Entry.fresh]
      · simp [named, old, Entry.fresh]
    · rw [if_neg here, ← before.names_iff n d]
      by_cases named : (Kind.of s.info.readOnly merge).isDynamic = true ∧ s.info.className = n
      · have free : c.names[n]? = none := named.2 ▸ h.vacant named.1
        simp [named, here, free]
      · rw [if_neg named]

theorem lineage_of_contains (h : c.Fits host merge s p) (before : c.Coherent) {d : Descriptor}
    (known : c.contains d = true) (kind : Kind) :
    (c.enter s p kind).census.forest.lineage d = c.forest.lineage d :=
  before.sound.lineage_grow_of_contains h.fresh (h.parent_contains before) known

theorem lineage_of_new (h : c.Fits host merge s p) (before : c.Coherent) (kind : Kind) :
    (c.enter s p kind).census.forest.lineage s.descriptor =
      s.descriptor :: p.elim [] c.forest.lineage := by
  have sound := before.sound.grow h.fresh (h.parent_contains before)
  have parent : (c.enter s p kind).census.forest.parent? s.descriptor = p := by
    rw [forest_enter, Forest.parent?_grow, if_pos rfl]
  cases p with
  | none => rw [Forest.lineage, Forest.ancestors, parent, Forest.upwards_none, Option.elim_none]
  | some q =>
      refine (sound.lineage_of_parent parent).trans ?_
      exact congrArg _ (h.lineage_of_contains before (h.parent_contains before q rfl) kind)

end Fits

theorem Enters.coherent {host : Host} {merge : Bool} {c c' : Census}
    (h : Enters host merge c c') (before : c.Coherent) : c'.Coherent := by
  cases h with
  | intro fits => exact fits.coherent before

/-- What holds of a coherent census and is kept by each class that is entered is kept
by any number of them. -/
theorem Grows.keeps {host : Host} {merge : Bool} {P : Census → Prop} {c c' : Census}
    (h : Grows host merge c c') (before : c.Coherent) (start : P c)
    (step : ∀ c₁ c₂, c₁.Coherent → P c₁ → Enters host merge c₁ c₂ → P c₂) :
    c'.Coherent ∧ P c' := by
  induction h with
  | refl => exact ⟨before, start⟩
  | tail _ enters ih => exact ⟨enters.coherent ih.1, step _ _ ih.1 ih.2 enters⟩

theorem Grows.coherent {host : Host} {merge : Bool} {c c' : Census}
    (h : Grows host merge c c') (before : c.Coherent) : c'.Coherent :=
  (h.keeps (P := fun _ => True) before trivial fun _ _ _ _ _ => trivial).1

theorem Enters.contains {host : Host} {merge : Bool} {c c' : Census}
    (h : Enters host merge c c') {d : Descriptor} (known : c.contains d = true) :
    c'.contains d = true := by
  cases h with
  | intro => rw [contains_enter, known, Bool.or_true]

theorem Enters.entryOf? {host : Host} {merge : Bool} {c c' : Census} (before : c.Coherent)
    (h : Enters host merge c c') {d : Descriptor} {e : Entry} (entry : c.entryOf? d = some e) :
    c'.entryOf? d = some e := by
  cases h with
  | @intro s p fits =>
      rw [entryOf?_enter, if_neg, entry]
      intro here
      rw [← here, (before.not_contains_iff s.descriptor).mp fits.fresh] at entry
      cases entry

/-- A name that stands for a class goes on standing for it. -/
theorem Enters.names {host : Host} {merge : Bool} {c c' : Census}
    (h : Enters host merge c c') {n : String} {d : Descriptor} (taken : c.names[n]? = some d) :
    c'.names[n]? = some d := by
  cases h with
  | intro fits =>
      rw [names_enter, if_neg, taken]
      rintro ⟨dynamic, rfl⟩
      rw [fits.vacant dynamic] at taken
      cases taken

theorem Grows.contains {host : Host} {merge : Bool} {c c' : Census}
    (h : Grows host merge c c') {d : Descriptor} (known : c.contains d = true) :
    c'.contains d = true := by
  induction h with
  | refl => exact known
  | tail _ enters ih => exact enters.contains ih

theorem Grows.entryOf? {host : Host} {merge : Bool} {c c' : Census} (before : c.Coherent)
    (h : Grows host merge c c') {d : Descriptor} {e : Entry} (entry : c.entryOf? d = some e) :
    c'.entryOf? d = some e :=
  (h.keeps before entry fun _ _ coherent held enters => enters.entryOf? coherent held).2

theorem Grows.names {host : Host} {merge : Bool} {c c' : Census} (h : Grows host merge c c')
    {n : String} {d : Descriptor} (taken : c.names[n]? = some d) : c'.names[n]? = some d := by
  induction h with
  | refl => exact taken
  | tail _ enters ih => exact enters.names ih

theorem Grows.entryOf?_of_new {host : Host} {merge : Bool} {c c' : Census}
    (h : Grows host merge c c') (before : c.Coherent) {d : Descriptor}
    (fresh : c.contains d = false) (known : c'.contains d = true) :
    ∃ info, host.describe d = some info ∧
      c'.entryOf? d = some (.fresh info.className (Kind.of info.readOnly merge)) := by
  induction h with
  | refl =>
      rw [fresh] at known
      cases known
  | @tail c₁ c₂ grown enters ih =>
      have between := Grows.coherent grown before
      cases old : c₁.contains d with
      | true =>
          obtain ⟨info, described, entry⟩ := ih old
          exact ⟨info, described, enters.entryOf? between entry⟩
      | false =>
          cases enters with
          | @intro s p fits =>
              rw [contains_enter, old, Bool.or_false, decide_eq_true_iff] at known
              subst known
              exact ⟨s.info, fits.described, by rw [entryOf?_enter, if_pos rfl]⟩

theorem Grows.eq_of_contains {host : Host} {merge : Bool} {c c' : Census}
    (h : Grows host merge c c') (covers : ∀ d, c'.contains d = true → c.contains d = true) :
    c' = c := by
  cases ReflTransGen.cases_head h with
  | inl same => exact same.symm
  | inr later =>
      obtain ⟨between, enters, rest⟩ := later
      cases enters with
      | @intro s p fits =>
          have known := covers s.descriptor (Grows.contains rest (contains_enter_self ..))
          rw [fits.fresh] at known
          cases known

section Untouched

variable {host : Host} {merge : Bool} {c c' : Census} (h : Grows host merge c c')

include h

/-- What no class that is entered can touch stays as it is. -/
theorem Grows.eq_of_enter {α : Type*} {f : Census → α}
    (enter : ∀ c s p kind, f (Census.enter c s p kind).census = f c) : f c' = f c := by
  induction h with
  | refl => rfl
  | tail _ enters ih =>
      cases enters with
      | intro => rw [enter, ih]

theorem Grows.settings : c'.settings = c.settings :=
  h.eq_of_enter fun _ _ _ _ => rfl

theorem Grows.ownership : c'.ownership = c.ownership :=
  h.eq_of_enter fun _ _ _ _ => rfl

theorem Grows.base : c'.base = c.base :=
  h.eq_of_enter fun _ _ _ _ => rfl

theorem Grows.observers : c'.observers = c.observers :=
  h.eq_of_enter fun _ _ _ _ => rfl

end Untouched

/-- To settle one more class is to settle it below what stands for the one before. -/
theorem settleAll_concat (merge : Bool) (c : Census) (p : Option Descriptor)
    (last last' : Descriptor) (chain : List Sighting) (s : Sighting)
    (linked : chain = [] → p = some last') :
    settleAll merge c p last (chain ++ [s]) =
      let o := settleAll merge c p last' chain
      let here := o.census.settle merge s (some o.answer)
      ⟨here.answer, here.census, o.signals ++ here.signals⟩ := by
  induction chain generalizing c p last last' with
  | nil => simp [settleAll_cons, settleAll_nil, linked rfl]
  | cons t chain ih =>
      rw [List.cons_append, settleAll_cons, settleAll_cons,
        ih _ _ _ (c.settle merge t p).answer fun _ => rfl]
      simp only [List.append_assoc]

/-- On the way up from `u` a class that extends `u` is settled below what stands for
`u`. -/
theorem settleAll_up {known : Descriptor → Bool} {describe : Descriptor → Option ClassInfo}
    {u : Descriptor} {anchor : Option Descriptor} {chain : List Sighting}
    (above : Ascent.Climbs known describe u anchor chain) (merge : Bool) (c : Census)
    (last : Descriptor) (s : Sighting) :
    settleAll merge c anchor last (chain ++ [s]) =
      let o := settleAll merge c anchor u chain
      let here := o.census.settle merge s (some o.answer)
      ⟨here.answer, here.census, o.signals ++ here.signals⟩ := by
  refine settleAll_concat merge c anchor last u chain s ?_
  rintro rfl
  exact above.anchor_of_nil

/-- Settling a class enters it, unless it may be merged and its name is taken. -/
theorem settle_cases (c : Census) (merge : Bool) (s : Sighting) (p : Option Descriptor) :
    (∃ k, (Kind.of s.info.readOnly merge).isDynamic = true ∧
        c.names[s.info.className]? = some k ∧
        c.settle merge s p = ⟨k, c, [.log (.merging s.descriptor k s.info.className)]⟩) ∨
      (((Kind.of s.info.readOnly merge).isDynamic = true →
          c.names[s.info.className]? = none) ∧
        c.settle merge s p = c.enter s p (Kind.of s.info.readOnly merge)) := by
  cases mergeable : (Kind.of s.info.readOnly merge).isDynamic with
  | false => exact .inr ⟨fun h => absurd h Bool.false_ne_true, by simp only [settle, mergeable]⟩
  | true =>
      cases taken : c.names[s.info.className]? with
      | none => exact .inr ⟨fun _ => rfl, by simp only [settle, mergeable, taken]⟩
      | some k => exact .inl ⟨k, rfl, rfl, by simp only [settle, mergeable, taken]⟩

/-- A class that is not on record is entered or merged. Either way something stands
for it. -/
theorem settle_advances {c : Census} {host : Host} (merge : Bool) {s : Sighting}
    {p : Option Descriptor} (fresh : c.contains s.descriptor = false)
    (described : host.describe s.descriptor = some s.info)
    (root : s.info.superclass = none → p = none)
    (below : ∀ u, s.info.superclass = some u → ∃ q, p = some q ∧ c.StandsFor host merge u q)
    (ends : Ascent.Ends c.contains host.describe s.descriptor) :
    Advances host merge c (c.settle merge s p).signals (c.settle merge s p).census ∧
      (c.settle merge s p).census.StandsFor host merge s.descriptor
        (c.settle merge s p).answer ∧
      ∀ d, (c.settle merge s p).census.contains d = true →
        c.contains d = true ∨ d = s.descriptor := by
  rcases c.settle_cases merge s p with ⟨k, mergeable, taken, settled⟩ | ⟨vacant, settled⟩
  · rw [settled]
    exact ⟨Advances.refl.note _, .merged described mergeable taken ends, fun d hd => .inl hd⟩
  · rw [settled]
    refine ⟨Advances.refl.enter ⟨fresh, described, vacant, root, below⟩,
      .self (contains_enter_self ..), ?_⟩
    intro d hd
    rw [contains_enter, Bool.or_eq_true, decide_eq_true_iff] at hd
    exact hd.symm.imp_right Eq.symm

/-- A class is not on record yet where all that came since is above it. -/
theorem not_contains_of_above {c c' : Census} {host : Host} {d u : Descriptor} {info : ClassInfo}
    {anchor : Option Descriptor} {chain : List Sighting} (unknown : c.contains d = false)
    (described : host.describe d = some info) (next : info.superclass = some u)
    (above : Ascent.Climbs c.contains host.describe u anchor chain)
    (only : ∀ e, c'.contains e = true → c.contains e = true ∨ e ∈ chain.map Sighting.descriptor) :
    c'.contains d = false := by
  rw [← Bool.not_eq_true]
  intro known
  rcases only d known with old | again
  · rw [unknown] at old
    cases old
  · exact Ascent.Climbs.not_mem_above unknown described next above again

/-- The way up from a class is settled from the top down, and what it starts from
stands for the class in the end. -/
theorem settleAll_advances {c : Census} {host : Host} (merge : Bool) {d : Descriptor}
    {anchor : Option Descriptor} {chain : List Sighting}
    (way : Ascent.Climbs c.contains host.describe d anchor chain) :
    Advances host merge c (settleAll merge c anchor d chain).signals
        (settleAll merge c anchor d chain).census ∧
      (settleAll merge c anchor d chain).census.StandsFor host merge d
        (settleAll merge c anchor d chain).answer ∧
      ∀ e, (settleAll merge c anchor d chain).census.contains e = true →
        c.contains e = true ∨ e ∈ chain.map Sighting.descriptor := by
  induction way with
  | anchored here =>
      rw [settleAll_nil]
      exact ⟨.refl, .self here, fun e he => .inl he⟩
  | @top d info unknown described last =>
      have settled := settle_advances merge (s := ⟨d, info⟩) (p := none) unknown described
        (fun _ => rfl) (fun u hu => by cases last.symm.trans hu)
        ⟨_, _, .top unknown described last⟩
      rw [settleAll_cons, settleAll_nil]
      simp only [List.append_nil]
      exact ⟨settled.1, settled.2.1, fun e he => (settled.2.2 e he).imp_right
        fun here => List.mem_singleton.mpr here⟩
  | @up d u info anchor chain unknown described next above ih =>
      obtain ⟨advances, stands, only⟩ := ih
      rw [settleAll_up above]
      generalize settleAll merge c anchor u chain = o at advances stands only
      have fresh : o.census.contains d = false :=
        not_contains_of_above unknown described next above only
      have settled := settle_advances merge (s := ⟨d, info⟩) (p := some o.answer) fresh
        described (fun last => by cases next.symm.trans last)
        (fun u' hu' => ⟨o.answer, rfl, by
          cases next.symm.trans hu'
          exact stands⟩)
        ((Ascent.Climbs.up unknown described next above).ends_of_imp fun _ known =>
          advances.grows.contains known)
      refine ⟨advances.trans settled.1, settled.2.1, fun e he => ?_⟩
      rw [List.map_append, List.map_singleton, List.mem_append, List.mem_singleton]
      rcases settled.2.2 e he with old | here
      · exact (only e old).imp_right .inl
      · exact .inr (.inr here)

/-- A registration succeeds where the way up ends within the limit, and settles it. -/
theorem register_eq_ok_iff {c : Census} {host : Host} {d : Descriptor} {merge : Bool}
    {o : Outcome Descriptor} :
    c.register host d merge = .ok o ↔
      ∃ anchor chain, Ascent.Climbs c.contains host.describe d anchor chain ∧
        chain.length ≤ c.settings.depthLimit ∧ o = settleAll merge c anchor d chain := by
  rw [register]
  constructor
  · intro h
    cases ascent : Ascent.of c.contains host c.settings.depthLimit d with
    | error e =>
        rw [ascent] at h
        cases h
    | ok a =>
        rw [ascent] at h
        cases h
        obtain ⟨way, short⟩ := Ascent.of_eq_ok_iff.mp ascent
        exact ⟨a.anchor, a.chain, way, short, rfl⟩
  · rintro ⟨anchor, chain, way, short, rfl⟩
    have ascent : Ascent.of c.contains host c.settings.depthLimit d = .ok ⟨anchor, chain⟩ :=
      Ascent.of_eq_ok_iff.mpr ⟨way, short⟩
    rw [ascent]
    rfl

theorem eq_tooDeep_of_register {c : Census} {host : Host} {d : Descriptor} {merge : Bool}
    {e : AscentError} (failed : c.register host d merge = .error e)
    (ends : Ascent.Ends c.contains host.describe d) : e = .tooDeep d c.settings.depthLimit := by
  rw [register] at failed
  cases ascent : Ascent.of c.contains host c.settings.depthLimit d with
  | error e' =>
      rw [ascent] at failed
      cases failed
      exact Ascent.eq_tooDeep_of_error ascent ends
  | ok a =>
      rw [ascent] at failed
      cases failed

/-- A registration that succeeds enters classes, no more of them than the limit has room
for, and its answer stands for the class that was asked for. -/
theorem register_advances {c : Census} {host : Host} {d : Descriptor} {merge : Bool}
    {o : Outcome Descriptor} (h : c.register host d merge = .ok o) :
    Advances host merge c o.signals o.census ∧ o.census.StandsFor host merge d o.answer ∧
      ∃ news : List Descriptor, news.length ≤ c.settings.depthLimit ∧
        ∀ e, o.census.contains e = true → c.contains e = true ∨ e ∈ news := by
  obtain ⟨anchor, chain, way, short, rfl⟩ := register_eq_ok_iff.mp h
  obtain ⟨advances, stands, only⟩ := settleAll_advances merge way
  refine ⟨advances, stands, chain.map Sighting.descriptor, ?_, only⟩
  rw [List.length_map]
  exact short

theorem register_grows {c : Census} {host : Host} {d : Descriptor} {merge : Bool}
    {o : Outcome Descriptor} (h : c.register host d merge = .ok o) :
    Grows host merge c o.census ∧ o.census.StandsFor host merge d o.answer :=
  ⟨(register_advances h).1.grows, (register_advances h).2.1⟩

theorem not_contains_of_settle {c : Census} {merge : Bool} {s : Sighting}
    {p : Option Descriptor} (fresh : c.contains s.descriptor = false)
    (other : (c.settle merge s p).answer ≠ s.descriptor) :
    (c.settle merge s p).census.contains s.descriptor = false := by
  rcases c.settle_cases merge s p with ⟨k, _, _, settled⟩ | ⟨_, settled⟩
  · rw [settled]
    exact fresh
  · rw [settled] at other
    exact absurd rfl other

/-- Where a registration is answered with another class, the class that was asked for is
still not on record. -/
theorem not_contains_of_register {c : Census} {host : Host} {d : Descriptor} {merge : Bool}
    {o : Outcome Descriptor} (h : c.register host d merge = .ok o) (other : o.answer ≠ d) :
    o.census.contains d = false := by
  obtain ⟨anchor, chain, way, -, rfl⟩ := register_eq_ok_iff.mp h
  cases way with
  | anchored => exact absurd rfl other
  | top unknown => exact not_contains_of_settle unknown other
  | @up _ u info _ chain unknown described next above =>
      rw [settleAll_up above] at other ⊢
      have only := (settleAll_advances merge above).2.2
      exact not_contains_of_settle
        (not_contains_of_above unknown described next above only) other

theorem attempt_advances (c : Census) (host : Host) (d : Descriptor)
    (skipped : AscentError → LogRecord) :
    Advances host false c (c.attempt host d skipped).2 (c.attempt host d skipped).1 := by
  rw [attempt]
  split
  · next o registered => exact (register_advances registered).1
  · exact Advances.refl.note _

theorem attemptAll_advances (host : Host) (c : Census)
    (targets : List (Descriptor × (AscentError → LogRecord))) :
    Advances host false c (attemptAll host c targets).2 (attemptAll host c targets).1 := by
  induction targets generalizing c with
  | nil => exact .refl
  | cons target targets ih => exact (attempt_advances c host target.1 target.2).trans (ih _)

/-- A survey enters classes and makes records and does nothing else, also where it fails
halfway. -/
theorem survey_advances (c : Census) (host : Host) :
    Advances host false c (c.survey host).signals (c.survey host).census := by
  have catalog := attemptAll_advances host c (catalogTargets host)
  simp only [survey]
  split
  · exact catalog
  · next o registered =>
    exact ((catalog.trans (register_advances registered).1).trans
      (attemptAll_advances host _ _)).note _

theorem coherent_blank (settings : Settings) (owner : Thread) (base : Descriptor) :
    (blank settings owner base).Coherent where
  sound := Forest.sound_empty
  contains_iff d := by
    simp [blank, contains, Forest.contains, Forest.empty, entryOf?]
  names_iff n d := by
    simp [blank, entryOf?]

/-- A census that was opened is blank, or it is what a survey of a blank one left. -/
theorem establish_eq {host : Host} {settings : Settings} {owner : Thread} {c : Census}
    (h : (establish host settings owner).1 = .ok c) :
    c = if settings.surveyOnOpening = true then
        ((blank settings owner host.base).survey host).census
      else blank settings owner host.base := by
  simp only [establish] at h
  split at h
  · next surveyed =>
    rw [if_pos surveyed]
    generalize (blank settings owner host.base).survey host = o at h
    obtain ⟨answer, census, signals⟩ := o
    cases answer with
    | error e => cases h
    | ok n =>
        cases h
        rfl
  · next quiet =>
    rw [if_neg quiet]
    cases h
    rfl

theorem establish_grows {host : Host} {settings : Settings} {owner : Thread} {c : Census}
    (h : (establish host settings owner).1 = .ok c) :
    Grows host false (blank settings owner host.base) c := by
  rw [establish_eq h]
  split
  · exact (survey_advances (blank settings owner host.base) host).grows
  · exact .refl

end Census

end ClassCensus
