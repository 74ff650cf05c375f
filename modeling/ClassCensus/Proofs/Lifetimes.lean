import ClassCensus.Census.Lifetimes
import ClassCensus.Proofs.Registration
import ClassCensus.Proofs.Roster

/-!
# What a construction and a destruction do

`receive` is what a construction does once the class of the object is on record, and
`dismiss` is what a destruction does to a census that counts the object. Each is
told by its parts: the entries along the lineage are counted, the roster is
updated, and the rest of the census is left alone.

A lineage has no repetitions, so each entry on it is counted once. It is not
changed by the counting, which is why the walk can be looked up beforehand.

`Recounts` is what is left of both for whoever asks about the classes only: the same
classes in the same places, with other counts.
-/

namespace ClassCensus

/-- `e'` goes on from `e`: it is the same class, and no total has become less. -/
structure Entry.Precedes (e e' : Entry) : Prop where
  className : e'.className = e.className
  kind : e'.kind = e.kind
  own_total : e.own.total ≤ e'.own.total
  inclusive_total : e.inclusive.total ≤ e'.inclusive.total

namespace Entry.Precedes

theorem refl (e : Entry) : e.Precedes e :=
  ⟨rfl, rfl, Nat.le_refl _, Nat.le_refl _⟩

theorem trans {e e' e'' : Entry} (h : e.Precedes e') (h' : e'.Precedes e'') : e.Precedes e'' :=
  ⟨h'.className.trans h.className, h'.kind.trans h.kind, h.own_total.trans h'.own_total,
    h.inclusive_total.trans h'.inclusive_total⟩

end Entry.Precedes

namespace Census

def receive (c : Census) (r : Report) (k : Descriptor) : Census :=
  (sweep .gainInclusive (c.enroll r k) (c.forest.lineage k)).1

def withdraw (c : Census) (o : Object) (k : Descriptor) : Census :=
  let discounted := ({ c with roster := c.roster.untrack o } : Census).adjust k .loseOwn
  if c.isDynamic k then
    { discounted with roster := discounted.roster.strike o k }
  else
    discounted

def dismiss (c : Census) (o : Object) (k : Descriptor) : Census :=
  (sweep .loseInclusive (c.withdraw o k) (c.forest.lineage k)).1

def receiveSignals (c : Census) (r : Report) (k : Descriptor) : List Signal :=
  (sweep .gainInclusive (c.enroll r k) (c.forest.lineage k)).2

def dismissSignals (c : Census) (o : Object) (k : Descriptor) : List Signal :=
  (sweep .loseInclusive (c.withdraw o k) (c.forest.lineage k)).2

/-- What counting an object of `k` makes of the entry of `d`, where `l` is the way up
from `k`. -/
def recount (own inclusive : Entry → Entry) (l : List Descriptor) (k d : Descriptor)
    (e : Entry) : Entry :=
  (if d ∈ l then inclusive else id) ((if k = d then own else id) e)

section Recount

variable (l : List Descriptor) (k d : Descriptor) (e : Entry)

theorem recount_gain :
    recount .gainOwn .gainInclusive l k d e =
      ⟨e.className, e.kind, if k = d then e.own.gain else e.own,
        if d ∈ l then e.inclusive.gain else e.inclusive, if d ∈ l then false else e.stale⟩ := by
  unfold recount
  split_ifs <;> rfl

theorem recount_lose :
    recount .loseOwn .loseInclusive l k d e =
      ⟨e.className, e.kind, if k = d then e.own.lose else e.own,
        if d ∈ l then e.inclusive.lose else e.inclusive,
        if d ∈ l then e.stale || (e.inclusive.lose.alive == 0 && !e.kind.isStatic)
        else e.stale⟩ := by
  unfold recount
  split_ifs <;> rfl

theorem precedes_recount_gain : e.Precedes (recount .gainOwn .gainInclusive l k d e) := by
  have more (t : Tally) (p : Prop) [Decidable p] : t.total ≤ (if p then t.gain else t).total := by
    split
    · exact Nat.le_succ _
    · exact Nat.le_refl _
  rw [recount_gain]
  exact ⟨rfl, rfl, more e.own _, more e.inclusive _⟩

theorem precedes_recount_lose : e.Precedes (recount .loseOwn .loseInclusive l k d e) := by
  have same (t : Tally) (p : Prop) [Decidable p] : t.total ≤ (if p then t.lose else t).total := by
    split <;> exact Nat.le_refl _
  rw [recount_lose]
  exact ⟨rfl, rfl, same e.own _, same e.inclusive _⟩

end Recount

/-- The record in `c'` is that in `c`, with other counts. -/
structure Recounts (c c' : Census) : Prop where
  base : c'.base = c.base
  forest : c'.forest = c.forest
  names : c'.names = c.names
  entry : ∀ d e, c.entryOf? d = some e → ∃ e', c'.entryOf? d = some e' ∧ e.Precedes e'
  origin : ∀ d e', c'.entryOf? d = some e' → ∃ e, c.entryOf? d = some e ∧ e.Precedes e'

namespace Recounts

variable {c c' : Census}

theorem contains (recounts : c.Recounts c') : c'.contains = c.contains := by
  funext d
  rw [Census.contains, Census.contains, recounts.forest]

theorem of_map (base : c'.base = c.base) (forest : c'.forest = c.forest)
    (names : c'.names = c.names) {f : Descriptor → Entry → Entry}
    (entries : ∀ d, c'.entryOf? d = (c.entryOf? d).map (f d))
    (each : ∀ d (e : Entry), e.Precedes (f d e)) : c.Recounts c' where
  base := base
  forest := forest
  names := names
  entry d e entry := by
    refine ⟨f d e, ?_, each d e⟩
    rw [entries, entry, Option.map_some]
  origin d e' entry := by
    rw [entries, Option.map_eq_some_iff] at entry
    obtain ⟨e, entry, rfl⟩ := entry
    exact ⟨e, entry, each d e⟩

end Recounts

theorem isDynamic_of_map {c c' : Census} {d : Descriptor} {f : Entry → Entry}
    (entries : c'.entryOf? d = (c.entryOf? d).map f) (kind : ∀ e, (f e).kind = e.kind) :
    c'.isDynamic d = c.isDynamic d := by
  rw [isDynamic, isDynamic, entries]
  cases c.entryOf? d with
  | none => rfl
  | some e => simp only [Option.map_some, Option.any_some, kind]

theorem entryOf?_sweep {f : Entry → Entry} {c : Census} {ds : List Descriptor}
    (distinct : ds.Nodup) (e : Descriptor) :
    (sweep f c ds).1.entryOf? e = if e ∈ ds then (c.entryOf? e).map f else c.entryOf? e := by
  induction ds generalizing c with
  | nil => simp
  | cons d ds ih =>
      rw [List.nodup_cons] at distinct
      rw [sweep_cons, ih distinct.2, entryOf?_adjust]
      by_cases here : d = e
      · subst here
        simp [distinct.1]
      · have there : e ≠ d := fun h => here h.symm
        simp [here, there]

/-- An entry is counted once for its own class and once on the way up. -/
theorem entryOf?_sweep_of_adjusted {own inclusive : Entry → Entry} {c c₁ : Census}
    {k : Descriptor} (adjusted : ∀ d, c₁.entryOf? d = (c.adjust k own).entryOf? d)
    {ds : List Descriptor} (distinct : ds.Nodup) (d : Descriptor) :
    (sweep inclusive c₁ ds).1.entryOf? d =
      (c.entryOf? d).map (recount own inclusive ds k d) := by
  rw [entryOf?_sweep distinct, adjusted, entryOf?_adjust]
  unfold recount
  by_cases on : d ∈ ds <;> by_cases here : k = d <;>
    simp [on, here, Option.map_map, Function.comp_def]

section Enroll

variable (c : Census) (r : Report) (o : Object) (k : Descriptor)

theorem enroll_eq :
    c.enroll r k =
      { c.adjust k .gainOwn with
        roster := if c.isDynamic k then
            (c.roster.track r.object k).enlist r.object r.descriptor k
          else c.roster.track r.object k } := by
  have kinds : ((({ c with roster := c.roster.track r.object k } : Census).adjust k
      .gainOwn).entryOf? k).any (fun e => e.kind.isDynamic) = c.isDynamic k := by
    rw [entryOf?_adjust, if_pos rfl, isDynamic]
    change Option.any _ (Option.map _ (c.entryOf? k)) = _
    cases c.entryOf? k <;> rfl
  unfold enroll
  simp only [kinds]
  cases c.isDynamic k <;> rfl

theorem forest_enroll : (c.enroll r k).forest = c.forest := by
  rw [enroll_eq]
  rfl

theorem withdraw_eq :
    c.withdraw o k =
      { c.adjust k .loseOwn with
        roster := if c.isDynamic k then (c.roster.untrack o).strike o k
          else c.roster.untrack o } := by
  unfold withdraw
  cases c.isDynamic k <;> rfl

theorem entryOf?_enroll (d : Descriptor) :
    (c.enroll r k).entryOf? d = (c.adjust k .gainOwn).entryOf? d := by
  rw [enroll_eq]
  rfl

theorem entryOf?_withdraw (d : Descriptor) :
    (c.withdraw o k).entryOf? d = (c.adjust k .loseOwn).entryOf? d := by
  rw [withdraw_eq]
  rfl

theorem receive_eq :
    c.receive r k =
      { c with
        entries := (c.receive r k).entries
        roster := if c.isDynamic k then
            (c.roster.track r.object k).enlist r.object r.descriptor k
          else c.roster.track r.object k } := by
  rw [receive, sweep_fst]
  generalize (sweep Entry.gainInclusive (c.enroll r k) (c.forest.lineage k)).1.entries = entries
  rw [enroll_eq]
  rfl

theorem dismiss_eq :
    c.dismiss o k =
      { c with
        entries := (c.dismiss o k).entries
        roster := if c.isDynamic k then (c.roster.untrack o).strike o k
          else c.roster.untrack o } := by
  rw [dismiss, sweep_fst]
  generalize (sweep Entry.loseInclusive (c.withdraw o k) (c.forest.lineage k)).1.entries = entries
  rw [withdraw_eq]
  rfl

theorem forest_receive : (c.receive r k).forest = c.forest := by
  rw [receive_eq]

theorem forest_dismiss : (c.dismiss o k).forest = c.forest := by
  rw [dismiss_eq]

theorem names_receive : (c.receive r k).names = c.names := by
  rw [receive_eq]

theorem names_dismiss : (c.dismiss o k).names = c.names := by
  rw [dismiss_eq]

theorem settings_receive : (c.receive r k).settings = c.settings := by
  rw [receive_eq]

theorem settings_dismiss : (c.dismiss o k).settings = c.settings := by
  rw [dismiss_eq]

theorem roster_receive :
    (c.receive r k).roster =
      if c.isDynamic k then (c.roster.track r.object k).enlist r.object r.descriptor k
      else c.roster.track r.object k := by
  rw [receive_eq]

theorem roster_dismiss :
    (c.dismiss o k).roster =
      if c.isDynamic k then (c.roster.untrack o).strike o k else c.roster.untrack o := by
  rw [dismiss_eq]

theorem classOf?_receive (p : Object) :
    (c.receive r k).roster.classOf? p =
      if r.object = p then some k else c.roster.classOf? p := by
  rw [roster_receive]
  cases c.isDynamic k with
  | false => exact Roster.classOf?_track ..
  | true => exact Roster.classOf?_track ..

theorem classOf?_dismiss (p : Object) :
    (c.dismiss o k).roster.classOf? p = if o = p then none else c.roster.classOf? p := by
  rw [roster_dismiss]
  cases c.isDynamic k with
  | false => exact Roster.classOf?_untrack ..
  | true =>
      rw [if_pos rfl, Roster.classOf?, Roster.tracked_strike]
      exact Roster.classOf?_untrack ..

theorem under_receive (new : c.roster.classOf? r.object = none) (d : Descriptor) :
    (c.receive r k).roster.under d =
      if k = d then insert r.object (c.roster.under d) else c.roster.under d := by
  rw [← Roster.under_track c.roster r.object k d new]
  refine Roster.under_eq_of_classOf?_eq (fun p => ?_) d
  rw [classOf?_receive, Roster.classOf?_track]

theorem under_dismiss (d : Descriptor) :
    (c.dismiss o k).roster.under d = (c.roster.under d).erase o := by
  rw [← Roster.under_untrack c.roster o d]
  refine Roster.under_eq_of_classOf?_eq (fun p => ?_) d
  rw [classOf?_dismiss, Roster.classOf?_untrack]

theorem pool?_receive (k' : Descriptor) :
    (c.receive r k).roster.pool? k' =
      if c.isDynamic k = true ∧ k = k' then
        some (((c.roster.pool? k).getD ∅).insert r.descriptor)
      else c.roster.pool? k' := by
  rw [roster_receive]
  cases c.isDynamic k with
  | false => simp [Roster.pool?, Roster.track]
  | true =>
      simp only [if_true, true_and]
      exact Roster.pool?_enlist ..

theorem reports_receive (p : Object) :
    (c.receive r k).roster.reports[p]? =
      if c.isDynamic k = true ∧ r.object = p then some r.descriptor
      else c.roster.reports[p]? := by
  rw [roster_receive]
  cases c.isDynamic k with
  | false => simp [Roster.track]
  | true =>
      simp only [if_true, true_and]
      exact Roster.reports_enlist ..

theorem aliases_receive (a : Descriptor) :
    (c.receive r k).roster.aliases[a]? =
      if c.isDynamic k = true ∧ r.descriptor = a then some k else c.roster.aliases[a]? := by
  rw [roster_receive]
  cases c.isDynamic k with
  | false => simp [Roster.track]
  | true =>
      simp only [if_true, true_and]
      exact Roster.aliases_enlist ..

theorem alias_of_dismiss {a k' : Descriptor}
    (led : (c.dismiss o k).roster.aliases[a]? = some k') : c.roster.aliases[a]? = some k' := by
  rw [roster_dismiss] at led
  cases dynamic : c.isDynamic k with
  | false =>
      rw [dynamic] at led
      exact led
  | true =>
      rw [dynamic] at led
      exact Roster.alias_of_strike (r := c.roster.untrack o) led

section Reported

variable {c o k} {d : Descriptor} (reported : c.isDynamic k = true → c.roster.reports[o]? = some d)

include reported

theorem pool?_dismiss (k' : Descriptor) :
    (c.dismiss o k).roster.pool? k' =
      if c.isDynamic k = true ∧ k = k' then some (((c.roster.pool? k).getD ∅).erase d)
      else c.roster.pool? k' := by
  rw [roster_dismiss]
  cases dynamic : c.isDynamic k with
  | false => simp [Roster.pool?, Roster.untrack]
  | true =>
      simp only [if_true, true_and]
      exact Roster.pool?_strike _ _ (reported dynamic)

theorem reports_dismiss (p : Object) :
    (c.dismiss o k).roster.reports[p]? =
      if c.isDynamic k = true ∧ o = p then none else c.roster.reports[p]? := by
  rw [roster_dismiss]
  cases dynamic : c.isDynamic k with
  | false => simp [Roster.untrack]
  | true =>
      simp only [if_true, true_and]
      exact Roster.reports_strike _ _ (reported dynamic)

theorem aliases_dismiss (a : Descriptor) :
    (c.dismiss o k).roster.aliases[a]? =
      if c.isDynamic k = true ∧ d = a ∧
          (((c.roster.pool? k).getD ∅).erase d).contains d = false then none
      else c.roster.aliases[a]? := by
  rw [roster_dismiss]
  cases dynamic : c.isDynamic k with
  | false => simp [Roster.untrack]
  | true =>
      simp only [if_true, true_and]
      exact Roster.aliases_strike _ _ (reported dynamic)

end Reported

variable {c} (sound : c.forest.Sound)

include sound

theorem entryOf?_receive (d : Descriptor) :
    (c.receive r k).entryOf? d =
      (c.entryOf? d).map (recount .gainOwn .gainInclusive (c.forest.lineage k) k d) :=
  entryOf?_sweep_of_adjusted (entryOf?_enroll c r k) (sound.lineage_nodup k) d

theorem entryOf?_dismiss (d : Descriptor) :
    (c.dismiss o k).entryOf? d =
      (c.entryOf? d).map (recount .loseOwn .loseInclusive (c.forest.lineage k) k d) :=
  entryOf?_sweep_of_adjusted (entryOf?_withdraw c o k) (sound.lineage_nodup k) d

theorem recounts_receive : c.Recounts (c.receive r k) := by
  refine .of_map ?_ (forest_receive c r k) (names_receive c r k) (entryOf?_receive r k sound)
    (precedes_recount_gain _ k)
  rw [receive_eq]

theorem recounts_dismiss : c.Recounts (c.dismiss o k) := by
  refine .of_map ?_ (forest_dismiss c o k) (names_dismiss c o k) (entryOf?_dismiss o k sound)
    (precedes_recount_lose _ k)
  rw [dismiss_eq]

theorem isDynamic_receive (d : Descriptor) : (c.receive r k).isDynamic d = c.isDynamic d :=
  isDynamic_of_map (entryOf?_receive r k sound d) fun e => by rw [recount_gain]

theorem isDynamic_dismiss (d : Descriptor) : (c.dismiss o k).isDynamic d = c.isDynamic d :=
  isDynamic_of_map (entryOf?_dismiss o k sound d) fun e => by rw [recount_lose]

end Enroll

/-- The construction of a new object is a registration, after which the object is
counted. -/
theorem construct_of_new {c : Census} {r : Report} (new : c.roster.classOf? r.object = none)
    (host : Host) :
    c.construct host r = (c.register host r.descriptor r.generated).map fun o =>
      ⟨o.answer, o.census.receive r o.answer, o.signals ++ o.census.receiveSignals r o.answer⟩ := by
  simp only [construct, new, receive, receiveSignals, forest_enroll]

/-- A destruction of an object that is counted alive succeeds and discounts it. -/
theorem destroy_eq_of_counted {c : Census} {o : Object} {k : Descriptor} {e : Entry}
    (held : c.roster.classOf? o = some k) (entry : c.entryOf? k = some e)
    (alive : e.own.alive ≠ 0) :
    c.destroy o = ⟨.released, c.dismiss o k, c.dismissSignals o k⟩ := by
  have kind : c.isDynamic k = e.kind.isDynamic := by
    rw [isDynamic, entry]
    rfl
  have released : ({ c with roster := c.roster.untrack o } : Census).entryOf? k = some e := entry
  simp only [destroy, held, released, alive, if_false, dismiss, dismissSignals, withdraw, kind]
  cases e.kind.isDynamic <;> rfl

theorem destroy_of_counted {c : Census} {o : Object} {k : Descriptor} {e : Entry}
    (held : c.roster.classOf? o = some k) (entry : c.entryOf? k = some e)
    (alive : e.own.alive ≠ 0) :
    (c.destroy o).answer = .released ∧ (c.destroy o).census = c.dismiss o k := by
  rw [destroy_eq_of_counted held entry alive]
  exact ⟨rfl, rfl⟩

end Census

end ClassCensus
