import ClassCensus.Census.Registration

/-!
# Lifetimes

Counting objects as they come and go. An object is counted once at the class it has, and
then at this class and at every class above it. The way up is the lineage of the class
at that moment, which the counting itself does not change.

An object that is tracked already is not counted twice, and one that is not tracked
cannot go. The third end of a destruction, an object tracked under a class that counts
no object alive, is told apart from the others so that it can be shown never to come up.
-/

namespace ClassCensus

/-- What is reported of a new object: its identity, the class it says it has, and
whether that is one generated at run time in place of its proper class. -/
structure Report where
  object : Object
  descriptor : Descriptor
  generated : Bool
deriving DecidableEq

inductive Destruction
  /-- The object was tracked and is no longer. -/
  | released
  /-- The object was not tracked. -/
  | untracked
  /-- The object was tracked under a class of which nothing is alive. -/
  | inconsistent
deriving DecidableEq

namespace Census

def adjust (c : Census) (d : Descriptor) (f : Entry → Entry) : Census :=
  { c with entries := c.entries.modify d f }

def noteAlive (c : Census) (d : Descriptor) : List Signal :=
  match c.entryOf? d with
  | some e => [.log (.aliveCount d e.inclusive.alive)]
  | none => []

/-- Change the entries along a lineage, and tell of each change before the next one is
made. -/
def sweep (f : Entry → Entry) : Census → List Descriptor → Census × List Signal
  | c, [] => (c, [])
  | c, d :: above =>
    let here := c.adjust d f
    let rest := sweep f here above
    (rest.1, here.noteAlive d ++ here.tell (.changed d) ++ rest.2)

/-- Track a reported object under the class `k`, and count it there. Where the class
stands for all of its name, the reported instance enters its pool. -/
def enroll (c : Census) (r : Report) (k : Descriptor) : Census :=
  let tracked : Census := { c with roster := c.roster.track r.object k }
  let counted := tracked.adjust k .gainOwn
  if (counted.entryOf? k).any fun e => e.kind.isDynamic then
    { counted with roster := counted.roster.enlist r.object r.descriptor k }
  else
    counted

def construct (c : Census) (host : Host) (r : Report) : Except AscentError (Outcome Descriptor) :=
  match c.roster.classOf? r.object with
  | some k => .ok ⟨k, c, [.log (.repeatedConstruction r.object)]⟩
  | none =>
    (c.register host r.descriptor r.generated).map fun o =>
      let enrolled := o.census.enroll r o.answer
      let swept := sweep .gainInclusive enrolled (enrolled.forest.lineage o.answer)
      ⟨o.answer, swept.1, o.signals ++ swept.2⟩

def destroy (c : Census) (o : Object) : Outcome Destruction :=
  match c.roster.classOf? o with
  | none => ⟨.untracked, c, [.log (.untrackedDestruction o)]⟩
  | some k =>
    let released : Census := { c with roster := c.roster.untrack o }
    match released.entryOf? k with
    | none => ⟨.inconsistent, released, []⟩
    | some e =>
      if e.own.alive = 0 then ⟨.inconsistent, released, []⟩
      else
        let discounted := released.adjust k .loseOwn
        let struck : Census :=
          if e.kind.isDynamic then
            { discounted with roster := discounted.roster.strike o k }
          else
            discounted
        let swept := sweep .loseInclusive struck (struck.forest.lineage k)
        ⟨.released, swept.1, swept.2⟩

@[simp] theorem sweep_nil (f : Entry → Entry) (c : Census) : sweep f c [] = (c, []) := rfl

theorem sweep_cons (f : Entry → Entry) (c : Census) (d : Descriptor) (above : List Descriptor) :
    sweep f c (d :: above) =
      ((sweep f (c.adjust d f) above).1,
        (c.adjust d f).noteAlive d ++ (c.adjust d f).tell (.changed d) ++
          (sweep f (c.adjust d f) above).2) := rfl

theorem sweep_append (f : Entry → Entry) (c : Census) (near far : List Descriptor) :
    sweep f c (near ++ far) =
      ((sweep f (sweep f c near).1 far).1,
        (sweep f c near).2 ++ (sweep f (sweep f c near).1 far).2) := by
  induction near generalizing c with
  | nil => simp
  | cons d near ih => simp [sweep_cons, ih, List.append_assoc]

theorem entryOf?_adjust (c : Census) (d e : Descriptor) (f : Entry → Entry) :
    (c.adjust d f).entryOf? e = if d = e then (c.entryOf? e).map f else c.entryOf? e := by
  simp only [entryOf?, adjust, Std.ExtTreeMap.getElem?_modify, Std.LawfulEqOrd.compare_eq_iff_eq]
  by_cases h : d = e
  · subst h
    simp
  · simp [h]

/-- Counting along a lineage changes entries and nothing else. -/
theorem sweep_fst (f : Entry → Entry) (c : Census) (ds : List Descriptor) :
    (sweep f c ds).1 = { c with entries := (sweep f c ds).1.entries } := by
  induction ds generalizing c with
  | nil => rfl
  | cons d ds ih =>
    rw [sweep_cons]
    exact ih (c.adjust d f)

theorem construct_of_tracked {c : Census} {r : Report} {k : Descriptor}
    (h : c.roster.classOf? r.object = some k) (host : Host) :
    c.construct host r = .ok ⟨k, c, [.log (.repeatedConstruction r.object)]⟩ := by
  simp [construct, h]

theorem destroy_of_untracked {c : Census} {o : Object} (h : c.roster.classOf? o = none) :
    c.destroy o = ⟨.untracked, c, [.log (.untrackedDestruction o)]⟩ := by
  simp [destroy, h]

end Census

end ClassCensus
