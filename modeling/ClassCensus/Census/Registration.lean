import ClassCensus.Census.Signal

/-!
# Registration

Putting classes on record. `register` makes up for everything that is missing above a
class and answers with the class that stands for it, which is another one where classes
of one name are merged: a class generated at run time whose name is taken is not put on
record at all, and what hangs below it hangs below the class of that name.

Nothing is put on record before the whole chain is known, so a registration that fails
leaves nothing behind. A survey registers what the host lists; it goes on behind a class
that fails, unless that is the base class.
-/

namespace ClassCensus

namespace Census

/-- Put a class on record below `p`: known first, listed then, with an event for each. -/
def enter (c : Census) (s : Sighting) (p : Option Descriptor) (kind : Kind) : Outcome Descriptor :=
  let known : Census :=
    { c with
      forest := c.forest.link s.descriptor p
      entries := c.entries.insert s.descriptor (.fresh s.info.className kind)
      names := if kind.isDynamic then c.names.insert s.info.className s.descriptor else c.names
      roster := if kind.isDynamic then c.roster.openPool s.descriptor else c.roster }
  let listed : Census := { known with forest := known.forest.list s.descriptor p }
  ⟨s.descriptor, listed,
    .log (.registering s.descriptor s.info.className p kind) ::
      (known.tell (.adding s.descriptor) ++ listed.tell (.added s.descriptor))⟩

/-- Put a class on record below `p`, unless it is merged with one of its name. -/
def settle (c : Census) (merge : Bool) (s : Sighting) (p : Option Descriptor) :
    Outcome Descriptor :=
  let kind := Kind.of s.info.readOnly merge
  match kind.isDynamic, c.names[s.info.className]? with
  | true, some canonical =>
    ⟨canonical, c, [.log (.merging s.descriptor canonical s.info.className)]⟩
  | _, _ => c.enter s p kind

/-- Put a chain on record from the top down, each class below what stands for the one
before it. The answer is what stands for the last one, or `last` where the chain is
empty. -/
def settleAll (merge : Bool) : Census → Option Descriptor → Descriptor → List Sighting →
    Outcome Descriptor
  | c, _, last, [] => ⟨last, c, []⟩
  | c, p, _, s :: chain =>
    let here := c.settle merge s p
    let rest := settleAll merge here.census (some here.answer) here.answer chain
    ⟨rest.answer, rest.census, here.signals ++ rest.signals⟩

def register (c : Census) (host : Host) (d : Descriptor) (merge : Bool) :
    Except AscentError (Outcome Descriptor) :=
  (Ascent.of c.contains host c.settings.depthLimit d).map fun a =>
    settleAll merge c a.anchor d a.chain

/-- Register a class on its own, and note why if it fails. -/
def attempt (c : Census) (host : Host) (d : Descriptor) (skipped : AscentError → LogRecord) :
    Census × List Signal :=
  match c.register host d false with
  | .ok o => (o.census, o.signals)
  | .error e => (c, [.log (skipped e)])

def attemptAll (host : Host) : Census → List (Descriptor × (AscentError → LogRecord)) →
    Census × List Signal
  | c, [] => (c, [])
  | c, target :: targets =>
    let here := c.attempt host target.1 target.2
    let rest := attemptAll host here.1 targets
    (rest.1, here.2 ++ rest.2)

def catalogTargets (host : Host) : List (Descriptor × (AscentError → LogRecord)) :=
  host.catalog.filterMap fun row =>
    row.descriptor.map fun d => (d, .skippedType row.typeId row.name)

def baselineTargets (host : Host) : List (Descriptor × (AscentError → LogRecord)) :=
  host.baseline.map fun d => (d, .skippedBaseline d)

/-- Register what the host lists: the catalog, the base class and the baseline, and
count what was added. Nothing is merged by name. A base class that fails ends the
survey, and what was put on record until then stays. -/
def survey (c : Census) (host : Host) : Outcome (Except AscentError Nat) :=
  let first := attemptAll host c (catalogTargets host)
  match first.1.register host c.base false with
  | .error e => ⟨.error e, first.1, first.2⟩
  | .ok base =>
    let last := attemptAll host base.census (baselineTargets host)
    let added := last.1.size - c.size
    ⟨.ok added, last.1, first.2 ++ base.signals ++ last.2 ++ [.log (.surveyed added)]⟩

/-- Open a census that belongs to the thread `owner`, with a survey if the settings ask
for one. There is no census where the survey fails, but its signals were given. -/
def establish (host : Host) (settings : Settings) (owner : Thread) :
    Except AscentError Census × List Signal :=
  let c := blank settings owner host.base
  if settings.surveyOnOpening then
    let o := c.survey host
    (o.answer.map fun _ => o.census, o.signals)
  else
    (.ok c, [])

theorem settleAll_nil (merge : Bool) (c : Census) (p : Option Descriptor) (last : Descriptor) :
    settleAll merge c p last [] = ⟨last, c, []⟩ := rfl

theorem settleAll_cons (merge : Bool) (c : Census) (p : Option Descriptor) (last : Descriptor)
    (s : Sighting) (chain : List Sighting) :
    settleAll merge c p last (s :: chain) =
      ⟨(settleAll merge (c.settle merge s p).census (some (c.settle merge s p).answer)
          (c.settle merge s p).answer chain).answer,
        (settleAll merge (c.settle merge s p).census (some (c.settle merge s p).answer)
          (c.settle merge s p).answer chain).census,
        (c.settle merge s p).signals ++
          (settleAll merge (c.settle merge s p).census (some (c.settle merge s p).answer)
            (c.settle merge s p).answer chain).signals⟩ := rfl

theorem register_of_contains {c : Census} {d : Descriptor} (h : c.contains d = true)
    (host : Host) (merge : Bool) : c.register host d merge = .ok ⟨d, c, []⟩ := by
  simp [register, Ascent.of_known h, Except.map, settleAll]

@[simp] theorem attemptAll_nil (host : Host) (c : Census) :
    attemptAll host c [] = (c, []) := rfl

end Census

end ClassCensus
