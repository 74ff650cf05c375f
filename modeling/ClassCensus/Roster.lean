import ClassCensus.Pool

/-!
# The roster of objects

Which objects are tracked, and under which class each is counted. Classes that stand for
all of their name have a pool besides: it holds the descriptor instances that their
objects report. The object's report is kept so that the right instance can be taken out
again, and for every instance in a pool the class it stands for is remembered as its
alias.

An alias is made whenever an instance is reported and dropped when its last slot in the
pool is gone.
-/

namespace ClassCensus

structure Roster where
  /-- The class that a tracked object is counted under. -/
  tracked : ObjectMap Descriptor
  /-- The instance that an object reported, where the class has a pool. -/
  reports : ObjectMap Descriptor
  /-- The pools of the classes that stand for all of their name. -/
  pools : DescriptorMap Pool
  /-- The class that an instance stands for. -/
  aliases : DescriptorMap Descriptor

namespace Roster

def empty : Roster := ⟨∅, ∅, ∅, ∅⟩

def size (r : Roster) : Nat :=
  r.tracked.size

def classOf? (r : Roster) (o : Object) : Option Descriptor :=
  r.tracked[o]?

def pool? (r : Roster) (c : Descriptor) : Option Pool :=
  r.pools[c]?

/-- The class that a descriptor stands for; itself unless it has an alias. -/
def canonical (r : Roster) (d : Descriptor) : Descriptor :=
  r.aliases.getD d d

/-- A live instance of a class: the least in its pool, or itself where it has no pool. -/
def representative? (r : Roster) (d : Descriptor) : Option Descriptor :=
  match r.pool? d with
  | some p => p.least?
  | none => some d

def openPool (r : Roster) (c : Descriptor) : Roster :=
  { r with pools := r.pools.insert c ∅ }

def track (r : Roster) (o : Object) (c : Descriptor) : Roster :=
  { r with tracked := r.tracked.insert o c }

def untrack (r : Roster) (o : Object) : Roster :=
  { r with tracked := r.tracked.erase o }

def enlist (r : Roster) (o : Object) (d c : Descriptor) : Roster :=
  { r with
    reports := r.reports.insert o d
    aliases := r.aliases.insert d c
    pools := r.pools.insert c ((r.pools.getD c ∅).insert d) }

def strike (r : Roster) (o : Object) (c : Descriptor) : Roster :=
  match r.reports[o]? with
  | none => r
  | some d =>
    let pool := (r.pools.getD c ∅).erase d
    { r with
      reports := r.reports.erase o
      pools := r.pools.insert c pool
      aliases := if pool.contains d then r.aliases else r.aliases.erase d }

theorem tracked_strike (r : Roster) (o : Object) (c : Descriptor) :
    (r.strike o c).tracked = r.tracked := by
  unfold strike
  split <;> rfl

theorem classOf?_track (r : Roster) (o p : Object) (c : Descriptor) :
    (r.track o c).classOf? p = if o = p then some c else r.classOf? p := by
  simp [classOf?, track, Std.ExtTreeMap.getElem?_insert]

theorem classOf?_untrack (r : Roster) (o p : Object) :
    (r.untrack o).classOf? p = if o = p then none else r.classOf? p := by
  simp [classOf?, untrack, Std.ExtTreeMap.getElem?_erase]

end Roster

end ClassCensus
