import ClassCensus.Handle

/-!
# The class hierarchy

With single inheritance the classes on record form a forest. A `Forest` keeps it in both
directions, from a class to its parent and from a class to its children, together with
the order in which classes came. A class enters in two steps: `link` gives it a parent,
`list` then appends it to the order and to the children of that parent. Between the two
it is known, but not listed yet.

`ancestors` follows the parents. It takes at most as many steps as there are classes,
which is enough where parents come before their children. That the two directions agree
is a property of the forests that grow in this way and not a field of the type.
-/

namespace ClassCensus

structure Forest where
  /-- The parent of each class on record; a root has none. -/
  parents : DescriptorMap (Option Descriptor)
  /-- The children of each class that has any, in order of arrival. -/
  children : DescriptorMap (Array Descriptor)
  /-- The classes without a parent, in order of arrival. -/
  roots : Array Descriptor
  order : Array Descriptor

namespace Forest

def empty : Forest := ⟨∅, ∅, #[], #[]⟩

def contains (f : Forest) (d : Descriptor) : Bool :=
  f.parents.contains d

/-- The parent of a class. Roots have none, and neither have classes that are not on
record. -/
def parent? (f : Forest) (d : Descriptor) : Option Descriptor :=
  f.parents[d]?.join

def childrenOf (f : Forest) (d : Descriptor) : Array Descriptor :=
  f.children.getD d #[]

/-- The children of `p`, or the roots if `p` is no class. -/
def below (f : Forest) (p : Option Descriptor) : Array Descriptor :=
  match p with
  | none => f.roots
  | some d => f.childrenOf d

def size (f : Forest) : Nat :=
  f.order.size

def link (f : Forest) (d : Descriptor) (p : Option Descriptor) : Forest :=
  { f with parents := f.parents.insert d p }

def list (f : Forest) (d : Descriptor) (p : Option Descriptor) : Forest :=
  match p with
  | none => { f with roots := f.roots.push d, order := f.order.push d }
  | some q =>
    { f with
      children := f.children.alter q fun siblings => some ((siblings.getD #[]).push d)
      order := f.order.push d }

/-- The classes met on the way up from `p`, in at most `n` steps. -/
def upwards (f : Forest) : Nat → Option Descriptor → List Descriptor
  | 0, _ => []
  | _ + 1, none => []
  | n + 1, some d => d :: upwards f n (f.parent? d)

def ancestors (f : Forest) (d : Descriptor) : List Descriptor :=
  f.upwards f.parents.size (f.parent? d)

def lineage (f : Forest) (d : Descriptor) : List Descriptor :=
  d :: f.ancestors d

def inherits (f : Forest) (d a : Descriptor) : Bool :=
  f.contains d && (f.lineage d).contains a

@[simp] theorem upwards_none (f : Forest) (n : Nat) : f.upwards n none = [] := by
  cases n <;> rfl

theorem upwards_succ_some (f : Forest) (n : Nat) (d : Descriptor) :
    f.upwards (n + 1) (some d) = d :: f.upwards n (f.parent? d) := rfl

theorem contains_link (f : Forest) (d e : Descriptor) (p : Option Descriptor) :
    (f.link d p).contains e = (decide (d = e) || f.contains e) := by
  simp [contains, link, Std.ExtTreeMap.contains_insert, Bool.beq_eq_decide_eq]

theorem parent?_link (f : Forest) (d e : Descriptor) (p : Option Descriptor) :
    (f.link d p).parent? e = if d = e then p else f.parent? e := by
  unfold parent? link
  rw [Std.ExtTreeMap.getElem?_insert]
  by_cases h : d = e <;> simp [h]

theorem parents_list (f : Forest) (d : Descriptor) (p : Option Descriptor) :
    (f.list d p).parents = f.parents := by
  cases p <;> rfl

theorem order_list (f : Forest) (d : Descriptor) (p : Option Descriptor) :
    (f.list d p).order = f.order.push d := by
  cases p <;> rfl

theorem below_list (f : Forest) (d : Descriptor) (p q : Option Descriptor) :
    (f.list d p).below q = if p = q then (f.below q).push d else f.below q := by
  cases p with
  | none => cases q <;> rfl
  | some e =>
    cases q with
    | none => rfl
    | some c =>
      simp only [below, childrenOf, list, Std.ExtTreeMap.getD_alter, Option.some.injEq,
        Std.LawfulEqOrd.compare_eq_iff_eq]
      by_cases h : e = c
      · simp [h, Std.ExtTreeMap.getD_eq_getD_getElem?]
      · simp [h]

end Forest

end ClassCensus
