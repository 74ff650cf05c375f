import ClassCensus.Handle

/-!
# Pools of live instances

A class that was generated at run time may have several live descriptor instances behind
one name. A `Pool` holds them in ascending order, each as often as there are objects
that report it, so that the least instance is always at hand.

A place in a pool is found by bisection. `rank a x` is the number of members below `x`,
and it is the one search that insertion, removal and membership share: the slots that
hold `x`, if there are any, begin there. Equal members cannot be told apart, so it does
not matter which of them a removal takes. The order is not a field of the type: every
pool that grows from the empty one has it.
-/

namespace ClassCensus

@[ext]
structure Pool where
  members : Array Descriptor
deriving DecidableEq

namespace Pool

/-- Bisection between `lo` and `hi`: everything left of the answer is below `x` and
nothing from the answer on is, if the members ascend. -/
def bisect (a : Array Descriptor) (x : Descriptor) (lo hi : Nat) (bound : hi ≤ a.size) : Nat :=
  if apart : lo < hi then
    have inside : lo + (hi - lo) / 2 < a.size := by omega
    if a[lo + (hi - lo) / 2] < x then
      bisect a x (lo + (hi - lo) / 2 + 1) hi bound
    else
      bisect a x lo (lo + (hi - lo) / 2) (by omega)
  else
    lo
termination_by hi - lo

theorem bisect_le (a : Array Descriptor) (x : Descriptor) (lo hi : Nat) (bound : hi ≤ a.size)
    (h : lo ≤ hi) : bisect a x lo hi bound ≤ hi := by
  fun_induction bisect a x lo hi bound with
  | case1 lo hi bound apart inside below ih => exact ih (by omega)
  | case2 lo hi bound apart inside above ih => exact Nat.le_trans (ih (by omega)) (by omega)
  | case3 lo hi bound shut => exact h

def rank (a : Array Descriptor) (x : Descriptor) : Nat :=
  bisect a x 0 a.size (Nat.le_refl _)

theorem rank_le (a : Array Descriptor) (x : Descriptor) : rank a x ≤ a.size :=
  bisect_le a x 0 a.size (Nat.le_refl _) (Nat.zero_le _)

def empty : Pool := ⟨#[]⟩

instance : EmptyCollection Pool := ⟨empty⟩

instance : Inhabited Pool := ⟨empty⟩

def insert (p : Pool) (x : Descriptor) : Pool :=
  ⟨p.members.insertIdx (rank p.members x) x (rank_le p.members x)⟩

/-- Take one slot from `x`; `none` if it has none. -/
def erase? (p : Pool) (x : Descriptor) : Option Pool :=
  if held : rank p.members x < p.members.size then
    if p.members[rank p.members x] = x then
      some ⟨p.members.eraseIdx (rank p.members x) held⟩
    else
      none
  else
    none

def erase (p : Pool) (x : Descriptor) : Pool :=
  (p.erase? x).getD p

def contains (p : Pool) (x : Descriptor) : Bool :=
  p.members[rank p.members x]? == some x

def least? (p : Pool) : Option Descriptor :=
  p.members[0]?

def size (p : Pool) : Nat :=
  p.members.size

def isEmpty (p : Pool) : Bool :=
  p.members.isEmpty

def toList (p : Pool) : List Descriptor :=
  p.members.toList

theorem toList_empty : (∅ : Pool).toList = [] := rfl

theorem toList_insert (p : Pool) (x : Descriptor) :
    (p.insert x).toList = p.toList.insertIdx (rank p.members x) x := by
  simp [insert, toList, Array.toList_insertIdx]

theorem isSome_erase? (p : Pool) (x : Descriptor) : (p.erase? x).isSome = p.contains x := by
  unfold erase? contains
  split
  next held => split <;> simp_all
  next past => simp [Array.getElem?_eq_none (Nat.le_of_not_lt past)]

theorem erase_of_not_contains {p : Pool} {x : Descriptor} (h : p.contains x = false) :
    p.erase x = p := by
  have gone : p.erase? x = none := by
    rw [← Option.not_isSome_iff_eq_none, isSome_erase?, h]
    simp
  simp [erase, gone]

end Pool

end ClassCensus
