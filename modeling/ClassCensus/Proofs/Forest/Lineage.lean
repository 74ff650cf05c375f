import ClassCensus.Proofs.Forest.Order
import Mathlib.Algebra.BigOperators.Group.Finset.Piecewise
import Mathlib.Data.List.Chain
import Mathlib.Logic.Relation

/-!
# Lineages and subtrees

`Ascends p l` follows the parents from `p` on without any bound on the number of
steps: `l` is all that is met until there is no parent left. In a sound forest
`ancestors` and `lineage` are such walks, so the bound in their definition is
never what ends them. A lineage holds no class twice, and it is settled when its
class arrives.

`subtree a` is read upwards, as the classes with `a` in their lineage.
`mem_subtree_iff_reaches` says that this is what the children reach from `a`.
-/

namespace ClassCensus

open Relation

namespace Forest

/-- `f.Ascends p l`: going up from `p`, the classes that are met are those of `l`,
and above the last of them there is none. -/
inductive Ascends (f : Forest) : Option Descriptor → List Descriptor → Prop
  | top : Ascends f none []
  | up {d : Descriptor} {l : List Descriptor} (above : Ascends f (f.parent? d) l) :
    Ascends f (some d) (d :: l)

def IsChild (f : Forest) (p c : Descriptor) : Prop :=
  c ∈ (f.childrenOf p).toList

def subtree (f : Forest) (a : Descriptor) : Finset Descriptor :=
  f.order.toList.toFinset.filter fun d => a ∈ f.lineage d

namespace Ascends

variable {f : Forest}

theorem unique {p : Option Descriptor} {l m : List Descriptor} (h : f.Ascends p l)
    (h' : f.Ascends p m) : l = m := by
  induction h generalizing m with
  | top =>
      cases h'
      rfl
  | up above ih =>
      cases h' with
      | up above' => rw [ih above']

theorem isChain {p : Option Descriptor} {l : List Descriptor} (h : f.Ascends p l) :
    l.IsChain fun d q => f.parent? d = some q := by
  induction h with
  | top => exact .nil
  | @up d l above ih =>
      cases l with
      | nil => exact .singleton d
      | cons q l =>
          refine List.isChain_cons_cons.mpr ⟨?_, ih⟩
          generalize f.parent? d = p at above
          cases above
          rfl

theorem forall_contains (sound : f.Sound) {p : Option Descriptor} {l : List Descriptor}
    (h : f.Ascends p l) (known : ∀ d, p = some d → f.contains d = true) :
    ∀ e ∈ l, f.contains e = true := by
  induction h with
  | top =>
      intro e he
      cases he
  | @up d l above ih =>
      intro e he
      rcases List.mem_cons.mp he with rfl | later
      · exact known e rfl
      · exact ih (fun q hq => sound.parent_contains hq) e later

theorem reaches {p : Option Descriptor} {l : List Descriptor} (h : f.Ascends p l) :
    ∀ d, p = some d → ∀ a ∈ l, ReflTransGen (fun e q => f.parent? e = some q) d a := by
  induction h with
  | top =>
      intro d start
      cases start
  | @up e l above ih =>
      intro d start a ha
      cases start
      rcases List.mem_cons.mp ha with rfl | later
      · exact .refl
      · cases parent : f.parent? e with
        | none =>
            rw [parent] at above
            cases above
            cases later
        | some q => exact .head parent (ih q parent a later)

/-- A walk that starts on record is the same in a forest that keeps the parents. -/
theorem of_parents {f' : Forest} (sound : f.Sound)
    (kept : ∀ d, f.contains d = true → f'.parent? d = f.parent? d) {q : Option Descriptor}
    {l : List Descriptor} (h : f.Ascends q l)
    (known : ∀ e, q = some e → f.contains e = true) : f'.Ascends q l := by
  induction h with
  | top => exact .top
  | @up e l above ih =>
      refine .up ?_
      rw [kept e (known e rfl)]
      exact ih fun c hc => sound.parent_contains hc

theorem of_append {p : Option Descriptor} {near far : List Descriptor} {d : Descriptor}
    (h : f.Ascends p (near ++ d :: far)) : f.Ascends (some d) (d :: far) := by
  induction near generalizing p with
  | nil =>
      cases h with
      | up above => exact .up above
  | cons e near ih =>
      cases h with
      | up above => exact ih above

end Ascends

theorem inherits_iff (f : Forest) (d a : Descriptor) :
    f.inherits d a = true ↔ f.contains d = true ∧ a ∈ f.lineage d := by
  rw [inherits, Bool.and_eq_true, List.contains_iff_mem]

theorem Ascends.exists_root {f : Forest} {p : Option Descriptor} {l : List Descriptor}
    (h : f.Ascends p l) (met : l ≠ []) : ∃ a ∈ l, f.parent? a = none := by
  induction h with
  | top => exact absurd rfl met
  | @up d l above ih =>
      cases parent : f.parent? d with
      | none => exact ⟨d, List.mem_cons_self, parent⟩
      | some q =>
          rw [parent] at above
          obtain ⟨a, later, root⟩ := ih (by cases above; exact List.cons_ne_nil _ _)
          exact ⟨a, List.mem_cons_of_mem d later, root⟩

/-- To list a class makes no difference to the ways up. -/
theorem lineage_list (f : Forest) (d : Descriptor) (p : Option Descriptor) (e : Descriptor) :
    (f.list d p).lineage e = f.lineage e := by
  have upwards (n : Nat) (q : Option Descriptor) :
      (f.list d p).upwards n q = f.upwards n q := by
    induction n generalizing q with
    | zero => rfl
    | succ n ih =>
        cases q with
        | none => rfl
        | some a => rw [upwards_succ_some, upwards_succ_some, ih, parent?, parents_list, parent?]
  rw [lineage, lineage, ancestors, ancestors, upwards, parent?, parents_list, parent?]

namespace Sound

variable {f : Forest} (sound : f.Sound)

include sound

/-- As many steps as there are classes in front of the first one are enough. -/
theorem ascends_upwards (n : Nat) (p : Option Descriptor)
    (room : ∀ d, p = some d → f.order.toList.idxOf d < n) : f.Ascends p (f.upwards n p) := by
  induction n generalizing p with
  | zero =>
      cases p with
      | none => exact .top
      | some d => exact absurd (room d rfl) (Nat.not_lt_zero _)
  | succ n ih =>
      cases p with
      | none => exact .top
      | some d =>
          rw [upwards_succ_some]
          refine .up (ih (f.parent? d) fun q hq => ?_)
          exact Nat.lt_of_lt_of_le (sound.parent_before d q hq) (Nat.le_of_lt_succ (room d rfl))

theorem ascends_ancestors (d : Descriptor) : f.Ascends (f.parent? d) (f.ancestors d) := by
  refine sound.ascends_upwards _ _ fun q hq => ?_
  rw [sound.size_parents]
  exact sound.idxOf_lt_size (sound.parent_contains hq)

theorem ascends_lineage (d : Descriptor) : f.Ascends (some d) (f.lineage d) :=
  .up (sound.ascends_ancestors d)

theorem lineage_of_parent {d p : Descriptor} (h : f.parent? d = some p) :
    f.lineage d = d :: f.lineage p := by
  have above := sound.ascends_ancestors d
  rw [h] at above
  rw [lineage, above.unique (sound.ascends_lineage p)]

/-- What a lineage goes on with above one of its classes are the ancestors of this
class. -/
theorem ancestors_of_lineage {k d : Descriptor} {near far : List Descriptor}
    (parts : f.lineage k = near ++ d :: far) : f.ancestors d = far := by
  have rest := sound.ascends_lineage k
  rw [parts] at rest
  exact (List.cons.inj ((sound.ascends_lineage d).unique rest.of_append)).2

theorem forall_mem_lineage {d : Descriptor} (h : f.contains d = true) :
    ∀ e ∈ f.lineage d, f.contains e = true := by
  refine (sound.ascends_lineage d).forall_contains sound fun e he => ?_
  rwa [← Option.some.inj he]

/-- Going up, the classes come ever earlier in the order. -/
theorem lineage_pairwise (d : Descriptor) :
    (f.lineage d).Pairwise fun e q => f.order.toList.idxOf q < f.order.toList.idxOf e := by
  let Later (e q : Descriptor) : Prop := f.order.toList.idxOf q < f.order.toList.idxOf e
  have : Trans Later Later Later := ⟨fun h h' => Nat.lt_trans h' h⟩
  have chain : (f.lineage d).IsChain Later :=
    (sound.ascends_lineage d).isChain.imp fun e q h => sound.parent_before e q h
  exact chain.pairwise

theorem lineage_nodup (d : Descriptor) : (f.lineage d).Nodup := by
  refine (sound.lineage_pairwise d).imp ?_
  intro e q later same
  rw [same] at later
  exact Nat.lt_irrefl _ later

theorem length_ancestors_lt {d : Descriptor} (h : f.contains d = true) :
    (f.ancestors d).length < f.size := by
  have inside : f.lineage d ⊆ f.order.toList := fun e he =>
    (sound.mem_order e).mpr (sound.forall_mem_lineage h e he)
  have short := ((sound.lineage_nodup d).subperm inside).length_le
  rwa [Array.length_toList] at short

theorem mem_lineage_iff {a d : Descriptor} :
    a ∈ f.lineage d ↔ ReflTransGen (fun e q => f.parent? e = some q) d a := by
  constructor
  · exact fun h => (sound.ascends_lineage d).reaches d rfl a h
  · intro h
    induction h using ReflTransGen.head_induction_on with
    | refl => exact List.mem_cons_self
    | head parent _ ih =>
        rw [sound.lineage_of_parent parent]
        exact List.mem_cons_of_mem _ ih

theorem lineage_of_parents {f' : Forest} (sound' : f'.Sound)
    (kept : ∀ d, f.contains d = true → f'.parent? d = f.parent? d) {d : Descriptor}
    (known : f.contains d = true) : f'.lineage d = f.lineage d := by
  have same := (sound.ascends_lineage d).of_parents sound kept fun e he => by
    rwa [← Option.some.inj he]
  exact (sound'.ascends_lineage d).unique same

theorem lineage_grow_of_contains {d e : Descriptor} (fresh : f.contains d = false)
    {p : Option Descriptor} (parent : ∀ q, p = some q → f.contains q = true)
    (known : f.contains e = true) : (f.grow d p).lineage e = f.lineage e :=
  sound.lineage_of_parents (sound.grow fresh parent)
    (fun _ old => parent?_grow_of_contains fresh p old) known

theorem mem_subtree {a d : Descriptor} :
    d ∈ f.subtree a ↔ f.contains d = true ∧ a ∈ f.lineage d := by
  rw [subtree, Finset.mem_filter, List.mem_toFinset, sound.mem_order d]

theorem mem_lineage_iff_reaches {a d : Descriptor} :
    a ∈ f.lineage d ↔ ReflTransGen f.IsChild a d := by
  have child : f.IsChild = Function.swap fun e q => f.parent? e = some q := by
    funext p c
    exact propext sound.mem_childrenOf
  rw [sound.mem_lineage_iff, child, reflTransGen_swap]

theorem mem_subtree_iff_reaches {a d : Descriptor} (known : f.contains a = true) :
    d ∈ f.subtree a ↔ ReflTransGen f.IsChild a d := by
  rw [sound.mem_subtree, sound.mem_lineage_iff_reaches]
  refine ⟨fun h => h.2, fun h => ⟨?_, h⟩⟩
  rcases h.cases_tail with rfl | ⟨q, _, child⟩
  · exact known
  · exact contains_of_parent? (sound.mem_childrenOf.mp child)

/-- The children of a class that is not on record reach nothing, for it has none. -/
theorem reaches_of_not_contains {a d : Descriptor} (unknown : f.contains a = false) :
    ReflTransGen f.IsChild a d ↔ d = a := by
  refine ⟨fun h => ?_, fun same => same ▸ .refl⟩
  rcases h.cases_head with same | ⟨e, child, _⟩
  · exact same.symm
  · rw [sound.parent_contains (sound.mem_childrenOf.mp child)] at unknown
    cases unknown

theorem self_mem_subtree {d : Descriptor} (known : f.contains d = true) : d ∈ f.subtree d :=
  sound.mem_subtree.mpr ⟨known, List.mem_cons_self⟩

theorem subtree_of_not_contains {d : Descriptor} (unknown : f.contains d = false) :
    f.subtree d = ∅ := by
  rw [Finset.eq_empty_iff_forall_notMem]
  intro x hx
  obtain ⟨known, above⟩ := sound.mem_subtree.mp hx
  rw [sound.forall_mem_lineage known d above] at unknown
  cases unknown

/-- A class that arrives with nothing to count leaves all sums as they were. -/
theorem sum_subtree_grow {M : Type*} [AddCommMonoid M] {d : Descriptor}
    (fresh : f.contains d = false) {p : Option Descriptor}
    (parent : ∀ q, p = some q → f.contains q = true) {g : Descriptor → M} (nothing : g d = 0)
    (a : Descriptor) :
    ∑ e ∈ (f.grow d p).subtree a, g e = ∑ e ∈ f.subtree a, g e := by
  have grown := sound.grow fresh parent
  symm
  apply Finset.sum_subset
  · intro e he
    obtain ⟨known, above⟩ := sound.mem_subtree.mp he
    rw [grown.mem_subtree, contains_grow, known, Bool.or_true,
      sound.lineage_grow_of_contains fresh parent known]
    exact ⟨rfl, above⟩
  · intro e he new
    obtain ⟨known, above⟩ := grown.mem_subtree.mp he
    rw [contains_grow, Bool.or_eq_true, decide_eq_true_iff] at known
    rcases known with rfl | known
    · exact nothing
    · rw [sound.lineage_grow_of_contains fresh parent known] at above
      exact absurd (sound.mem_subtree.mpr ⟨known, above⟩) new

/-- There is one way up, so what is above a class is a chain. -/
theorem lineage_total {d a b : Descriptor} (above : a ∈ f.lineage d) (above' : b ∈ f.lineage d) :
    b ∈ f.lineage a ∨ a ∈ f.lineage b := by
  have one : Relator.RightUnique fun e q => f.parent? e = some q := fun _ _ _ up up' =>
    Option.some.inj (up.symm.trans up')
  rw [sound.mem_lineage_iff] at above above' ⊢
  rw [sound.mem_lineage_iff]
  exact ReflTransGen.total_of_right_unique one above above'

omit sound in
theorem lineage_of_root {a : Descriptor} (root : f.parent? a = none) : f.lineage a = [a] := by
  rw [lineage, ancestors, root, upwards_none]

/-- There is one root above a class. -/
theorem eq_of_roots {d a b : Descriptor} (above : a ∈ f.lineage d) (above' : b ∈ f.lineage d)
    (root : f.parent? a = none) (root' : f.parent? b = none) : a = b := by
  have chain := sound.lineage_total above above'
  rw [lineage_of_root root, lineage_of_root root', List.mem_singleton, List.mem_singleton] at chain
  exact chain.elim Eq.symm id

/-- The subtrees of the roots part the classes on record. -/
theorem sum_roots {M : Type*} [AddCommMonoid M] (g : Descriptor → M) :
    ∑ a ∈ f.roots.toList.toFinset, ∑ e ∈ f.subtree a, g e =
      ∑ e ∈ f.order.toList.toFinset, g e := by
  have root (a : Descriptor) : a ∈ f.roots.toList ↔ f.contains a = true ∧ f.parent? a = none :=
    sound.mem_below (p := none)
  rw [← Finset.sum_biUnion]
  · refine Finset.sum_congr (Finset.ext fun e => ?_) fun _ _ => rfl
    rw [Finset.mem_biUnion, List.mem_toFinset, sound.mem_order]
    constructor
    · rintro ⟨a, _, below⟩
      exact (sound.mem_subtree.mp below).1
    · intro known
      obtain ⟨a, above, top⟩ := (sound.ascends_lineage e).exists_root (List.cons_ne_nil _ _)
      refine ⟨a, ?_, sound.mem_subtree.mpr ⟨known, above⟩⟩
      rw [List.mem_toFinset, root]
      exact ⟨sound.forall_mem_lineage known a above, top⟩
  · intro a top b top' other
    rw [Finset.mem_coe, List.mem_toFinset, root] at top top'
    refine Finset.disjoint_left.mpr fun e below below' => other ?_
    exact sound.eq_of_roots (sound.mem_subtree.mp below).2 (sound.mem_subtree.mp below').2
      top.2 top'.2

/-- What is added at `k` is added in the subtree of each class above `k`. -/
theorem sum_subtree_of_more {M : Type*} [AddCommMonoid M] {k : Descriptor}
    (known : f.contains k = true) {g g' : Descriptor → M} {u : M}
    (more : ∀ e, g' e = g e + if e = k then u else 0) (a : Descriptor) :
    ∑ e ∈ f.subtree a, g' e =
      (∑ e ∈ f.subtree a, g e) + if a ∈ f.lineage k then u else 0 := by
  simp only [more, Finset.sum_add_distrib, Finset.sum_ite_eq', sound.mem_subtree, known,
    true_and]

end Sound

end Forest

end ClassCensus
