import ClassCensus.Host.Store
import ClassCensus.Proofs.NameTable

/-!
# Handles are handed out once

A store hands out ascending handles and never comes back to one, so a handle means one
class from the moment it is handed out. `Issue` keeps what is needed to tell the time:
the handle, the class it was handed out for, and the changes that were asked for since.
A request to release a handle that was not handed out yet is in vain and does not count
later on.

`Kept` relates the issues of a run to the store that it leaves, and is carried through
the run as long as the handles fit into a word. The next handle is settled by the number
of issues. That puts it above all of them, released or not, and so a new class never
gets the handle of an old one.

If a class can only extend one that was made before, superclasses have smaller handles.
`Lineal` says this of the issues, as the store itself takes any handle for a superclass.
-/

namespace ClassCensus

open Relation

namespace ClassStore

inductive Change
  | define (info : ClassInfo)
  | release (d : Descriptor)
  | enterType (name : String) (descriptor : Option Descriptor)
  | nameBaseline (d : Descriptor)
deriving DecidableEq

def Change.defines : Change → Bool
  | define _ => true
  | _ => false

def perform (s : ClassStore) : Change → ClassStore
  | .define info => (s.define info).2
  | .release d => (s.release d).2
  | .enterType name descriptor => (s.enterType name descriptor).2
  | .nameBaseline d => s.nameBaseline d

def performAll : ClassStore → List Change → ClassStore
  | s, [] => s
  | s, c :: run => performAll (s.perform c) run

structure Issue where
  handle : Descriptor
  info : ClassInfo
  since : List Change

namespace Issue

/-- The handle was asked to be released, after it had been handed out. -/
def Released (i : Issue) : Prop :=
  .release i.handle ∈ i.since

instance (i : Issue) : Decidable i.Released :=
  inferInstanceAs (Decidable (_ ∈ i.since))

def later (i : Issue) (run : List Change) : Issue :=
  { i with since := i.since ++ run }

theorem later_nil (i : Issue) : i.later [] = i := by
  rw [later, List.append_nil]

theorem later_later (i : Issue) (early late : List Change) :
    (i.later early).later late = i.later (early ++ late) := by
  rw [later, later, later, List.append_assoc]

theorem not_released (h : Descriptor) (info : ClassInfo) : ¬ (⟨h, info, []⟩ : Issue).Released :=
  List.not_mem_nil

theorem released_later (i : Issue) (c : Change) :
    (i.later [c]).Released ↔ i.Released ∨ c = .release i.handle := by
  rw [Released, later, List.mem_append, List.mem_singleton, eq_comm (a := c)]
  rfl

end Issue

def issue? (s : ClassStore) (late : List Change) : Change → Option Issue
  | .define info => some ⟨(s.define info).1, info, late⟩
  | _ => none

def issues : ClassStore → List Change → List Issue
  | _, [] => []
  | s, c :: run => (s.issue? run c).toList ++ issues (s.perform c) run

/-- All that was ever handed out by a store that began with a root class and went
through the changes `run`. -/
def history (name : String) (run : List Change) : List Issue :=
  ⟨(withRoot name).root, ⟨name, none, true⟩, run⟩ :: issues (withRoot name) run

theorem issue?_later (s : ClassStore) (c : Change) (late : List Change) :
    (s.issue? [] c).toList.map (·.later late) = (s.issue? late c).toList := by
  cases c <;> rfl

theorem root_performAll (s : ClassStore) (run : List Change) :
    (s.performAll run).root = s.root := by
  induction run generalizing s with
  | nil => rfl
  | cons c run ih =>
      have same : (s.perform c).root = s.root := by cases c <;> rfl
      exact (ih (s.perform c)).trans same

theorem release_eq_isSome (s : ClassStore) (h : Descriptor) :
    (s.release h).1 = (s.toHost.describe h).isSome :=
  ClassTable.contains_eq_isSome_describe s.table h

theorem mem_classes_iff (s : ClassStore) (h : Descriptor) :
    h ∈ s.table.classes ↔ (s.toHost.describe h).isSome = true :=
  Std.ExtTreeMap.mem_iff_isSome_getElem?

structure Kept (is : List Issue) (s : ClassStore) : Prop where
  next_eq : s.nextHandle.toNat = firstHandle.toNat + stride.toNat * is.length
  ascending : is.Pairwise fun i j => i.handle < j.handle
  below : ∀ i ∈ is, i.handle.handle.toNat < s.nextHandle.toNat
  told : ∀ i ∈ is, s.toHost.describe i.handle = if i.Released then none else some i.info
  untold : ∀ h, (∀ i ∈ is, i.handle ≠ h) → s.toHost.describe h = none

theorem kept_nil (root : Descriptor) : Kept [] ⟨.empty root, firstHandle⟩ where
  next_eq := rfl
  ascending := .nil
  below _ hi := absurd hi List.not_mem_nil
  told _ hi := absurd hi List.not_mem_nil
  untold _ _ := Std.ExtTreeMap.getElem?_empty

namespace Kept

variable {is : List Issue} {s : ClassStore} (kept : Kept is s)

include kept

/-- The issues so far after a change that forgets a class if it is a release of it. -/
theorem later {c : Change} {s' : ClassStore} (next : s'.nextHandle = s.nextHandle)
    (told : ∀ h, s'.toHost.describe h = if c = .release h then none else s.toHost.describe h) :
    Kept (is.map (·.later [c])) s' := by
  refine ⟨?_, ?_, ?_, ?_, fun h other => ?_⟩
  · rw [next, List.length_map]
    exact kept.next_eq
  · exact List.pairwise_map.mpr kept.ascending
  · rw [List.forall_mem_map, next]
    exact kept.below
  · rw [List.forall_mem_map]
    intro i hi
    change s'.toHost.describe i.handle = if (i.later [c]).Released then none else some i.info
    rw [told, kept.told i hi]
    simp only [Issue.released_later, or_comm (a := i.Released), ite_or]
  · rw [List.forall_mem_map] at other
    rw [told, kept.untold h other, ite_self]

theorem pass {c : Change} {s' : ClassStore} (nothing : s.issue? [] c = none)
    (next : s'.nextHandle = s.nextHandle)
    (told : ∀ h, s'.toHost.describe h = if c = .release h then none else s.toHost.describe h) :
    Kept (is.map (·.later [c]) ++ (s.issue? [] c).toList) s' := by
  rw [nothing, Option.toList_none, List.append_nil]
  exact kept.later next told

/-- A new class gets a handle above all that were handed out. -/
theorem define (room : is.length ≤ 2 ^ 57) (info : ClassInfo) :
    Kept (is ++ [⟨(s.define info).1, info, []⟩]) (s.define info).2 := by
  have next := kept.next_eq
  have fits : (s.define info).2.nextHandle.toNat = s.nextHandle.toNat + stride.toNat := by
    rw [ClassStore.define, UInt64.toNat_add, Nat.mod_eq_of_lt]
    simp only [firstHandle, stride, UInt64.reduceToNat] at next ⊢
    omega
  have wide : 0 < stride.toNat := by decide
  have other (i : Issue) (hi : i ∈ is) : i.handle ≠ (s.define info).1 := by
    intro same
    exact Nat.lt_irrefl _ (same ▸ kept.below i hi)
  refine ⟨?_, ?_, fun i hi => ?_, fun i hi => ?_, fun h absent => ?_⟩
  · rw [fits, next, List.length_append, List.length_singleton, Nat.mul_add, Nat.mul_one,
      Nat.add_assoc]
  · refine List.pairwise_append.mpr ⟨kept.ascending, List.pairwise_singleton .., ?_⟩
    intro i hi j hj
    rw [List.mem_singleton.mp hj, Descriptor.lt_iff_toNat_lt]
    exact kept.below i hi
  · rw [fits]
    rcases List.mem_append.mp hi with old | new
    · exact Nat.lt_add_right _ (kept.below i old)
    · rw [List.mem_singleton.mp new]
      exact Nat.lt_add_of_pos_right wide
  · rw [describe_define]
    rcases List.mem_append.mp hi with old | new
    · rw [if_neg (other i old).symm]
      exact kept.told i old
    · rw [List.mem_singleton.mp new, if_pos rfl, if_neg (Issue.not_released _ _)]
  · rw [describe_define, if_neg (absent _ (List.mem_append_right _ List.mem_cons_self))]
    exact kept.untold h fun i hi => absent i (List.mem_append_left _ hi)

theorem perform (room : is.length ≤ 2 ^ 57) (c : Change) :
    Kept (is.map (·.later [c]) ++ (s.issue? [] c).toList) (s.perform c) := by
  cases c with
  | define info =>
      have seen : Kept (is.map (·.later [.define info])) s :=
        kept.later rfl fun h => (if_neg nofun).symm
      exact seen.define ((List.length_map _).trans_le room) info
  | release d =>
      refine kept.pass rfl rfl fun h => ?_
      rw [ClassStore.perform, describe_release]
      simp only [Change.release.injEq]
  | enterType => exact kept.pass rfl rfl fun h => (if_neg nofun).symm
  | nameBaseline => exact kept.pass rfl rfl fun h => (if_neg nofun).symm

theorem performAll (run : List Change) (room : is.length + run.countP Change.defines ≤ 2 ^ 57) :
    Kept (is.map (·.later run) ++ s.issues run) (s.performAll run) := by
  induction run generalizing is s with
  | nil =>
      have same : is.map (·.later []) = is := by
        simp only [Issue.later_nil, List.map_id']
      rw [issues, List.append_nil, same]
      exact kept
  | cons c run ih =>
      have first := kept.perform (Nat.le_trans (Nat.le_add_right _ _) room) c
      have more : (s.issue? [] c).toList.length = if c.defines then 1 else 0 := by
        cases c <;> rfl
      have rest := ih first (by
        rw [List.length_append, List.length_map, more]
        rw [List.countP_cons] at room
        omega)
      rw [List.map_append, List.map_map, issue?_later, List.append_assoc] at rest
      have whole : (fun i : Issue => i.later run) ∘ (fun i : Issue => i.later [c]) =
          fun i : Issue => i.later (c :: run) :=
        funext fun i => i.later_later [c] run
      rw [whole] at rest
      exact rest

theorem describe_eq_some_iff (h : Descriptor) (info : ClassInfo) :
    s.toHost.describe h = some info ↔
      ∃ i ∈ is, ¬ i.Released ∧ i.handle = h ∧ i.info = info := by
  constructor
  · intro described
    have issued : ∃ i ∈ is, i.handle = h := by
      by_contra none
      push Not at none
      exact absurd ((kept.untold h none).symm.trans described) nofun
    obtain ⟨i, hi, rfl⟩ := issued
    rw [kept.told i hi] at described
    split_ifs at described with gone
    exact ⟨i, hi, gone, rfl, Option.some.inj described⟩
  · rintro ⟨i, hi, held, rfl, rfl⟩
    rw [kept.told i hi, if_neg held]

theorem isSome_describe_iff (h : Descriptor) :
    (s.toHost.describe h).isSome = true ↔ ∃ i ∈ is, ¬ i.Released ∧ i.handle = h := by
  rw [Option.isSome_iff_exists]
  constructor
  · rintro ⟨info, described⟩
    obtain ⟨i, hi, held, same, -⟩ := (kept.describe_eq_some_iff h info).mp described
    exact ⟨i, hi, held, same⟩
  · rintro ⟨i, hi, held, same⟩
    exact ⟨i.info, (kept.describe_eq_some_iff h i.info).mpr ⟨i, hi, held, same, rfl⟩⟩

/-- As the handles differ, the classes of the store are counted by the issues. -/
theorem size_eq : s.size = (is.filter fun i => ¬ i.Released).length := by
  have distinct : ((is.filter fun i => ¬ i.Released).map Issue.handle).Nodup :=
    List.pairwise_map.mpr ((kept.ascending.imp fun below => ne_of_lt below).filter _)
  have listed : s.table.classes.keys.Perm
      ((is.filter fun i => ¬ i.Released).map Issue.handle) := by
    rw [List.perm_ext_iff_of_nodup Std.ExtTreeMap.nodup_keys distinct]
    intro h
    rw [Std.ExtTreeMap.mem_keys, mem_classes_iff, kept.isSome_describe_iff, List.mem_map]
    simp only [List.mem_filter, decide_eq_true_eq, and_assoc]
  rw [size, ClassTable.size, ← Std.ExtTreeMap.length_keys, listed.length_eq, List.length_map]

end Kept

/-- Every class extends none or one whose handle had been handed out before. -/
def Lineal (is : List Issue) : Prop :=
  ∀ (k : Nat) (h : k < is.length), ∀ p ∈ is[k].info.superclass, p ∈ (is.take k).map Issue.handle

instance (is : List Issue) : Decidable (Lineal is) :=
  inferInstanceAs (Decidable (∀ (k : Nat) (h : k < is.length), ∀ p ∈ is[k].info.superclass,
    p ∈ (is.take k).map Issue.handle))

section Chains

variable {is : List Issue} {s : ClassStore} (kept : Kept is s) (lineal : Lineal is)

include kept lineal

theorem lt_of_extends {d u : Descriptor} (h : s.toHost.Extends d u) : u < d := by
  obtain ⟨info, described, above⟩ := h
  obtain ⟨i, hi, -, rfl, rfl⟩ := (kept.describe_eq_some_iff d info).mp described
  obtain ⟨k, hk, rfl⟩ := List.getElem_of_mem hi
  obtain ⟨j, hj, rfl⟩ := List.mem_map.mp (lineal k hk u above)
  obtain ⟨l, hl, rfl⟩ := List.mem_take_iff_getElem.mp hj
  exact List.pairwise_iff_getElem.mp kept.ascending l k _ hk (by omega)

theorem pairwise_of_chain {chain : List Descriptor} (up : chain.IsChain s.toHost.Extends) :
    chain.Pairwise (· > ·) :=
  (up.imp fun _ _ h => lt_of_extends kept lineal h).pairwise

omit kept lineal in
theorem described_of_chain {chain : List Descriptor} (up : chain.IsChain s.toHost.Extends) :
    ∀ d ∈ chain.dropLast, d ∈ s.table.classes := by
  induction chain with
  | nil => exact fun _ hd => absurd hd List.not_mem_nil
  | cons e chain ih =>
      cases chain with
      | nil => exact fun _ hd => absurd hd List.not_mem_nil
      | cons u chain =>
          obtain ⟨⟨info, described, -⟩, rest⟩ := List.isChain_cons_cons.mp up
          rw [List.dropLast_cons_cons, List.forall_mem_cons]
          exact ⟨(s.mem_classes_iff e).mpr (Option.isSome_of_eq_some described), ih rest⟩

theorem length_chain_le {chain : List Descriptor} (up : chain.IsChain s.toHost.Extends) :
    chain.length ≤ s.size + 1 := by
  have distinct : chain.dropLast.Nodup :=
    ((pairwise_of_chain kept lineal up).imp fun above => ne_of_gt above).sublist
      (List.dropLast_sublist chain)
  have within : chain.dropLast.length ≤ s.table.classes.keys.length :=
    (distinct.subperm fun d hd =>
      Std.ExtTreeMap.mem_keys.mpr (described_of_chain up d hd)).length_le
  rw [List.length_dropLast, Std.ExtTreeMap.length_keys] at within
  exact Nat.le_add_of_sub_le within

theorem not_transGen_extends (d : Descriptor) : ¬ TransGen s.toHost.Extends d d := by
  have falls {a b : Descriptor} (way : TransGen s.toHost.Extends a b) : b < a := by
    induction way with
    | single up => exact lt_of_extends kept lineal up
    | tail _ up ih => exact (lt_of_extends kept lineal up).trans ih
  exact fun circle => lt_irrefl d (falls circle)

end Chains

structure TenureLaws (is : List Issue) (s : ClassStore) : Prop where
  root_first : is.head?.map Issue.handle = some s.root
  ascending : is.Pairwise fun i j => i.handle < j.handle
  define_new : ∀ info, (∀ i ∈ is, i.handle < (s.define info).1) ∧
    s.toHost.describe (s.define info).1 = none
  describe_eq : ∀ i ∈ is, s.toHost.describe i.handle =
    if .release i.handle ∈ i.since then none else some i.info
  describe_eq_none : ∀ h, (∀ i ∈ is, i.handle ≠ h) → s.toHost.describe h = none
  release_iff : ∀ h, (s.release h).1 = true ↔
    ∃ i ∈ is, .release i.handle ∉ i.since ∧ i.handle = h
  size_eq : s.size = (is.filter fun i => .release i.handle ∉ i.since).length
  chain_descends : Lineal is → ∀ chain : List Descriptor, chain.IsChain s.toHost.Extends →
    chain.Pairwise (· > ·) ∧ chain.length ≤ s.size + 1
  acyclic : Lineal is → ∀ d, ¬ TransGen s.toHost.Extends d d

/-- Whatever is made, released and listed, and in whatever order, a handle that is
handed out is new, and it means the class that it was handed out for until it is
released, and nothing before and after. -/
theorem tenureLaws_of_run (name : String) (run : List Change)
    (few : run.countP Change.defines < 2 ^ 57) :
    TenureLaws (history name run) ((withRoot name).performAll run) := by
  have rooted := (kept_nil ⟨firstHandle⟩).define (Nat.zero_le _) ⟨name, none, true⟩
  have room : 1 + run.countP Change.defines ≤ 2 ^ 57 := by omega
  have kept : Kept (history name run) ((withRoot name).performAll run) :=
    rooted.performAll run room
  have fresh (info : ClassInfo) : ∀ i ∈ history name run,
      i.handle < (((withRoot name).performAll run).define info).1 := by
    intro i hi
    exact (Descriptor.lt_iff_toNat_lt ..).mpr (kept.below i hi)
  exact
  { root_first := congrArg some (root_performAll (withRoot name) run).symm
    ascending := kept.ascending
    define_new info := ⟨fresh info, kept.untold _ fun i hi => ne_of_lt (fresh info i hi)⟩
    describe_eq := kept.told
    describe_eq_none := kept.untold
    release_iff h := by
      rw [release_eq_isSome]
      exact kept.isSome_describe_iff h
    size_eq := kept.size_eq
    chain_descends lineal chain up :=
      ⟨pairwise_of_chain kept lineal up, length_chain_le kept lineal up⟩
    acyclic lineal := not_transGen_extends kept lineal }

section Turnover

/-- A class is made and another one below it, the first one is released, and so is a
handle that is handed out next, for a class below the one that is gone. -/
def turnoverRun : List Change :=
  [.define ⟨"Widget", some ⟨0x1000⟩, true⟩, .enterType "Widget*" (some ⟨0x1040⟩),
    .define ⟨"Item", some ⟨0x1040⟩, false⟩, .release ⟨0x1040⟩, .release ⟨0x10c0⟩,
    .nameBaseline ⟨0x1080⟩, .define ⟨"Item", some ⟨0x1040⟩, false⟩, .release ⟨0x1040⟩]

/-- The early release of the third handle is in vain, and the released one stays a
superclass that nothing is told of. -/
theorem tenureLaws_turnoverRun :
    let s := (withRoot "Object").performAll turnoverRun
    turnoverRun.countP Change.defines < 2 ^ 57 ∧ Lineal (history "Object" turnoverRun) ∧
      (history "Object" turnoverRun).map Issue.handle =
        [⟨0x1000⟩, ⟨0x1040⟩, ⟨0x1080⟩, ⟨0x10c0⟩] ∧
      s.toHost.describe ⟨0x1040⟩ = none ∧
      s.toHost.describe ⟨0x10c0⟩ = some ⟨"Item", some ⟨0x1040⟩, false⟩ ∧ s.size = 3 ∧
      TenureLaws (history "Object" turnoverRun) s := by
  intro s
  have few : turnoverRun.countP Change.defines < 2 ^ 57 := by decide +kernel
  exact ⟨few, by decide +kernel, by decide +kernel, by decide +kernel, by decide +kernel,
    by decide +kernel, tenureLaws_of_run "Object" turnoverRun few⟩

end Turnover

end ClassStore

end ClassCensus
