import ClassCensus.Proofs.Pool
import Mathlib.Data.List.Induction

/-!
# A pool holds what was put in and not taken out

The members of a pool are kept in order, and a slot is found by bisection. Which of
several equal slots a search comes to is its own affair: `Grown` leaves it open, and
takes any slot of the class that is to go. `Grown.unique` says that nothing hangs on it,
as long as the members ascend, and they do in whatever is made of an empty pool.

So a pool is a multiset. How often it holds a class is the number of times that the
class was put in less the number of times that it was taken out, and a pool is settled
by that, whatever was done to get there.
-/

namespace ClassCensus

inductive Pool.Change
  | add (x : Descriptor)
  | remove (x : Descriptor)
deriving DecidableEq

namespace Pool

def perform (p : Pool) : Change → Bool × Pool
  | .add x => (true, p.insert x)
  | .remove x => ((p.erase? x).isSome, p.erase x)

def performAll : Pool → List Change → Pool
  | p, [] => p
  | p, c :: run => performAll (p.perform c).2 run

def record : Pool → List Change → List (Change × Bool)
  | _, [] => []
  | p, c :: run => (c, (p.perform c).1) :: record (p.perform c).2 run

theorem performAll_concat (p : Pool) (run : List Change) (c : Change) :
    p.performAll (run ++ [c]) = ((p.performAll run).perform c).2 := by
  induction run generalizing p with
  | nil => rfl
  | cons b run ih => exact ih (p.perform b).2

theorem record_concat (p : Pool) (run : List Change) (c : Change) :
    p.record (run ++ [c]) = p.record run ++ [(c, ((p.performAll run).perform c).1)] := by
  induction run generalizing p with
  | nil => rfl
  | cons b run ih => exact congrArg _ (ih (p.perform b).2)

section Ascending

variable {p : Pool} (ascending : p.Ascending)

include ascending

theorem contains_iff_count_pos (x : Descriptor) : p.contains x = true ↔ 0 < p.toList.count x := by
  rw [contains_iff ascending, List.count_pos_iff]

theorem count_insert (x y : Descriptor) :
    (p.insert x).toList.count y = p.toList.count y + if x = y then 1 else 0 := by
  rw [(perm_insert ascending x).count_eq, List.count_cons]
  simp only [beq_iff_eq]

theorem count_erase (x y : Descriptor) :
    (p.erase x).toList.count y + (if x = y ∧ p.contains x = true then 1 else 0) =
      p.toList.count y := by
  by_cases held : p.contains x = true
  · rw [(perm_erase ascending x ((contains_iff ascending x).mp held)).count_eq, List.count_cons]
    simp only [held, and_true, beq_iff_eq]
  · rw [erase_of_not_contains (Bool.eq_false_iff.mpr held), if_neg fun both => held both.2,
      Nat.add_zero]

/-- It makes no difference which of its slots a class gives up. -/
theorem eraseIdx_eq_erase {i : Nat} (held : i < p.members.size) :
    (⟨p.members.eraseIdx i held⟩ : Pool) = p.erase p.members[i] := by
  have listed : (⟨p.members.eraseIdx i held⟩ : Pool).toList = p.toList.eraseIdx i :=
    Array.toList_eraseIdx ..
  have there : p.members[i] ∈ p.toList := Array.getElem_mem_toList held
  have taken : (p.members[i] :: p.toList.eraseIdx i).Perm p.toList :=
    List.getElem_cons_eraseIdx_perm (l := p.toList) held
  refine eq_of_perm ?_ (ascending_erase ascending _) ?_
  · unfold Ascending
    rw [listed]
    exact ascending.sublist (List.eraseIdx_sublist _ _)
  · rw [listed]
    exact (taken.trans (perm_erase ascending _ there)).cons_inv

/-- A removal of a member does what it would at any of its slots. -/
theorem perform_remove_getElem {i : Nat} (held : i < p.members.size) :
    p.perform (.remove p.members[i]) = (true, ⟨p.members.eraseIdx i held⟩) := by
  have there : p.contains p.members[i] = true :=
    (contains_iff ascending _).mpr (Array.getElem_mem_toList held)
  rw [perform, isSome_erase?, there, eraseIdx_eq_erase ascending held]

theorem perform_remove_of_not_mem {x : Descriptor} (absent : x ∉ p.toList) :
    p.perform (.remove x) = (false, p) := by
  have nowhere : p.contains x = false := by
    rw [← Bool.not_eq_true, contains_iff ascending]
    exact absent
  rw [perform, isSome_erase?, nowhere, erase_of_not_contains nowhere]

theorem ascending_perform (c : Change) : (p.perform c).2.Ascending := by
  cases c with
  | add x => exact ascending_insert ascending x
  | remove x => exact ascending_erase ascending x

/-- One change moves the number of slots of a class by what is put on record of it. -/
theorem count_perform (c : Change) (x : Descriptor) :
    (p.perform c).2.toList.count x + (if (c, (p.perform c).1) = (.remove x, true) then 1 else 0) =
      p.toList.count x + if c = .add x then 1 else 0 := by
  cases c with
  | add y =>
      rw [perform, count_insert ascending]
      simp
  | remove y =>
      have counted := count_erase ascending y x
      simp only [perform, isSome_erase?, Prod.mk.injEq, Change.remove.injEq, reduceCtorEq,
        if_false, Nat.add_zero]
      exact counted

theorem ascending_performAll (run : List Change) : (p.performAll run).Ascending := by
  induction run generalizing p with
  | nil => exact ascending
  | cons c run ih => exact ih (ascending_perform ascending c)

theorem count_performAll (run : List Change) (x : Descriptor) :
    (p.performAll run).toList.count x + (p.record run).count (.remove x, true) =
      p.toList.count x + run.count (.add x) := by
  induction run generalizing p with
  | nil => rfl
  | cons c run ih =>
      have first := count_perform ascending c x
      have rest := ih (ascending_perform ascending c)
      simp only [performAll, record, List.count_cons, beq_iff_eq]
      omega

theorem eq_iff_count_eq {q : Pool} (ascending' : q.Ascending) :
    p = q ↔ ∀ x, p.toList.count x = q.toList.count x := by
  constructor
  · rintro rfl x
    rfl
  · intro same
    exact eq_of_perm ascending ascending' (List.perm_iff_count.mpr same)

end Ascending

/-- `Grown past p`: the changes `past`, with these answers, can have led from an empty
pool to `p`. A removal takes any slot of its class and fails where there is none. -/
inductive Grown : List (Change × Bool) → Pool → Prop
  | empty : Grown [] ∅
  | add {past : List (Change × Bool)} {p : Pool} (grown : Grown past p) (x : Descriptor) :
    Grown (past ++ [(.add x, true)]) (p.insert x)
  | take {past : List (Change × Bool)} {p : Pool} (grown : Grown past p) {i : Nat}
    (held : i < p.members.size) :
    Grown (past ++ [(.remove p.members[i], true)]) ⟨p.members.eraseIdx i held⟩
  | miss {past : List (Change × Bool)} {p : Pool} (grown : Grown past p) {x : Descriptor}
    (absent : x ∉ p.toList) : Grown (past ++ [(.remove x, false)]) p

theorem record_performAll_concat {past : List (Change × Bool)} {p q : Pool} {c : Change} {b : Bool}
    (made : past = (∅ : Pool).record (past.map Prod.fst) ∧
      p = (∅ : Pool).performAll (past.map Prod.fst)) (goes : p.perform c = (b, q)) :
    past ++ [(c, b)] = (∅ : Pool).record ((past ++ [(c, b)]).map Prod.fst) ∧
      q = (∅ : Pool).performAll ((past ++ [(c, b)]).map Prod.fst) := by
  rw [List.map_append, List.map_singleton, record_concat, performAll_concat, ← made.1, ← made.2,
    goes]
  exact ⟨rfl, rfl⟩

/-- Whichever slots were taken, the answers and the members are those of the changes. -/
theorem Grown.unique {past : List (Change × Bool)} {p : Pool} (grown : Grown past p) :
    past = (∅ : Pool).record (past.map Prod.fst) ∧
      p = (∅ : Pool).performAll (past.map Prod.fst) := by
  induction grown with
  | empty => exact ⟨rfl, rfl⟩
  | add _ x ih => exact record_performAll_concat ih rfl
  | @take past p _ i held ih =>
      have ascending : p.Ascending := ih.2 ▸ ascending_performAll ascending_empty _
      exact record_performAll_concat ih (perform_remove_getElem ascending held)
  | @miss past p _ x absent ih =>
      have ascending : p.Ascending := ih.2 ▸ ascending_performAll ascending_empty _
      exact record_performAll_concat ih (perform_remove_of_not_mem ascending absent)

/-- The slots that bisection finds are among those that may be taken. -/
theorem grown_performAll (run : List Change) :
    Grown ((∅ : Pool).record run) ((∅ : Pool).performAll run) := by
  induction run using List.reverseRecOn with
  | nil => exact .empty
  | append_singleton run c ih =>
      have ascending := ascending_performAll ascending_empty run
      rw [record_concat, performAll_concat]
      generalize (∅ : Pool).performAll run = p at ih ascending
      cases c with
      | add x => exact .add ih x
      | remove x =>
          by_cases held : x ∈ p.toList
          · obtain ⟨i, there, rfl⟩ := Array.getElem_of_mem (Array.mem_toList_iff.mp held)
            rw [perform_remove_getElem ascending there]
            exact .take ih there
          · rw [perform_remove_of_not_mem ascending held]
            exact .miss ih held

structure MultisetLaws (run : List Change) (p : Pool) : Prop where
  ascending : p.toList.Pairwise (· ≤ ·)
  count_eq : ∀ x, p.toList.count x + ((∅ : Pool).record run).count (.remove x, true) =
    run.count (.add x)
  remove_iff : ∀ x, (p.perform (.remove x)).1 = true ↔ 0 < p.toList.count x
  remove_present : ∀ x, 0 < p.toList.count x →
    p.toList.Perm (x :: (p.perform (.remove x)).2.toList)
  remove_absent : ∀ x, p.toList.count x = 0 → (p.perform (.remove x)).2 = p
  contains_iff : ∀ x, p.contains x = true ↔ 0 < p.toList.count x
  least?_eq_some_iff : ∀ x, p.least? = some x ↔ x ∈ p.toList ∧ ∀ y ∈ p.toList, x ≤ y
  least?_eq_none_iff : p.least? = none ↔ p.isEmpty = true
  eq_iff : ∀ run', p = (∅ : Pool).performAll run' ↔
    ∀ x, p.toList.count x = ((∅ : Pool).performAll run').toList.count x
  any_slot : ∀ past q, past.map Prod.fst = run →
    (Grown past q ↔ past = (∅ : Pool).record run ∧ q = p)

/-- Whatever is put into an empty pool and taken out of it, and whichever of several equal
slots is taken, it is a sorted multiset of what was put in and not taken out. -/
theorem multisetLaws (run : List Change) : MultisetLaws run ((∅ : Pool).performAll run) := by
  have ascending := ascending_performAll ascending_empty run
  have counted (x : Descriptor) := contains_iff_count_pos ascending x
  exact
  { ascending := ascending
    count_eq x := by
      rw [count_performAll ascending_empty, toList_empty, List.count_nil, Nat.zero_add]
    remove_iff x := by
      rw [perform, isSome_erase?, counted]
    remove_present x held := perm_erase ascending x (List.count_pos_iff.mp held)
    remove_absent x none := by
      rw [perform_remove_of_not_mem ascending (List.count_eq_zero.mp none)]
    contains_iff := counted
    least?_eq_some_iff := Pool.least?_eq_some_iff ascending
    least?_eq_none_iff := by
      rw [Pool.least?_eq_none_iff, toList, isEmpty, Array.toList_eq_nil_iff, Array.isEmpty_iff]
    eq_iff run' := eq_iff_count_eq ascending (ascending_performAll ascending_empty run')
    any_slot past q asked := by
      constructor
      · intro grown
        exact asked ▸ grown.unique
      · rintro ⟨rfl, rfl⟩
        exact grown_performAll run }

end Pool

end ClassCensus
