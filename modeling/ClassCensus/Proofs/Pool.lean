import ClassCensus.Pool
import Mathlib.Data.List.Perm.Basic
import Mathlib.Order.Lattice

/-!
# Pools as sorted multisets

`Ascending p` says that the members of `p` do not descend. Bisection is right on
such members and on no others: it finds the place where those below `x` end. So
an insertion puts `x` there and keeps the order, a removal takes a slot of `x` if
there is one, and both are told by permutations: `insert` adds one `x` to the
members and `erase` takes one away.

The order of handles is the one of their words.
-/

namespace ClassCensus

theorem Descriptor.toNat_injective :
    Function.Injective fun d : Descriptor => d.handle.toNat := by
  intro a b h
  exact Descriptor.ext (UInt64.toNat_inj.mp h)

theorem Descriptor.lt_iff_toNat_lt (a b : Descriptor) :
    a < b ↔ a.handle.toNat < b.handle.toNat :=
  (Descriptor.lt_def a b).trans UInt64.lt_iff_toNat_lt

instance : LinearOrder Descriptor where
  le a b := a.handle.toNat ≤ b.handle.toNat
  lt a b := a < b
  le_refl a := Nat.le_refl _
  le_trans a b c := Nat.le_trans
  le_antisymm a b h h' := Descriptor.toNat_injective (Nat.le_antisymm h h')
  le_total a b := Nat.le_total _ _
  lt_iff_le_not_ge a b := by
    rw [Descriptor.lt_iff_toNat_lt]
    exact Nat.lt_iff_le_and_not_ge
  toDecidableLE a b := inferInstanceAs (Decidable (a.handle.toNat ≤ b.handle.toNat))
  compare_eq_compareOfLessAndEq a b := by
    rw [Descriptor.compare_def, compareOfLessAndEq]
    by_cases below : a < b
    · rw [if_pos below]
      exact Std.compare_eq_lt.mpr below
    · rw [if_neg below]
      by_cases same : a = b
      · rw [if_pos same, same]
        exact Std.ReflCmp.compare_self
      · rw [if_neg same]
        have above : b.handle < a.handle := by
          rw [UInt64.lt_iff_toNat_lt]
          rw [Descriptor.lt_iff_toNat_lt, Nat.not_lt] at below
          exact Nat.lt_of_le_of_ne below fun h => same (Descriptor.toNat_injective h.symm)
        exact Std.compare_eq_gt.mpr above

namespace Pool

def Ascending (p : Pool) : Prop :=
  p.toList.Pairwise (· ≤ ·)

/-- Bisection parts what is below `x` from the rest, if it starts with bounds that do. -/
theorem bisect_parts {a : Array Descriptor} (ascending : a.toList.Pairwise (· ≤ ·))
    (x : Descriptor) (lo hi : Nat) (bound : hi ≤ a.size)
    (left : ∀ (i : Nat) (h : i < a.size), i < lo → a[i] < x)
    (right : ∀ (i : Nat) (h : i < a.size), hi ≤ i → x ≤ a[i]) :
    (∀ (i : Nat) (h : i < a.size), i < bisect a x lo hi bound → a[i] < x) ∧
      ∀ (i : Nat) (h : i < a.size), bisect a x lo hi bound ≤ i → x ≤ a[i] := by
  have ordered : ∀ (i j : Nat) (hi : i < a.size) (hj : j < a.size), i ≤ j → a[i] ≤ a[j] := by
    intro i j hi hj before
    rcases Nat.lt_or_eq_of_le before with strictly | same
    · exact List.pairwise_iff_getElem.mp ascending i j hi hj strictly
    · subst same
      exact le_refl _
  fun_induction bisect a x lo hi bound with
  | case1 lo hi bound apart inside below ih =>
      refine ih (fun i h before => ?_) right
      exact lt_of_le_of_lt (ordered i _ h inside (Nat.le_of_lt_succ before)) below
  | case2 lo hi bound apart inside above ih =>
      refine ih left fun i h behind => ?_
      exact le_trans (not_lt.mp above) (ordered _ i inside h behind)
  | case3 lo hi bound shut =>
      exact ⟨left, fun i h behind => right i h (Nat.le_trans (Nat.le_of_not_lt shut) behind)⟩

section Rank

variable {p : Pool} (ascending : p.Ascending) (x : Descriptor)

include ascending

theorem lt_of_lt_rank (i : Nat) (h : i < p.members.size) (before : i < rank p.members x) :
    p.members[i] < x :=
  (bisect_parts ascending x 0 p.members.size (Nat.le_refl _)
    (fun _ _ none => absurd none (Nat.not_lt_zero _))
    (fun _ h none => absurd h (Nat.not_lt_of_le none))).1 i h before

theorem le_of_rank_le (i : Nat) (h : i < p.members.size) (behind : rank p.members x ≤ i) :
    x ≤ p.members[i] :=
  (bisect_parts ascending x 0 p.members.size (Nat.le_refl _)
    (fun _ _ none => absurd none (Nat.not_lt_zero _))
    (fun _ h none => absurd h (Nat.not_lt_of_le none))).2 i h behind

/-- An insertion parts the members into those below `x` and the rest. -/
theorem exists_parts : ∃ low high, p.toList = low ++ high ∧ low.length = rank p.members x ∧
    (∀ y ∈ low, y < x) ∧ (∀ y ∈ high, x ≤ y) ∧ (p.insert x).toList = low ++ x :: high := by
  obtain ⟨low, high, parts, length, inserted⟩ :=
    List.exists_of_modifyTailIdx (List.cons x) (l := p.toList) (rank_le p.members x)
  refine ⟨low, high, parts, length, fun y hy => ?_, fun y hy => ?_, ?_⟩
  · obtain ⟨i, inside, rfl⟩ := List.getElem_of_mem hy
    have whole : i < p.toList.length := by
      rw [parts, List.length_append]
      exact Nat.lt_add_right _ inside
    have same : p.toList[i] = low[i] := by
      simp only [parts, List.getElem_append_left inside]
    rw [← same]
    exact lt_of_lt_rank ascending x i whole (length ▸ inside)
  · obtain ⟨i, inside, rfl⟩ := List.getElem_of_mem hy
    have whole : low.length + i < p.toList.length := by
      rw [parts, List.length_append]
      exact Nat.add_lt_add_left inside _
    have same : p.toList[low.length + i] = high[i] := by
      simp only [parts, List.getElem_append_right (Nat.le_add_right _ _),
        Nat.add_sub_cancel_left]
    rw [← same]
    exact le_of_rank_le ascending x _ whole (length ▸ Nat.le_add_right _ _)
  · rw [toList_insert]
    exact inserted

theorem perm_insert : (p.insert x).toList.Perm (x :: p.toList) := by
  obtain ⟨low, high, parts, _, _, _, inserted⟩ := exists_parts ascending x
  rw [inserted, parts]
  exact List.perm_middle

theorem ascending_insert : (p.insert x).Ascending := by
  obtain ⟨low, high, parts, _, below, above, inserted⟩ := exists_parts ascending x
  unfold Ascending at ascending ⊢
  rw [parts, List.pairwise_append] at ascending
  obtain ⟨lows, highs, _⟩ := ascending
  rw [inserted, List.pairwise_append, List.pairwise_cons]
  refine ⟨lows, ⟨above, highs⟩, fun y hy z hz => ?_⟩
  rcases List.mem_cons.mp hz with rfl | behind
  · exact le_of_lt (below y hy)
  · exact le_trans (le_of_lt (below y hy)) (above z behind)

theorem getElem?_rank (h : x ∈ p.toList) : p.members[rank p.members x]? = some x := by
  obtain ⟨low, high, parts, length, below, above, _⟩ := exists_parts ascending x
  rw [parts, List.mem_append] at h
  have behind : x ∈ high := h.resolve_left fun before => lt_irrefl _ (below x before)
  rw [← Array.getElem?_toList, ← length, show p.members.toList = low ++ high from parts,
    List.getElem?_append_right (Nat.le_refl _), Nat.sub_self]
  cases high with
  | nil => cases behind
  | cons y high =>
      rcases List.mem_cons.mp behind with same | later
      · rw [same]
        rfl
      · unfold Ascending at ascending
        rw [parts, List.pairwise_append, List.pairwise_cons] at ascending
        exact congrArg some
          (le_antisymm (ascending.2.1.1 x later) (above y List.mem_cons_self))

theorem contains_iff : p.contains x = true ↔ x ∈ p.toList := by
  constructor
  · intro h
    exact Array.mem_toList_iff.mpr (Array.mem_of_getElem? (beq_iff_eq.mp h))
  · intro h
    exact beq_iff_eq.mpr (getElem?_rank ascending x h)

theorem toList_erase (h : x ∈ p.toList) :
    p.toList[rank p.members x]? = some x ∧
      (p.erase x).toList = p.toList.eraseIdx (rank p.members x) := by
  have found := getElem?_rank ascending x h
  obtain ⟨held, here⟩ := Array.getElem?_eq_some_iff.mp found
  refine ⟨?_, ?_⟩
  · rw [toList, Array.getElem?_toList, found]
  · simp [erase, erase?, held, here, toList]

theorem perm_erase (h : x ∈ p.toList) : p.toList.Perm (x :: (p.erase x).toList) := by
  obtain ⟨found, erased⟩ := toList_erase ascending x h
  obtain ⟨held, here⟩ := List.getElem?_eq_some_iff.mp found
  have taken := List.getElem_cons_eraseIdx_perm held
  rw [here] at taken
  rw [erased]
  exact taken.symm

theorem ascending_erase : (p.erase x).Ascending := by
  by_cases held : x ∈ p.toList
  · unfold Ascending
    rw [(toList_erase ascending x held).2]
    exact ascending.sublist (List.eraseIdx_sublist _ _)
  · rw [← contains_iff ascending x, Bool.not_eq_true] at held
    rw [erase_of_not_contains held]
    exact ascending

omit x in
theorem least?_eq_some_iff (x : Descriptor) :
    p.least? = some x ↔ x ∈ p.toList ∧ ∀ y ∈ p.toList, x ≤ y := by
  have head : p.least? = p.toList[0]? := (Array.getElem?_toList ..).symm
  rw [head]
  unfold Ascending at ascending
  cases members : p.toList with
  | nil => simp
  | cons z rest =>
      rw [members, List.pairwise_cons] at ascending
      rw [List.getElem?_cons_zero, Option.some.injEq]
      constructor
      · rintro rfl
        refine ⟨List.mem_cons_self, fun y hy => ?_⟩
        rcases List.mem_cons.mp hy with rfl | later
        · exact le_refl _
        · exact ascending.1 y later
      · rintro ⟨found, least⟩
        rcases List.mem_cons.mp found with same | later
        · exact same.symm
        · exact le_antisymm (ascending.1 x later) (least z List.mem_cons_self)

end Rank

theorem ascending_empty : (∅ : Pool).Ascending :=
  List.Pairwise.nil

/-- Two pools that have the same members as often list them in the same way. -/
theorem eq_of_perm {p q : Pool} (ascending : p.Ascending) (ascending' : q.Ascending)
    (perm : p.toList.Perm q.toList) : p = q := by
  have same : p.toList = q.toList :=
    perm.eq_of_pairwise (fun _ _ _ _ => le_antisymm) ascending ascending'
  exact Pool.ext (Array.toList_inj.mp same)

/-- A removal takes back an insertion, whichever of the equal slots it takes. -/
theorem erase_insert {p : Pool} (ascending : p.Ascending) (x : Descriptor) :
    (p.insert x).erase x = p := by
  have ordered := ascending_insert ascending x
  have more := perm_insert ascending x
  have less := perm_erase ordered x (more.mem_iff.mpr List.mem_cons_self)
  refine eq_of_perm (ascending_erase ordered x) ascending ?_
  exact (less.symm.trans more).cons_inv

theorem least?_eq_none_iff (p : Pool) : p.least? = none ↔ p.toList = [] := by
  rw [least?, Array.getElem?_eq_none_iff, Nat.le_zero, toList, Array.toList_eq_nil_iff,
    Array.size_eq_zero_iff]

end Pool

end ClassCensus
