import ClassCensus.Forest
import Mathlib.Data.List.Nodup

/-!
# Order of arrival

A forest grows by one class at a time: `grow` links the class to its parent and
lists it. `Sound` is what such growth keeps. The order of arrival lists the
classes on record once each, a parent comes before its children, and the children
of a class are the part of the order that has this class as its parent. The roots
are the part that has none, so both are one statement about `below`.

Nothing is assumed of the parent but that it is on record. Acyclicity is read off
the order and needs no word from the host.
-/

namespace ClassCensus

namespace Forest

def grow (f : Forest) (d : Descriptor) (p : Option Descriptor) : Forest :=
  (f.link d p).list d p

/-- What holds of a forest while no class is on its way in. -/
structure Sound (f : Forest) : Prop where
  nodup : f.order.toList.Nodup
  mem_order : ∀ d, d ∈ f.order.toList ↔ f.contains d = true
  size_parents : f.parents.size = f.order.size
  parent_before : ∀ d p, f.parent? d = some p →
    f.order.toList.idxOf p < f.order.toList.idxOf d
  below_eq : ∀ p, (f.below p).toList =
    f.order.toList.filter fun d => decide (f.parent? d = p)

theorem sound_empty : Forest.empty.Sound where
  nodup := List.nodup_nil
  mem_order d := by
    simp [empty, contains]
  size_parents := by
    simp [empty]
  parent_before d p h := by
    simp [empty, parent?] at h
  below_eq p := by
    cases p <;> simp [empty, below, childrenOf]

theorem contains_of_parent? {f : Forest} {d p : Descriptor} (h : f.parent? d = some p) :
    f.contains d = true := by
  rw [parent?] at h
  cases known : f.parents[d]? with
  | none =>
      rw [known] at h
      cases h
  | some q =>
      rw [contains, Std.ExtTreeMap.contains_eq_isSome_getElem?, known]
      rfl

theorem parent?_of_not_contains {f : Forest} {d : Descriptor} (h : f.contains d = false) :
    f.parent? d = none := by
  cases parent : f.parent? d with
  | none => rfl
  | some p =>
      rw [contains_of_parent? parent] at h
      cases h

section Grow

variable (f : Forest) (d : Descriptor) (p : Option Descriptor)

theorem parents_grow : (f.grow d p).parents = f.parents.insert d p := by
  rw [grow, parents_list]
  rfl

theorem contains_grow (e : Descriptor) :
    (f.grow d p).contains e = (decide (d = e) || f.contains e) := by
  rw [← contains_link f d e p, contains, contains, grow, parents_list]

theorem parent?_grow (e : Descriptor) :
    (f.grow d p).parent? e = if d = e then p else f.parent? e := by
  rw [← parent?_link f d e p, parent?, parent?, grow, parents_list]

theorem order_grow : (f.grow d p).order.toList = f.order.toList ++ [d] := by
  rw [grow, order_list, Array.toList_push]
  rfl

theorem below_grow (q : Option Descriptor) :
    ((f.grow d p).below q).toList =
      (f.below q).toList ++ if p = q then [d] else [] := by
  have linked : (f.link d p).below q = f.below q := by
    cases q <;> rfl
  rw [grow, below_list, linked]
  by_cases h : p = q
  · rw [if_pos h, if_pos h, Array.toList_push]
  · rw [if_neg h, if_neg h, List.append_nil]

end Grow

theorem parent?_grow_of_contains {f : Forest} {d e : Descriptor} (fresh : f.contains d = false)
    (p : Option Descriptor) (known : f.contains e = true) :
    (f.grow d p).parent? e = f.parent? e := by
  rw [parent?_grow, if_neg]
  rintro rfl
  exact Bool.false_ne_true (fresh.symm.trans known)

namespace Sound

variable {f : Forest} (sound : f.Sound)

include sound

theorem idxOf_lt_size {d : Descriptor} (h : f.contains d = true) :
    f.order.toList.idxOf d < f.size := by
  rw [Forest.size, ← Array.length_toList]
  exact List.idxOf_lt_length_of_mem ((sound.mem_order d).mpr h)

theorem parent_contains {d p : Descriptor} (h : f.parent? d = some p) :
    f.contains p = true := by
  rw [← sound.mem_order p, ← List.idxOf_lt_length_iff]
  have later := sound.idxOf_lt_size (contains_of_parent? h)
  rw [Forest.size, ← Array.length_toList] at later
  exact Nat.lt_trans (sound.parent_before d p h) later

theorem mem_below {d : Descriptor} {p : Option Descriptor} :
    d ∈ (f.below p).toList ↔ f.contains d = true ∧ f.parent? d = p := by
  rw [sound.below_eq p, List.mem_filter, sound.mem_order d, decide_eq_true_iff]

theorem mem_childrenOf {d p : Descriptor} :
    d ∈ (f.childrenOf p).toList ↔ f.parent? d = some p := by
  rw [show f.childrenOf p = f.below (some p) from rfl, sound.mem_below]
  exact ⟨fun h => h.2, fun h => ⟨contains_of_parent? h, h⟩⟩

theorem not_mem_of_fresh {d : Descriptor} (fresh : f.contains d = false) :
    d ∉ f.order.toList := by
  rw [sound.mem_order d, fresh]
  exact Bool.false_ne_true

theorem not_mem_below_of_fresh {d : Descriptor} (fresh : f.contains d = false)
    (p : Option Descriptor) : d ∉ (f.below p).toList := fun member =>
  Bool.false_ne_true (fresh.symm.trans (sound.mem_below.mp member).1)

theorem grow {d : Descriptor} {p : Option Descriptor} (fresh : f.contains d = false)
    (parent : ∀ q, p = some q → f.contains q = true) : (f.grow d p).Sound where
  nodup := by
    rw [order_grow]
    exact List.nodup_append.mpr
      ⟨sound.nodup, List.nodup_singleton d, fun a ha b hb => by
        rw [List.mem_singleton.mp hb]
        exact fun same => sound.not_mem_of_fresh fresh (same ▸ ha)⟩
  mem_order e := by
    rw [order_grow, contains_grow, List.mem_append, List.mem_singleton, sound.mem_order e,
      Bool.or_eq_true, decide_eq_true_iff, or_comm, eq_comm]
  size_parents := by
    have absent : ¬ f.parents.contains d = true := fun known =>
      Bool.false_ne_true (fresh.symm.trans known)
    have longer : (f.grow d p).order.size = f.order.size + 1 := by
      rw [← Array.length_toList, order_grow, List.length_append, Array.length_toList]
      rfl
    rw [parents_grow, Std.ExtTreeMap.size_insert, if_neg absent, sound.size_parents, longer]
  parent_before e q h := by
    rw [order_grow]
    rw [parent?_grow] at h
    by_cases same : d = e
    · rw [if_pos same] at h
      have earlier := (sound.mem_order q).mpr (parent q h)
      rw [← same, List.idxOf_append_of_mem earlier,
        List.idxOf_append_of_notMem (sound.not_mem_of_fresh fresh)]
      exact Nat.lt_of_lt_of_le (List.idxOf_lt_length_of_mem earlier) (Nat.le_add_right _ _)
    · rw [if_neg same] at h
      have child := (sound.mem_order e).mpr (contains_of_parent? h)
      have earlier := (sound.mem_order q).mpr (sound.parent_contains h)
      rw [List.idxOf_append_of_mem earlier, List.idxOf_append_of_mem child]
      exact sound.parent_before e q h
  below_eq q := by
    have older : (f.order.toList.filter fun e => decide ((f.grow d p).parent? e = q)) =
        f.order.toList.filter fun e => decide (f.parent? e = q) := by
      apply List.filter_congr
      intro e he
      have other : d ≠ e := fun same => sound.not_mem_of_fresh fresh (same ▸ he)
      rw [parent?_grow, if_neg other]
    have newest : ([d].filter fun e => decide ((f.grow d p).parent? e = q)) =
        if p = q then [d] else [] := by
      by_cases h : p = q <;> simp [parent?_grow, h]
    rw [below_grow, order_grow, List.filter_append, older, newest, sound.below_eq q]

end Sound

end Forest

end ClassCensus
