import ClassCensus.Proofs.Ascent

/-!
# How the way up ends

The classes on the way up from `d` are numbered, with `d` as number 0. An ascent looks
at them in turn, as long as they are unknown and described (`Clear`). It has an end at
the first one that is on record, or behind one that extends nothing (`Lands`), at the
first one that is not described (`Breaks`), and in any case at the first one that it has
no room for (`Exceeds`).

`Clear.climb_eq` follows the ascent along the part of the way that is clear, whatever
comes behind it, and the three ends are read off it. One of them is met within the
limit, so each of them can be told from the answer. A way that runs into a circle is
clear for good, and it exceeds every limit.
-/

namespace ClassCensus

namespace Host

variable (host : Host) (d : Descriptor)

/-- The class so many steps above `d`, if the host tells of one. -/
def above : Nat → Option Descriptor
  | 0 => some d
  | k + 1 => (above k).bind fun u => (host.describe u).bind ClassInfo.superclass

/-- What the host tells of the first `k` classes on the way up from `d`, from the top
down. -/
def chart : Nat → List Sighting
  | 0 => []
  | k + 1 =>
    ((host.above d k).bind fun u => (host.describe u).map (Sighting.mk u)).toList ++ chart k

variable {host d} {k : Nat} {u : Descriptor} {info : ClassInfo}

theorem above_succ (there : host.above d k = some u) (described : host.describe u = some info) :
    host.above d (k + 1) = info.superclass := by
  rw [above, there, Option.bind_some, described, Option.bind_some]

theorem chart_succ (there : host.above d k = some u) (described : host.describe u = some info) :
    host.chart d (k + 1) = ⟨u, info⟩ :: host.chart d k := by
  rw [chart, there, Option.bind_some, described]
  rfl

/-- Where a class comes again, the way goes on as it did the first time. -/
theorem above_add {i j : Nat} (again : host.above d i = host.above d j) (m : Nat) :
    host.above d (i + m) = host.above d (j + m) := by
  induction m with
  | zero => exact again
  | succ m ih => rw [← Nat.add_assoc, ← Nat.add_assoc, above, above, ih]

end Host

namespace Ascent

section Ends

variable (known : Descriptor → Bool) (host : Host) (d : Descriptor)

/-- The first `k` classes on the way up are unknown, and the host describes them. -/
def Clear (k : Nat) : Prop :=
  ∀ i < k, ∃ u info, host.above d i = some u ∧ known u = false ∧ host.describe u = some info

/-- The way up ends behind `k` classes, at a class on record or at none. -/
def Lands (k : Nat) : Prop :=
  Clear known host d k ∧ ∀ u, host.above d k = some u → known u = true

/-- Behind `i` classes comes an unknown one that the host does not describe. -/
def Breaks (i : Nat) (u : Descriptor) : Prop :=
  Clear known host d i ∧ host.above d i = some u ∧ known u = false ∧ host.describe u = none

/-- Behind `limit` classes there is one more that is unknown. -/
def Exceeds (limit : Nat) : Prop :=
  Clear known host d limit ∧ ∃ u, host.above d limit = some u ∧ known u = false

end Ends

variable {known : Descriptor → Bool} {host : Host} {d : Descriptor} {limit : Nat}

namespace Clear

variable {k : Nat} {u : Descriptor}

theorem succ (clear : Clear known host d k) (there : host.above d k = some u)
    (unknown : known u = false) {info : ClassInfo} (described : host.describe u = some info) :
    Clear known host d (k + 1) := by
  intro i hi
  rcases Nat.lt_succ_iff_lt_or_eq.mp hi with before | rfl
  · exact clear i before
  · exact ⟨u, info, there, unknown, described⟩

theorem pred (clear : Clear known host d (k + 1)) : Clear known host d k :=
  fun i hi => clear i (Nat.lt_succ_of_lt hi)

/-- Climbing along the clear part of the way. -/
theorem climb_eq (clear : Clear known host d k) (there : host.above d k = some u) (room : Nat)
    (below : List Sighting) :
    climb known host.describe (k + room) d below =
      climb known host.describe room u (host.chart d k ++ below) := by
  induction k generalizing u room with
  | zero =>
      cases there
      rw [Nat.zero_add, Host.chart, List.nil_append]
  | succ k ih =>
      obtain ⟨v, info, here, unknown, described⟩ := clear k k.lt_succ_self
      have next := (Host.above_succ here described).symm.trans there
      rw [Nat.add_right_comm, Nat.add_assoc, ih clear.pred here, Host.chart_succ here described]
      simp only [climb, unknown, described, next, Bool.false_eq_true, if_false, List.cons_append]

end Clear

theorem Lands.of_eq {k : Nat} (lands : Lands known host d k) (short : k ≤ limit) :
    of known host limit d = .ok ⟨host.above d k, host.chart d k⟩ := by
  obtain ⟨clear, last⟩ := lands
  obtain ⟨room, rfl⟩ := Nat.exists_eq_add_of_le short
  cases there : host.above d k with
  | some u => rw [of, clear.climb_eq there, climb_of_known (last u there), List.append_nil]
  | none =>
      cases k with
      | zero => cases there
      | succ k =>
          obtain ⟨v, info, here, unknown, described⟩ := clear k k.lt_succ_self
          have top := (Host.above_succ here described).symm.trans there
          rw [of, Nat.add_right_comm, Nat.add_assoc, clear.pred.climb_eq here,
            Host.chart_succ here described, List.append_nil]
          simp only [climb, unknown, described, top, Bool.false_eq_true, if_false]

theorem Breaks.of_eq {i : Nat} {u : Descriptor} (breaks : Breaks known host d i u)
    (short : i < limit) : of known host limit d = .error (.unresolved u) := by
  obtain ⟨clear, there, unknown, missing⟩ := breaks
  obtain ⟨room, rfl⟩ := Nat.exists_eq_add_of_lt short
  rw [of, Nat.add_assoc, clear.climb_eq there]
  simp only [climb, unknown, missing, Bool.false_eq_true, if_false]

theorem Exceeds.of_eq (exceeds : Exceeds known host d limit) :
    of known host limit d = .error (.tooDeep d limit) := by
  obtain ⟨clear, u, there, unknown⟩ := exceeds
  rw [of, ← Nat.add_zero limit, clear.climb_eq there]
  simp only [climb, unknown, Bool.false_eq_true, if_false]

/-- Whatever the host tells, the way up from an unknown class ends within the limit,
breaks off within it, or exceeds it. -/
theorem lands_or_breaks_or_exceeds (unknown : known d = false) (limit : Nat) :
    (∃ k, 1 ≤ k ∧ k ≤ limit ∧ Lands known host d k) ∨
      (∃ i < limit, ∃ u, Breaks known host d i u) ∨ Exceeds known host d limit := by
  induction limit with
  | zero => exact .inr (.inr ⟨fun _ hi => absurd hi (Nat.not_lt_zero _), d, rfl, unknown⟩)
  | succ limit ih =>
      rcases ih with ⟨k, one, short, lands⟩ | ⟨i, short, u, breaks⟩ | ⟨clear, u, there, new⟩
      · exact .inl ⟨k, one, Nat.le_succ_of_le short, lands⟩
      · exact .inr (.inl ⟨i, Nat.lt_succ_of_lt short, u, breaks⟩)
      · -- one more class is looked at
        cases described : host.describe u with
        | none => exact .inr (.inl ⟨limit, limit.lt_succ_self, u, clear, there, new, described⟩)
        | some info =>
            have further := clear.succ there new described
            by_cases last : ∀ v, host.above d (limit + 1) = some v → known v = true
            · exact .inl ⟨limit + 1, Nat.le_add_left 1 limit, Nat.le_refl _, further, last⟩
            · obtain ⟨v, rest⟩ := not_forall.mp last
              obtain ⟨next, new'⟩ := Classical.not_imp.mp rest
              exact .inr (.inr ⟨further, v, next, Bool.eq_false_iff.mpr new'⟩)

section Iff

variable (unknown : known d = false)

include unknown

theorem exists_of_eq_ok_iff :
    (∃ a, of known host limit d = .ok a) ↔
      ∃ k, 1 ≤ k ∧ k ≤ limit ∧ Lands known host d k := by
  constructor
  · rintro ⟨a, ok⟩
    rcases lands_or_breaks_or_exceeds unknown limit with lands | ⟨i, short, u, breaks⟩ | exceeds
    · exact lands
    · cases ok.symm.trans (breaks.of_eq short)
    · cases ok.symm.trans exceeds.of_eq
  · rintro ⟨k, -, short, lands⟩
    exact ⟨_, lands.of_eq short⟩

theorem of_eq_unresolved_iff {u : Descriptor} :
    of known host limit d = .error (.unresolved u) ↔
      ∃ i < limit, Breaks known host d i u := by
  constructor
  · intro failed
    rcases lands_or_breaks_or_exceeds unknown limit with
      ⟨k, -, short, lands⟩ | ⟨i, short, u', breaks⟩ | exceeds
    · cases failed.symm.trans (lands.of_eq short)
    · cases failed.symm.trans (breaks.of_eq short)
      exact ⟨i, short, breaks⟩
    · cases failed.symm.trans exceeds.of_eq
  · rintro ⟨i, short, breaks⟩
    exact breaks.of_eq short

theorem of_eq_tooDeep_iff {d' : Descriptor} {limit' : Nat} :
    of known host limit d = .error (.tooDeep d' limit') ↔
      d' = d ∧ limit' = limit ∧ Exceeds known host d limit := by
  constructor
  · intro failed
    rcases lands_or_breaks_or_exceeds unknown limit with
      ⟨k, -, short, lands⟩ | ⟨i, short, u, breaks⟩ | exceeds
    · cases failed.symm.trans (lands.of_eq short)
    · cases failed.symm.trans (breaks.of_eq short)
    · cases failed.symm.trans exceeds.of_eq
      exact ⟨rfl, rfl, exceeds⟩
  · rintro ⟨rfl, rfl, exceeds⟩
    exact exceeds.of_eq

end Iff

/-- A way that comes to a class again is clear for good. -/
theorem Clear.exceeds_of_again {i j : Nat} (clear : Clear known host d j) (before : i < j)
    (again : host.above d i = host.above d j) (limit : Nat) : Exceeds known host d limit := by
  have forever : ∀ n, ∃ u info,
      host.above d n = some u ∧ known u = false ∧ host.describe u = some info := by
    intro n
    induction n using Nat.strongRecOn with
    | ind n ih =>
        rcases Nat.lt_or_ge n j with first | later
        · exact clear n first
        · obtain ⟨m, rfl⟩ := Nat.exists_eq_add_of_le later
          rw [← Host.above_add again m]
          exact ih (i + m) (Nat.add_lt_add_right before m)
  obtain ⟨u, _, there, unknown, _⟩ := forever limit
  exact ⟨fun n _ => forever n, u, there, unknown⟩

end Ascent

end ClassCensus
