import ClassCensus.Json.Numeral

/-!
# Passing over a value

A value that nobody asked for is read only to find its end. Lists and objects may be
nested to any depth, so the brackets that are open are kept in a list, the innermost
first, and the reading is one loop instead of a recursion on the nesting.

A `Place` says what may come next and what is open. `Place.step` reads one piece there,
a bracket, a mark, a key or a value without parts, and moves on. The loop is left where
a value is complete and no bracket is open.
-/

namespace ClassCensus.Json

inductive Bracket
  | list
  | object
deriving DecidableEq

namespace Bracket

def closing : Bracket → Char
  | list => ']'
  | object => '}'

end Bracket

inductive Stage
  | value
  /-- The first part of what was just opened, or its end. -/
  | first
  | key
  | colon
  /-- A comma or the end of what is open. -/
  | after
deriving DecidableEq

def Bracket.next : Bracket → Stage
  | list => .value
  | object => .key

/-- Where a reader stands inside a value: what may come next, and the open brackets. -/
structure Place where
  stage : Stage
  opened : List Bracket
deriving DecidableEq

namespace Place

def start : Place := ⟨.value, []⟩

def done : Place := ⟨.after, []⟩

def stepKey (opened : List Bracket) (c : Char) (r : List Char) :
    Except Fault (Place × List Char) :=
  if c = '"' then (Text.skip r).map fun t => (⟨.colon, opened⟩, t)
  else .error .malformed

def stepValue (opened : List Bracket) (c : Char) (r : List Char) :
    Except Fault (Place × List Char) :=
  if c = '[' then .ok (⟨.first, .list :: opened⟩, r)
  else if c = '{' then .ok (⟨.first, .object :: opened⟩, r)
  else if c = '"' then (Text.skip r).map fun t => (⟨.after, opened⟩, t)
  else if c = 'n' then (word ['u', 'l', 'l'] r).map fun t => (⟨.after, opened⟩, t)
  else if c = 't' then (word ['r', 'u', 'e'] r).map fun t => (⟨.after, opened⟩, t)
  else if c = 'f' then (word ['a', 'l', 's', 'e'] r).map fun t => (⟨.after, opened⟩, t)
  else if Numeral.startsWith c then
    (Numeral.skip (c :: r)).map fun t => (⟨.after, opened⟩, t)
  else .error .malformed

def step (p : Place) (c : Char) (r : List Char) : Except Fault (Place × List Char) :=
  match p.stage, p.opened with
  | .value, opened => stepValue opened c r
  | .key, opened => stepKey opened c r
  | .colon, opened => if c = ':' then .ok (⟨.value, opened⟩, r) else .error .malformed
  | .first, [] => .error .malformed
  | .first, b :: outer =>
    if c = b.closing then .ok (⟨.after, outer⟩, r)
    else
      match b with
      | .list => stepValue (b :: outer) c r
      | .object => stepKey (b :: outer) c r
  | .after, [] => .error .malformed
  | .after, b :: outer =>
    if c = b.closing then .ok (⟨.after, outer⟩, r)
    else if c = ',' then .ok (⟨b.next, b :: outer⟩, r)
    else .error .malformed

theorem length_of_stepKey {opened : List Bracket} {c : Char} {r t : List Char} {q : Place}
    (h : stepKey opened c r = .ok (q, t)) : t.length ≤ r.length := by
  unfold stepKey at h
  split at h
  · obtain ⟨u, e, eq⟩ := map_eq_ok h
    have := Text.length_of_skip e
    simp only [Prod.mk.injEq] at eq
    simp only [← eq.2]
    omega
  · simp at h

theorem length_of_stepValue {opened : List Bracket} {c : Char} {r t : List Char} {q : Place}
    (h : stepValue opened c r = .ok (q, t)) : t.length ≤ r.length := by
  unfold stepValue at h
  split at h
  · simp only [Except.ok.injEq, Prod.mk.injEq] at h
    simp [h.2]
  split at h
  · simp only [Except.ok.injEq, Prod.mk.injEq] at h
    simp [h.2]
  split at h
  · obtain ⟨u, e, eq⟩ := map_eq_ok h
    simp only [Prod.mk.injEq] at eq
    exact eq.2 ▸ Nat.le_of_lt (Text.length_of_skip e)
  split at h
  · obtain ⟨u, e, eq⟩ := map_eq_ok h
    simp only [Prod.mk.injEq] at eq
    exact eq.2 ▸ length_of_word e
  split at h
  · obtain ⟨u, e, eq⟩ := map_eq_ok h
    simp only [Prod.mk.injEq] at eq
    exact eq.2 ▸ length_of_word e
  split at h
  · obtain ⟨u, e, eq⟩ := map_eq_ok h
    simp only [Prod.mk.injEq] at eq
    exact eq.2 ▸ length_of_word e
  split at h
  · obtain ⟨u, e, eq⟩ := map_eq_ok h
    simp only [Prod.mk.injEq] at eq
    have := Numeral.length_of_skip e
    simp only [List.length_cons] at this
    exact eq.2 ▸ Nat.le_of_lt_succ this
  · simp at h

theorem length_of_step {p q : Place} {c : Char} {r t : List Char}
    (h : p.step c r = .ok (q, t)) : t.length ≤ r.length := by
  unfold step at h
  split at h
  · exact length_of_stepValue h
  · exact length_of_stepKey h
  · split at h
    · simp only [Except.ok.injEq, Prod.mk.injEq] at h
      simp [h.2]
    · simp at h
  · simp at h
  · split at h
    · simp only [Except.ok.injEq, Prod.mk.injEq] at h
      simp [h.2]
    · split at h
      · exact length_of_stepValue h
      · exact length_of_stepKey h
  · simp at h
  · split at h
    · simp only [Except.ok.injEq, Prod.mk.injEq] at h
      simp [h.2]
    · split at h
      · simp only [Except.ok.injEq, Prod.mk.injEq] at h
        simp [h.2]
      · simp at h

end Place

def skim (p : Place) (s : List Char) : Except Fault (List Char) :=
  if p = Place.done then .ok s
  else
    match s with
    | [] => .error .truncated
    | c :: r =>
      if isBlank c then skim p r
      else
        match h : p.step c r with
        | .error f => .error f
        | .ok (q, t) =>
          have := Place.length_of_step h
          skim q t
termination_by s.length

@[simp] theorem skim_done (s : List Char) : skim Place.done s = .ok s := by
  unfold skim
  simp

theorem length_of_skim {p : Place} {s r : List Char} (h : skim p s = .ok r) :
    r.length ≤ s.length := by
  fun_induction skim p s with
  | case1 s =>
    simp only [Except.ok.injEq] at h
    simp [h]
  | case2 => simp at h
  | case3 p apart c t blank ih =>
    have := ih h
    simp only [List.length_cons]
    omega
  | case4 => simp at h
  | case5 p apart c t blank q u step _ ih =>
    have := ih h
    have := Place.length_of_step step
    simp only [List.length_cons]
    omega

def skipValue (s : List Char) : Except Fault (List Char) :=
  skim Place.start s

end ClassCensus.Json
