import ClassCensus.Json.Text

/-!
# Numerals

A numeral is read as it is written: a sign, the digits before the point, those behind it
and those of the exponent. Its value is a question for later, and for most numerals
nobody asks it.

A digit has to follow a sign, a point and the mark of an exponent. Where the text ends
instead, it is too short; another character is malformed. A leading zero stands alone
before the point.
-/

namespace ClassCensus.Json

structure Numeral where
  negative : Bool
  whole : List Char
  /-- The digits behind the point, if there is one. -/
  fraction : Option (List Char)
  /-- Whether the exponent is negative, and its digits, if there is one. -/
  exponent : Option (Bool × List Char)
deriving DecidableEq

namespace Numeral

def startsWith (c : Char) : Bool :=
  c == '-' || c.isDigit

/-- All digits at the start, of which there has to be one. -/
def digits : List Char → Except Fault (List Char × List Char)
  | [] => .error .truncated
  | c :: r =>
    if c.isDigit then .ok (c :: r.takeWhile Char.isDigit, r.dropWhile Char.isDigit)
    else .error .malformed

theorem length_of_digits {s ds r : List Char} (h : digits s = .ok (ds, r)) :
    r.length < s.length := by
  unfold digits at h
  split at h
  · simp at h
  next c t =>
    split at h
    · have := (List.dropWhile_sublist (l := t) Char.isDigit).length_le
      simp only [Except.ok.injEq, Prod.mk.injEq] at h
      simp only [← h.2, List.length_cons]
      omega
    · simp at h

/-- The digits before the point: a zero, or digits that start with another one. -/
def wholePart (s : List Char) : Except Fault (List Char × List Char) :=
  match digits s with
  | .error f => .error f
  | .ok ('0' :: _ :: _, _) => .error .malformed
  | .ok (ds, r) => .ok (ds, r)

theorem length_of_wholePart {s ds r : List Char} (h : wholePart s = .ok (ds, r)) :
    r.length < s.length := by
  unfold wholePart at h
  split at h
  · simp at h
  · simp at h
  next e =>
    simp only [Except.ok.injEq, Prod.mk.injEq] at h
    exact h.2 ▸ length_of_digits e

def fractionPart : List Char → Except Fault (Option (List Char) × List Char)
  | [] => .ok (none, [])
  | c :: r =>
    if c = '.' then (digits r).map fun p => (some p.1, p.2)
    else .ok (none, c :: r)

def sign : List Char → Bool × List Char
  | [] => (false, [])
  | c :: r =>
    if c = '-' then (true, r)
    else if c = '+' then (false, r)
    else (false, c :: r)

def exponentPart : List Char → Except Fault (Option (Bool × List Char) × List Char)
  | [] => .ok (none, [])
  | c :: r =>
    if c = 'e' ∨ c = 'E' then
      (digits (sign r).2).map fun p => (some ((sign r).1, p.1), p.2)
    else .ok (none, c :: r)

theorem length_sign_le (s : List Char) : (sign s).2.length ≤ s.length := by
  unfold sign
  split
  · simp
  · split
    · simp
    · split <;> simp

theorem length_of_fractionPart {s r : List Char} {o : Option (List Char)}
    (h : fractionPart s = .ok (o, r)) : r.length ≤ s.length := by
  unfold fractionPart at h
  split at h
  · simp only [Except.ok.injEq, Prod.mk.injEq] at h
    simp [← h.2]
  next c t =>
    split at h
    · obtain ⟨p, hp, eq⟩ := map_eq_ok h
      have := length_of_digits (show digits t = .ok (p.1, p.2) from hp)
      simp only [Prod.mk.injEq] at eq
      simp only [← eq.2, List.length_cons]
      omega
    · simp only [Except.ok.injEq, Prod.mk.injEq] at h
      simp [← h.2]

theorem length_of_exponentPart {s r : List Char} {o : Option (Bool × List Char)}
    (h : exponentPart s = .ok (o, r)) : r.length ≤ s.length := by
  unfold exponentPart at h
  split at h
  · simp only [Except.ok.injEq, Prod.mk.injEq] at h
    simp [← h.2]
  next c t =>
    split at h
    · obtain ⟨p, hp, eq⟩ := map_eq_ok h
      have := length_of_digits (show digits (sign t).2 = .ok (p.1, p.2) from hp)
      have := length_sign_le t
      simp only [Prod.mk.injEq] at eq
      simp only [← eq.2, List.length_cons]
      omega
    · simp only [Except.ok.injEq, Prod.mk.injEq] at h
      simp [← h.2]

def readUnsigned (negative : Bool) (s : List Char) : Except Fault (Numeral × List Char) :=
  match wholePart s with
  | .error f => .error f
  | .ok (ds, r) =>
    match fractionPart r with
    | .error f => .error f
    | .ok (fs, t) =>
      match exponentPart t with
      | .error f => .error f
      | .ok (es, u) => .ok (⟨negative, ds, fs, es⟩, u)

def read : List Char → Except Fault (Numeral × List Char)
  | [] => .error .truncated
  | c :: r => if c = '-' then readUnsigned true r else readUnsigned false (c :: r)

theorem length_of_readUnsigned {b : Bool} {s r : List Char} {n : Numeral}
    (h : readUnsigned b s = .ok (n, r)) : r.length < s.length := by
  unfold readUnsigned at h
  split at h
  · simp at h
  next ds q hw =>
    split at h
    · simp at h
    next fs t hf =>
      split at h
      · simp at h
      next es u he =>
        have := length_of_wholePart hw
        have := length_of_fractionPart hf
        have := length_of_exponentPart he
        simp only [Except.ok.injEq, Prod.mk.injEq] at h
        simp only [← h.2]
        omega

theorem length_of_read {s r : List Char} {n : Numeral} (h : read s = .ok (n, r)) :
    r.length < s.length := by
  unfold read at h
  split at h
  · simp at h
  next c t =>
    split at h
    · have := length_of_readUnsigned h
      simp only [List.length_cons]
      omega
    · exact length_of_readUnsigned h

/-- Pass over a numeral whose value nobody asks for. What ends too early is no numeral
then. -/
def skip (s : List Char) : Except Fault (List Char) :=
  match read s with
  | .error _ => .error .malformed
  | .ok (_, r) => .ok r

theorem length_of_skip {s r : List Char} (h : skip s = .ok r) : r.length < s.length := by
  unfold skip at h
  split at h
  · simp at h
  next e =>
    simp only [Except.ok.injEq] at h
    exact h ▸ length_of_read e

def digitValue (c : Char) : Nat :=
  c.toNat - '0'.toNat

def value (ds : List Char) : Nat :=
  ds.foldl (fun n c => n * 10 + digitValue c) 0

def wordSize : Nat := Nat.pow 2 64

/-- The value of a numeral that is written as a natural number and fits a word. A sign,
a point or an exponent make it something else, whatever it comes to. -/
def natural? (n : Numeral) : Option Nat :=
  if n.negative = false ∧ n.fraction = none ∧ n.exponent = none ∧ value n.whole < wordSize then
    some (value n.whole)
  else none

end Numeral

end ClassCensus.Json
