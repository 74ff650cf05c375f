/-!
# Blanks and words

The smallest pieces of a JSON text. A text is a list of characters, and a reader hands
back what is left of it, so that a reading consists of the pieces cut off one after the
other. No position is kept: where a reader stands is what it has still to read.

A text is read from left to right and the first fault ends the reading, so a refusal
needs no more than the kind of that first fault. A text may stop being JSON, it may end
too early, or it may be JSON that says something else than what was asked for.
-/

namespace ClassCensus.Json

inductive Fault
  /-- The next character cannot stand where it does. -/
  | malformed
  /-- The text ends although more has to follow. -/
  | truncated
  /-- The text is JSON so far, but not of the form that was asked for. -/
  | mistyped
deriving DecidableEq

namespace Fault

def category : Fault → String
  | malformed => "syntax"
  | truncated => "eof"
  | mistyped => "data"

end Fault

theorem map_eq_ok {α β : Type} {f : α → β} {x : Except Fault α} {b : β}
    (h : x.map f = .ok b) : ∃ a, x = .ok a ∧ f a = b := by
  cases x with
  | error e => simp [Except.map] at h
  | ok a => exact ⟨a, rfl, by simpa [Except.map] using h⟩

def isBlank (c : Char) : Bool :=
  c == ' ' || c == '\t' || c == '\n' || c == '\r'

def skipBlank (s : List Char) : List Char :=
  s.dropWhile isBlank

theorem length_skipBlank_le (s : List Char) : (skipBlank s).length ≤ s.length :=
  (List.dropWhile_sublist isBlank).length_le

theorem skipBlank_nil : skipBlank [] = [] := rfl

theorem skipBlank_cons_of_not_isBlank {c : Char} (h : isBlank c = false) (s : List Char) :
    skipBlank (c :: s) = c :: s := by
  simp [skipBlank, h]

def word : List Char → List Char → Except Fault (List Char)
  | [], s => .ok s
  | _ :: _, [] => .error .truncated
  | w :: ws, c :: s => if c = w then word ws s else .error .malformed

/-- A word that was read stands at the start of the text, and the rest is what follows
it. -/
theorem word_eq_ok {w s r : List Char} : word w s = .ok r ↔ s = w ++ r := by
  induction w generalizing s with
  | nil => simp [word]
  | cons x ws ih =>
    cases s with
    | nil => simp [word]
    | cons c s =>
      by_cases h : c = x
      · simp [word, h, ih]
      · simp [word, h]

theorem length_of_word {w r t : List Char} (h : word w r = .ok t) : t.length ≤ r.length := by
  rw [word_eq_ok.1 h, List.length_append]
  exact Nat.le_add_left ..

def colon (s : List Char) : Except Fault (List Char) :=
  match skipBlank s with
  | [] => .error .truncated
  | c :: r => if c = ':' then .ok r else .error .malformed

theorem length_of_colon {s r : List Char} (h : colon s = .ok r) : r.length < s.length := by
  have le := length_skipBlank_le s
  unfold colon at h
  split at h
  next => simp at h
  next c t eq =>
    split at h
    next =>
      simp only [Except.ok.injEq] at h
      subst h
      simp only [eq, List.length_cons] at le
      omega
    next => simp at h

end ClassCensus.Json
