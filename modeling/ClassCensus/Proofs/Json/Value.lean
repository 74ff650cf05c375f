import ClassCensus.Json.Skim
import ClassCensus.Proofs.Json.Numeral
import ClassCensus.Proofs.Json.Text

/-!
# What values are written

`Fits` is the grammar of JSON values and of the parts that stand between brackets: the
words, the numerals, the strings, and brackets with any number of parts, to any depth.
`Joined` and `Enclosed` are the layout alone, where the blanks and the commas may be,
and take the parts as they are written.
-/

namespace ClassCensus.Json

open Numeral (Stops)

/-! ### Blanks -/

def Blanks (w : List Char) : Prop :=
  ∀ c ∈ w, isBlank c = true

theorem blanks_nil : Blanks [] := by
  simp [Blanks]

theorem Blanks.append {w w' : List Char} (h : Blanks w) (h' : Blanks w') : Blanks (w ++ w') := by
  intro c mem
  obtain mem | mem := List.mem_append.1 mem
  · exact h c mem
  · exact h' c mem

theorem skipBlank_append {w : List Char} (h : Blanks w) (s : List Char) :
    skipBlank (w ++ s) = skipBlank s :=
  List.dropWhile_append_of_pos h

theorem exists_blanks (s : List Char) : ∃ w, Blanks w ∧ s = w ++ skipBlank s :=
  ⟨s.takeWhile isBlank, List.all_eq_true.1 List.all_takeWhile, List.takeWhile_append_dropWhile.symm⟩

theorem skipBlank_eq_nil {s : List Char} : skipBlank s = [] ↔ Blanks s := by
  constructor
  · intro h
    obtain ⟨w, blanks, split⟩ := exists_blanks s
    rw [split, h, List.append_nil]
    exact blanks
  · intro blanks
    simpa [skipBlank_nil] using skipBlank_append blanks []

theorem skipBlank_append_cons {w : List Char} {c : Char} (blanks : Blanks w)
    (solid : isBlank c = false) (r : List Char) : skipBlank (w ++ c :: r) = c :: r := by
  rw [skipBlank_append blanks, skipBlank_cons_of_not_isBlank solid]

theorem exists_blanks_of_skipBlank {s r : List Char} {c : Char} (h : skipBlank s = c :: r) :
    ∃ w, Blanks w ∧ s = w ++ c :: r := by
  obtain ⟨w, blanks, split⟩ := exists_blanks s
  exact ⟨w, blanks, h ▸ split⟩

theorem isBlank_colon : isBlank ':' = false := rfl

theorem isBlank_comma : isBlank ',' = false := rfl

theorem isBlank_quote : isBlank '"' = false := rfl

theorem colon_eq_ok {s r : List Char} :
    colon s = .ok r ↔ ∃ w, Blanks w ∧ s = w ++ ':' :: r := by
  constructor
  · intro h
    unfold colon at h
    split at h
    · simp at h
    next c t eq =>
      split at h
      next mark =>
        obtain rfl := Except.ok.inj h
        exact mark ▸ exists_blanks_of_skipBlank eq
      next => simp at h
  · rintro ⟨w, blanks, rfl⟩
    simp [colon, skipBlank_append_cons blanks isBlank_colon]

/-- Blanks and what follows them are told apart by what follows. -/
theorem blanks_append_inj {w w' s s' : List Char} (h : Blanks w) (h' : Blanks w')
    (solid : skipBlank s = s) (solid' : skipBlank s' = s') (eq : w ++ s = w' ++ s') : s = s' :=
  calc
    s = skipBlank (w ++ s) := by rw [skipBlank_append h, solid]
    _ = skipBlank (w' ++ s') := by rw [eq]
    _ = s' := by rw [skipBlank_append h', solid']

theorem isBlank_eq_true {c : Char} (h : isBlank c = true) :
    c = ' ' ∨ c = '\t' ∨ c = '\n' ∨ c = '\r' := by
  simpa [isBlank, or_assoc] using h

theorem stops_cons {c : Char} {r : List Char} (digit : c.isDigit = false) (point : c ≠ '.')
    (lower : c ≠ 'e') (upper : c ≠ 'E') : Stops (c :: r) := by
  rintro x ⟨⟩
  exact ⟨digit, point, lower, upper⟩

theorem stops_append {w r : List Char} (h : Blanks w) (stops : Stops r) : Stops (w ++ r) := by
  cases w with
  | nil => exact stops
  | cons c w =>
    obtain rfl | rfl | rfl | rfl := isBlank_eq_true (h c List.mem_cons_self) <;>
      exact stops_cons rfl (by decide) (by decide) (by decide)

/-! ### The grammar -/

namespace Bracket

def opening : Bracket → Char
  | list => '['
  | object => '{'

theorem opening_injective {b b' : Bracket} (h : b.opening = b'.opening) : b = b' := by
  cases b <;> cases b' <;> first | rfl | cases h

theorem isBlank_closing (b : Bracket) : isBlank b.closing = false := by
  cases b <;> rfl

theorem stops_closing (b : Bracket) (r : List Char) : Stops (b.closing :: r) := by
  cases b <;> exact stops_cons rfl (by decide) (by decide) (by decide)

theorem closing_ne_comma (b : Bracket) : b.closing ≠ ',' := by
  cases b <;> decide

end Bracket

theorem stops_comma (r : List Char) : Stops (',' :: r) :=
  stops_cons rfl (by decide) (by decide) (by decide)

/-- Parts with a comma between two, and blanks around each. -/
inductive Joined : List (List Char) → List Char → Prop
  | one {w x w' : List Char} (before : Blanks w) (behind : Blanks w') : Joined [x] (w ++ (x ++ w'))
  | more {w x w' t : List Char} {xs : List (List Char)} (before : Blanks w) (behind : Blanks w')
      (rest : Joined xs t) : Joined (x :: xs) (w ++ (x ++ (w' ++ ',' :: t)))

inductive Enclosed (b : Bracket) : List (List Char) → List Char → Prop
  | empty {w : List Char} (h : Blanks w) : Enclosed b [] (b.opening :: (w ++ [b.closing]))
  | parts {xs : List (List Char)} {t : List Char} (h : Joined xs t) :
      Enclosed b xs (b.opening :: (t ++ [b.closing]))

/-- What a stretch of a text can be: a value, or a part of what stands between brackets.
-/
inductive Shape
  | value
  | part (b : Bracket)

def words : List (List Char) :=
  [Layout.null, Layout.truth true, Layout.truth false]

inductive Fits : Shape → List Char → Prop
  | word {w : List Char} (h : w ∈ words) : Fits .value w
  | numeral {n : Numeral} {t : List Char} (h : n.Written t) : Fits .value t
  | text {t : List Char} (h : Text.IsText t) : Fits .value ('"' :: (t ++ ['"']))
  | enclosed {b : Bracket} {xs : List (List Char)} {t : List Char}
      (parts : ∀ x ∈ xs, Fits (.part b) x) (h : Enclosed b xs t) : Fits .value t
  | item {v : List Char} (h : Fits .value v) : Fits (.part .list) v
  | member {k w w' v : List Char} (key : Text.IsText k) (before : Blanks w) (behind : Blanks w')
      (h : Fits .value v) :
      Fits (.part .object) ('"' :: (k ++ '"' :: (w ++ ':' :: (w' ++ v))))

def IsValue (v : List Char) : Prop :=
  Fits .value v

theorem Joined.blanks_append {w t : List Char} {xs : List (List Char)} (h : Blanks w)
    (joined : Joined xs t) : Joined xs (w ++ t) := by
  cases joined with
  | one before behind => simpa using Joined.one (h.append before) behind
  | more before behind rest => simpa using Joined.more (h.append before) behind rest

theorem Joined.ne_nil {t : List Char} {xs : List (List Char)} (h : Joined xs t) : xs ≠ [] := by
  cases h <;> simp

/-- What fits starts with a character that is no blank and closes no bracket. -/
theorem Fits.head {s : Shape} {x : List Char} (h : Fits s x) :
    ∃ c u, x = c :: u ∧ isBlank c = false ∧ ∀ b : Bracket, c ≠ b.closing := by
  induction h with
  | word h =>
    simp only [words, List.mem_cons, List.not_mem_nil, or_false] at h
    obtain rfl | rfl | rfl := h <;> exact ⟨_, _, rfl, rfl, fun b => by cases b <;> decide⟩
  | numeral h =>
    obtain ⟨c, u, rfl, starts⟩ := h.startsWith
    refine ⟨c, u, rfl, ?_, fun b => ?_⟩
    · cases blank : isBlank c with
      | false => rfl
      | true => obtain rfl | rfl | rfl | rfl := isBlank_eq_true blank <;> cases starts
    · rintro rfl
      cases b <;> cases starts
  | text h => exact ⟨_, _, rfl, rfl, fun b => by cases b <;> decide⟩
  | @enclosed b' xs t parts h =>
    cases h <;> exact ⟨_, _, rfl, by cases b' <;> rfl, fun b => by cases b <;> cases b' <;> decide⟩
  | item h ih => exact ih
  | member => exact ⟨_, _, rfl, rfl, fun b => by cases b <;> decide⟩

/-- So do parts, behind blanks. -/
theorem Joined.head {s : Shape} {xs : List (List Char)} {t : List Char} (h : Joined xs t)
    (fits : ∀ x ∈ xs, Fits s x) :
    ∃ w c u, t = w ++ c :: u ∧ Blanks w ∧ isBlank c = false ∧ ∀ b : Bracket, c ≠ b.closing := by
  cases h with
  | one before =>
    obtain ⟨c, u, rfl, solid, apart⟩ := (fits _ List.mem_cons_self).head
    exact ⟨_, c, _, by rw [List.cons_append], before, solid, apart⟩
  | more before =>
    obtain ⟨c, u, rfl, solid, apart⟩ := (fits _ List.mem_cons_self).head
    exact ⟨_, c, _, by rw [List.cons_append], before, solid, apart⟩

theorem Fits.skipBlank {s : Shape} {x : List Char} (h : Fits s x) (r : List Char) :
    skipBlank (x ++ r) = x ++ r := by
  obtain ⟨c, u, rfl, solid, -⟩ := h.head
  exact skipBlank_cons_of_not_isBlank solid _

end ClassCensus.Json
