import ClassCensus.Json.Magnitude
import ClassCensus.Json.Skim
import ClassCensus.Settings

/-!
# Reading settings

Settings are read from a JSON text in one of two forms. An object names the fields it
sets, in any order, and may have members that mean nothing here; their values are passed
over, whatever they are. A list gives the fields in a fixed order and may stop early. In
both forms a field that is not given keeps its default.

The first fault from the left decides. A value of another type than its field is
therefore read to its end first, so that a fault inside it is found, except that a
bracket is refused at once. A field given twice is refused when the second key has been
read.
-/

namespace ClassCensus.Settings

open ClassCensus.Json

def refusalText : String := "Invalid configuration"

inductive Field
  | depthLimit
  | surveyOnOpening
  | checkThread
deriving DecidableEq

namespace Field

def key : Field → String
  | depthLimit => "max_hierarchy_depth"
  | surveyOnOpening => "scan_on_startup"
  | checkThread => "check_thread_affinity"

def all : List Field := [depthLimit, surveyOnOpening, checkThread]

def ofKey? (k : List Char) : Option Field :=
  all.find? fun f => f.key.toList == k

end Field

@[ext]
structure Draft where
  depthLimit : Option Nat
  surveyOnOpening : Option Bool
  checkThread : Option Bool
deriving DecidableEq

namespace Draft

def empty : Draft := ⟨none, none, none⟩

def has (d : Draft) : Field → Bool
  | .depthLimit => d.depthLimit.isSome
  | .surveyOnOpening => d.surveyOnOpening.isSome
  | .checkThread => d.checkThread.isSome

def complete (d : Draft) : Settings where
  depthLimit := d.depthLimit.getD defaultDepthLimit
  surveyOnOpening := d.surveyOnOpening.getD defaultSurveyOnOpening
  checkThread := d.checkThread.getD defaultCheckThread

theorem complete_empty : empty.complete = Settings.default := rfl

end Draft

/-- The fault of something that has the wrong type: its own fault if it has one. -/
def wrongType {α : Type} : Except Fault α → Fault
  | .ok _ => .mistyped
  | .error f => f

def misfit : List Char → Fault
  | [] => .truncated
  | c :: r =>
    if c = '[' ∨ c = '{' then .mistyped
    else if c = '"' then wrongType (Text.decode r)
    else if c = 'n' then wrongType (word ['u', 'l', 'l'] r)
    else if c = 't' then wrongType (word ['r', 'u', 'e'] r)
    else if c = 'f' then wrongType (word ['a', 'l', 's', 'e'] r)
    else if Numeral.startsWith c then wrongType (Numeral.decode (c :: r))
    else .malformed

def readNatural : List Char → Except Fault (Nat × List Char)
  | [] => .error .truncated
  | c :: r =>
    if Numeral.startsWith c then
      match Numeral.decode (c :: r) with
      | .error f => .error f
      | .ok (n, t) =>
        match n.natural? with
        | some k => .ok (k, t)
        | none => .error .mistyped
    else .error (misfit (c :: r))

def readFlag : List Char → Except Fault (Bool × List Char)
  | [] => .error .truncated
  | c :: r =>
    if c = 't' then (word ['r', 'u', 'e'] r).map fun t => (true, t)
    else if c = 'f' then (word ['a', 'l', 's', 'e'] r).map fun t => (false, t)
    else .error (misfit (c :: r))

def readField (d : Draft) (f : Field) (s : List Char) : Except Fault (Draft × List Char) :=
  match f with
  | .depthLimit => (readNatural (skipBlank s)).map fun p => ({ d with depthLimit := some p.1 }, p.2)
  | .surveyOnOpening =>
    (readFlag (skipBlank s)).map fun p => ({ d with surveyOnOpening := some p.1 }, p.2)
  | .checkThread => (readFlag (skipBlank s)).map fun p => ({ d with checkThread := some p.1 }, p.2)

theorem length_of_readNatural {s r : List Char} {n : Nat} (h : readNatural s = .ok (n, r)) :
    r.length ≤ s.length := by
  unfold readNatural at h
  split at h
  · simp at h
  · split at h
    · split at h
      · simp at h
      next e =>
        have := Numeral.length_of_decode e
        split at h
        · simp only [Except.ok.injEq, Prod.mk.injEq] at h
          exact h.2 ▸ Nat.le_of_lt this
        · simp at h
    · simp at h

theorem length_of_readFlag {s r : List Char} {b : Bool} (h : readFlag s = .ok (b, r)) :
    r.length ≤ s.length := by
  unfold readFlag at h
  split at h
  · simp at h
  · split at h
    · obtain ⟨u, e, eq⟩ := map_eq_ok h
      simp only [Prod.mk.injEq] at eq
      exact eq.2 ▸ Nat.le_succ_of_le (length_of_word e)
    split at h
    · obtain ⟨u, e, eq⟩ := map_eq_ok h
      simp only [Prod.mk.injEq] at eq
      exact eq.2 ▸ Nat.le_succ_of_le (length_of_word e)
    · simp at h

theorem length_of_readField {d e : Draft} {f : Field} {s r : List Char}
    (h : readField d f s = .ok (e, r)) : r.length ≤ s.length := by
  have blanks := length_skipBlank_le s
  cases f <;> simp only [readField] at h
  · obtain ⟨p, hp, eq⟩ := map_eq_ok h
    simp only [Prod.mk.injEq] at eq
    exact eq.2 ▸ Nat.le_trans (length_of_readNatural hp) blanks
  · obtain ⟨p, hp, eq⟩ := map_eq_ok h
    simp only [Prod.mk.injEq] at eq
    exact eq.2 ▸ Nat.le_trans (length_of_readFlag hp) blanks
  · obtain ⟨p, hp, eq⟩ := map_eq_ok h
    simp only [Prod.mk.injEq] at eq
    exact eq.2 ▸ Nat.le_trans (length_of_readFlag hp) blanks

/-- Read a member of an object behind the opening quote of its key. -/
def readMember (d : Draft) (s : List Char) : Except Fault (Draft × List Char) :=
  match Text.decode s with
  | .error f => .error f
  | .ok (k, r) =>
    match Field.ofKey? k with
    | some f =>
      if d.has f then .error .mistyped
      else
        match colon r with
        | .error f => .error f
        | .ok t => readField d f t
    | none =>
      match colon r with
      | .error f => .error f
      | .ok t => (skipValue t).map fun u => (d, u)

theorem length_of_readMember {d e : Draft} {s r : List Char}
    (h : readMember d s = .ok (e, r)) : r.length < s.length := by
  unfold readMember at h
  split at h
  · simp at h
  next k q hk =>
    have key := Text.length_of_decode hk
    split at h
    · split at h
      · simp at h
      · split at h
        · simp at h
        next t ht =>
          have := length_of_colon ht
          have := length_of_readField h
          omega
    · split at h
      · simp at h
      next t ht =>
        obtain ⟨u, hu, eq⟩ := map_eq_ok h
        have := length_of_colon ht
        have := length_of_skim hu
        simp only [Prod.mk.injEq] at eq
        have := congrArg List.length eq.2
        omega

/-- How an object goes on behind a member: it ends, or the quote of the next key has
been read. -/
inductive Onward
  | ends (rest : List Char)
  | key (rest : List Char)
deriving DecidableEq

def onward (s : List Char) : Except Fault Onward :=
  match skipBlank s with
  | [] => .error .truncated
  | c :: r =>
    if c = '}' then .ok (.ends r)
    else if c = ',' then
      match skipBlank r with
      | [] => .error .truncated
      | q :: t => if q = '"' then .ok (.key t) else .error .malformed
    else .error .malformed

theorem length_of_onward {s r : List Char} (h : onward s = .ok (.key r)) :
    r.length < s.length := by
  have le := length_skipBlank_le s
  unfold onward at h
  split at h
  · simp at h
  next c t e =>
    have inner := length_skipBlank_le t
    rw [e, List.length_cons] at le
    split at h
    · simp at h
    split at h
    · split at h
      · simp at h
      next q u k =>
        rw [k, List.length_cons] at inner
        split at h
        · simp only [Except.ok.injEq, Onward.key.injEq] at h
          exact h ▸ by omega
        · simp at h
    · simp at h

def readMembers (d : Draft) (s : List Char) : Except Fault (Draft × List Char) :=
  match h : readMember d s with
  | .error f => .error f
  | .ok (e, r) =>
    match k : onward r with
    | .error f => .error f
    | .ok (.ends t) => .ok (e, t)
    | .ok (.key t) =>
      have := Nat.lt_trans (length_of_onward k) (length_of_readMember h)
      readMembers e t
termination_by s.length

def readObject (s : List Char) : Except Fault (Draft × List Char) :=
  match skipBlank s with
  | [] => .error .truncated
  | c :: r =>
    if c = '}' then .ok (Draft.empty, r)
    else if c = '"' then readMembers Draft.empty r
    else .error .malformed

/-- Read what follows an element of a list, when the fields `fs` may still be given. -/
def readElements : List Field → Draft → List Char → Except Fault (Draft × List Char)
  | fs, d, s =>
    match skipBlank s with
    | [] => .error .truncated
    | c :: r =>
      if c = ']' then .ok (d, r)
      else if c = ',' then
        match fs with
        | [] => .error .malformed
        | f :: fs =>
          match skipBlank r with
          | ']' :: _ => .error .malformed
          | t =>
            match readField d f t with
            | .error g => .error g
            | .ok (e, u) => readElements fs e u
      else .error .malformed

def readList (s : List Char) : Except Fault (Draft × List Char) :=
  match skipBlank s with
  | ']' :: r => .ok (Draft.empty, r)
  | t =>
    match readField Draft.empty .depthLimit t with
    | .error f => .error f
    | .ok (d, r) => readElements [.surveyOnOpening, .checkThread] d r

def finish : Except Fault (Draft × List Char) → Except Fault Settings
  | .error f => .error f
  | .ok (d, r) =>
    match skipBlank r with
    | [] => .ok d.complete
    | _ :: _ => .error .malformed

def readChars (s : List Char) : Except Fault Settings :=
  match skipBlank s with
  | '[' :: r => finish (readList r)
  | '{' :: r => finish (readObject r)
  | t => .error (misfit t)

def read (source : String) : Except Fault Settings :=
  readChars source.toList

end ClassCensus.Settings
