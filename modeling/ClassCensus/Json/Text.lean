import ClassCensus.Json.Lexis

/-!
# Strings

A string is read behind its opening quote, one written element at a time: the closing
quote, a character that stands for itself or is escaped by one letter, or a code unit
given by four hexadecimal digits. `element` is that one step and settles which
characters may stand where.

The two readers differ only in what they ask of the code units. `decode` wants the text
that the string means, so units from the surrogate range must come in pairs. `skip`
passes over the string and takes any unit.
-/

namespace ClassCensus.Json.Text

inductive Element
  | close
  /-- A character, written as itself or by one letter. -/
  | char (c : Char)
  /-- A code unit, written in hexadecimal. -/
  | unit (u : Nat)
deriving DecidableEq

def hexValue? (c : Char) : Option Nat :=
  if '0' ≤ c ∧ c ≤ '9' then some (c.toNat - '0'.toNat)
  else if 'a' ≤ c ∧ c ≤ 'f' then some (c.toNat - 'a'.toNat + 10)
  else if 'A' ≤ c ∧ c ≤ 'F' then some (c.toNat - 'A'.toNat + 10)
  else none

def quad? (a b c d : Char) : Option Nat :=
  match hexValue? a, hexValue? b, hexValue? c, hexValue? d with
  | some w, some x, some y, some z => some (((w * 16 + x) * 16 + y) * 16 + z)
  | _, _, _, _ => none

/-- The four digits of a code unit. The text is too short for them if fewer than four
bytes are left, whatever those bytes say. -/
def unit : List Char → Except Fault (Nat × List Char)
  | a :: b :: c :: d :: r =>
    match quad? a b c d with
    | some u => .ok (u, r)
    | none => .error .malformed
  | s => if (String.ofList s).utf8ByteSize < 4 then .error .truncated else .error .malformed

theorem length_of_unit {s r : List Char} {u : Nat} (h : unit s = .ok (u, r)) :
    r.length < s.length := by
  unfold unit at h
  split at h
  · split at h
    · simp only [Except.ok.injEq, Prod.mk.injEq] at h
      simp only [← h.2, List.length_cons]
      omega
    · simp at h
  · split at h <;> simp at h

def escaped? (c : Char) : Option Char :=
  match c with
  | '"' => some '"'
  | '\\' => some '\\'
  | '/' => some '/'
  | 'b' => some '\x08'
  | 'f' => some '\x0c'
  | 'n' => some '\n'
  | 'r' => some '\r'
  | 't' => some '\t'
  | _ => none

def escape : List Char → Except Fault (Element × List Char)
  | [] => .error .truncated
  | c :: r =>
    if c = 'u' then
      (unit r).map fun p => (.unit p.1, p.2)
    else
      match escaped? c with
      | some x => .ok (.char x, r)
      | none => .error .malformed

/-- Read one element. Control characters may not stand for themselves. -/
def element : List Char → Except Fault (Element × List Char)
  | [] => .error .truncated
  | c :: r =>
    if c = '"' then .ok (.close, r)
    else if c = '\\' then escape r
    else if c.toNat < 0x20 then .error .malformed
    else .ok (.char c, r)

theorem length_of_escape {s r : List Char} {e : Element} (h : escape s = .ok (e, r)) :
    r.length < s.length := by
  unfold escape at h
  split at h
  · simp at h
  next c t =>
    split at h
    · cases hu : unit t with
      | error f => simp [hu, Except.map] at h
      | ok p =>
        have := length_of_unit (show unit t = .ok (p.1, p.2) from hu)
        simp only [hu, Except.map, Except.ok.injEq, Prod.mk.injEq] at h
        simp only [← h.2, List.length_cons]
        omega
    · split at h
      · simp only [Except.ok.injEq, Prod.mk.injEq] at h
        simp [← h.2]
      · simp at h

theorem length_of_element {s r : List Char} {e : Element} (h : element s = .ok (e, r)) :
    r.length < s.length := by
  unfold element at h
  split at h
  · simp at h
  next c t =>
    split at h
    · simp only [Except.ok.injEq, Prod.mk.injEq] at h
      simp [← h.2]
    · split at h
      · have := length_of_escape h
        simp only [List.length_cons]
        omega
      · split at h
        · simp at h
        · simp only [Except.ok.injEq, Prod.mk.injEq] at h
          simp [← h.2]

def isLeading (u : Nat) : Bool :=
  0xD800 ≤ u && u < 0xDC00

def isTrailing (u : Nat) : Bool :=
  0xDC00 ≤ u && u < 0xE000

def paired (u v : Nat) : Char :=
  Char.ofNat (0x10000 + (u - 0xD800) * 0x400 + (v - 0xDC00))

def partner : List Char → Except Fault (Nat × List Char)
  | [] => .error .truncated
  | c :: s =>
    if c = '\\' then
      match s with
      | [] => .error .truncated
      | d :: r =>
        if d = 'u' then
          match unit r with
          | .ok (v, t) => if isTrailing v then .ok (v, t) else .error .malformed
          | .error f => .error f
        else .error .malformed
    else .error .malformed

theorem length_of_partner {s r : List Char} {v : Nat} (h : partner s = .ok (v, r)) :
    r.length < s.length := by
  unfold partner at h
  split at h
  · simp at h
  next c t =>
    split at h
    · split at h
      · simp at h
      next d q =>
        split at h
        · split at h
          next w p hu =>
            split at h
            · have := length_of_unit hu
              simp only [Except.ok.injEq, Prod.mk.injEq] at h
              simp only [← h.2, List.length_cons]
              omega
            · simp at h
          next => simp at h
        · simp at h
    · simp at h

def decode (s : List Char) : Except Fault (List Char × List Char) :=
  match h : element s with
  | .error f => .error f
  | .ok (.close, r) => .ok ([], r)
  | .ok (.char c, r) =>
    have := length_of_element h
    (decode r).map fun p => (c :: p.1, p.2)
  | .ok (.unit u, r) =>
    have := length_of_element h
    if isTrailing u then .error .malformed
    else if isLeading u then
      match k : partner r with
      | .error f => .error f
      | .ok (v, t) =>
        have := length_of_partner k
        (decode t).map fun p => (paired u v :: p.1, p.2)
    else (decode r).map fun p => (Char.ofNat u :: p.1, p.2)
termination_by s.length

def skip (s : List Char) : Except Fault (List Char) :=
  match h : element s with
  | .error f => .error f
  | .ok (.close, r) => .ok r
  | .ok (.char _, r) =>
    have := length_of_element h
    skip r
  | .ok (.unit _, r) =>
    have := length_of_element h
    skip r
termination_by s.length

theorem length_of_decode {s t r : List Char} (h : decode s = .ok (t, r)) :
    r.length < s.length := by
  induction n : s.length using Nat.strongRecOn generalizing s t r with
  | ind n ih =>
    unfold decode at h
    split at h
    · simp at h
    next q e =>
      have := length_of_element e
      simp only [Except.ok.injEq, Prod.mk.injEq] at h
      simp only [← h.2]
      omega
    next c q e =>
      have := length_of_element e
      obtain ⟨p, hp, eq⟩ := map_eq_ok h
      have := ih q.length (by omega) (s := q) (t := p.1) (r := p.2) (by rw [hp]) rfl
      simp only [Prod.mk.injEq] at eq
      simp only [← eq.2]
      omega
    next u q e =>
      have := length_of_element e
      split at h
      · simp at h
      · split at h
        · split at h
          · simp at h
          next v p k =>
            have := length_of_partner k
            obtain ⟨m, hm, eq⟩ := map_eq_ok h
            have := ih p.length (by omega) (s := p) (t := m.1) (r := m.2) (by rw [hm]) rfl
            simp only [Prod.mk.injEq] at eq
            simp only [← eq.2]
            omega
        · obtain ⟨m, hm, eq⟩ := map_eq_ok h
          have := ih q.length (by omega) (s := q) (t := m.1) (r := m.2) (by rw [hm]) rfl
          simp only [Prod.mk.injEq] at eq
          simp only [← eq.2]
          omega

theorem length_of_skip {s r : List Char} (h : skip s = .ok r) : r.length < s.length := by
  fun_induction skip s with
  | case1 s f e => simp at h
  | case2 s q e =>
    have := length_of_element e
    simp only [Except.ok.injEq] at h
    simp only [← h]
    omega
  | case3 s c q e _ ih =>
    have := length_of_element e
    have := ih h
    omega
  | case4 s u q e _ ih =>
    have := length_of_element e
    have := ih h
    omega

end ClassCensus.Json.Text
