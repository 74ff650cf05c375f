import ClassCensus.Json.Layout

/-!
# What strings are written

`IsText` holds of what may stand between two quotes, and `Spells k t` says that `t` is
one of the ways to write the text `k` there. The two differ in the code units from the
surrogate range, which mean a character only as a pair.

Passing over a string ends just behind a text, and decoding it gives what the text
spells. Since both read from the left and have one result, a text has one end and one
meaning. Of the many ways to write a text, `encode` takes one.
-/

namespace ClassCensus.Json.Text

inductive Element.Written : Element → List Char → Prop
  | close : Written .close ['"']
  | plain {c : Char} (quote : c ≠ '"') (backslash : c ≠ '\\') (control : 0x20 ≤ c.toNat) :
      Written (.char c) [c]
  | letter {l c : Char} (h : escaped? l = some c) : Written (.char c) ['\\', l]
  | unit {x y z w : Char} {u : Nat} (h : quad? x y z w = some u) :
      Written (.unit u) ['\\', 'u', x, y, z, w]

/-- What may stand between two quotes: elements that do not close the string. -/
inductive IsText : List Char → Prop
  | nil : IsText []
  | cons {e : Element} {p t : List Char} (h : e.Written p) (goes : e ≠ .close) (rest : IsText t) :
      IsText (p ++ t)

/-- `Spells k t`: between two quotes, `t` means `k`. -/
inductive Spells : List Char → List Char → Prop
  | nil : Spells [] []
  | char {c : Char} {p k t : List Char} (h : (Element.char c).Written p) (rest : Spells k t) :
      Spells (c :: k) (p ++ t)
  | unit {u : Nat} {p k t : List Char} (h : (Element.unit u).Written p)
      (leading : isLeading u = false) (trailing : isTrailing u = false) (rest : Spells k t) :
      Spells (Char.ofNat u :: k) (p ++ t)
  | pair {u v : Nat} {p q k t : List Char} (h : (Element.unit u).Written p)
      (leading : isLeading u = true) (h' : (Element.unit v).Written q)
      (trailing : isTrailing v = true) (rest : Spells k t) :
      Spells (paired u v :: k) (p ++ (q ++ t))

theorem Spells.isText {k t : List Char} (h : Spells k t) : IsText t := by
  induction h with
  | nil => exact .nil
  | char h _ ih => exact .cons h (by simp) ih
  | unit h _ _ _ ih => exact .cons h (by simp) ih
  | pair h _ h' _ _ ih => exact .cons h (by simp) (.cons h' (by simp) ih)

theorem unit_eq_ok {s r : List Char} {u : Nat} :
    unit s = .ok (u, r) ↔ ∃ x y z w, quad? x y z w = some u ∧ s = x :: y :: z :: w :: r := by
  constructor
  · intro h
    unfold unit at h
    split at h
    next x y z w t =>
      split at h
      next v value =>
        simp only [Except.ok.injEq, Prod.mk.injEq] at h
        obtain ⟨rfl, rfl⟩ := h
        exact ⟨x, y, z, w, value, rfl⟩
      next => simp at h
    next => split at h <;> simp at h
  · rintro ⟨x, y, z, w, value, rfl⟩
    simp [unit, value]

theorem escaped?_u : escaped? 'u' = none := rfl

theorem escape_eq_ok {s r : List Char} {e : Element} :
    escape s = .ok (e, r) ↔ ∃ p, e.Written ('\\' :: p) ∧ s = p ++ r := by
  constructor
  · intro h
    unfold escape at h
    split at h
    · simp at h
    next l t =>
      split at h
      next isU =>
        obtain ⟨⟨u, q⟩, digits, eq⟩ := map_eq_ok h
        obtain ⟨x, y, z, w, value, rfl⟩ := unit_eq_ok.1 digits
        obtain ⟨rfl, rfl⟩ := Prod.mk.inj eq
        exact ⟨_, .unit value, by simp [isU]⟩
      next =>
        split at h
        next value =>
          simp only [Except.ok.injEq, Prod.mk.injEq] at h
          obtain ⟨rfl, rfl⟩ := h
          exact ⟨_, .letter value, rfl⟩
        next => simp at h
  · rintro ⟨p, written, rfl⟩
    cases written with
    | plain quote backslash control => exact absurd rfl backslash
    | @letter l c h =>
      have other : l ≠ 'u' := by
        rintro rfl
        simp [escaped?_u] at h
      simp [escape, other, h]
    | @unit x y z w u h =>
      have digits : unit (x :: y :: z :: w :: r) = .ok (u, r) := unit_eq_ok.2 ⟨x, y, z, w, h, rfl⟩
      simp [escape, digits, Except.map]

theorem element_eq_ok {s r : List Char} {e : Element} :
    element s = .ok (e, r) ↔ ∃ p, e.Written p ∧ s = p ++ r := by
  constructor
  · intro h
    unfold element at h
    split at h
    · simp at h
    next c t =>
      split at h
      next quote =>
        simp only [Except.ok.injEq, Prod.mk.injEq] at h
        obtain ⟨rfl, rfl⟩ := h
        exact ⟨_, .close, by simp [quote]⟩
      next quote =>
        split at h
        next backslash =>
          obtain ⟨p, written, rfl⟩ := escape_eq_ok.1 h
          exact ⟨_, written, by simp [backslash]⟩
        next backslash =>
          split at h
          next => simp at h
          next control =>
            simp only [Except.ok.injEq, Prod.mk.injEq] at h
            obtain ⟨rfl, rfl⟩ := h
            exact ⟨_, .plain quote backslash (Nat.le_of_not_lt control), rfl⟩
  · rintro ⟨p, written, rfl⟩
    cases written with
    | close => simp [element]
    | plain quote backslash control => simp [element, quote, backslash, Nat.not_lt.2 control]
    | letter h => simpa [element] using escape_eq_ok.2 ⟨_, .letter h, rfl⟩
    | unit h => simpa [element] using escape_eq_ok.2 ⟨_, .unit h, rfl⟩

theorem element_append {e : Element} {p : List Char} (h : e.Written p) (r : List Char) :
    element (p ++ r) = .ok (e, r) :=
  element_eq_ok.2 ⟨p, h, rfl⟩

theorem element_quote (r : List Char) : element ('"' :: r) = .ok (.close, r) :=
  element_append .close r

theorem partner_eq_ok {s r : List Char} {v : Nat} :
    partner s = .ok (v, r) ↔
      ∃ p, (Element.unit v).Written p ∧ isTrailing v = true ∧ s = p ++ r := by
  constructor
  · intro h
    unfold partner at h
    split at h
    · simp at h
    next c t =>
      split at h
      next backslash =>
        split at h
        · simp at h
        next d q =>
          split at h
          next isU =>
            split at h
            next w p digits =>
              split at h
              next trailing =>
                obtain ⟨x, y, z, w, value, rfl⟩ := unit_eq_ok.1 digits
                simp only [Except.ok.injEq, Prod.mk.injEq] at h
                obtain ⟨rfl, rfl⟩ := h
                exact ⟨_, .unit value, trailing, by simp [backslash, isU]⟩
              next => simp at h
            next => simp at h
          next => simp at h
      next => simp at h
  · rintro ⟨p, written, trailing, rfl⟩
    cases written with
    | @unit x y z w _ h =>
      have : unit (x :: y :: z :: w :: r) = .ok (v, r) := unit_eq_ok.2 ⟨x, y, z, w, h, rfl⟩
      simp [partner, this, trailing]

section Skip

variable {s r : List Char} {e : Element}

theorem skip_of_close (h : element s = .ok (.close, r)) : skip s = .ok r := by
  rw [skip]
  split <;> simp_all

theorem skip_of_ne_close (h : element s = .ok (e, r)) (goes : e ≠ .close) : skip s = skip r := by
  rw [skip]
  split <;> simp_all

end Skip

theorem skip_of_isText {t : List Char} (h : IsText t) (r : List Char) :
    skip (t ++ '"' :: r) = .ok r := by
  induction h with
  | nil => exact skip_of_close (element_quote r)
  | cons h goes rest ih => rw [List.append_assoc, skip_of_ne_close (element_append h _) goes, ih]

theorem isText_of_skip {s r : List Char} (h : skip s = .ok r) :
    ∃ t, IsText t ∧ s = t ++ '"' :: r := by
  fun_induction skip s with
  | case1 => simp at h
  | case2 s q e =>
    obtain ⟨p, written, rfl⟩ := element_eq_ok.1 e
    cases written
    simp only [Except.ok.injEq] at h
    exact ⟨[], .nil, by simp [h]⟩
  | case3 s c q e _ ih =>
    obtain ⟨p, written, rfl⟩ := element_eq_ok.1 e
    obtain ⟨t, rest, rfl⟩ := ih h
    exact ⟨p ++ t, .cons written (by simp) rest, by simp⟩
  | case4 s u q e _ ih =>
    obtain ⟨p, written, rfl⟩ := element_eq_ok.1 e
    obtain ⟨t, rest, rfl⟩ := ih h
    exact ⟨p ++ t, .cons written (by simp) rest, by simp⟩

/-- Passing over a string ends behind the first quote that a text leads up to. -/
theorem skip_eq_ok {s r : List Char} :
    skip s = .ok r ↔ ∃ t, IsText t ∧ s = t ++ '"' :: r :=
  ⟨isText_of_skip, fun ⟨_, h, eq⟩ => eq ▸ skip_of_isText h r⟩

section Decode

variable {s r t : List Char} {c : Char} {u v : Nat}

theorem decode_of_close (h : element s = .ok (.close, r)) : decode s = .ok ([], r) := by
  rw [decode]
  split <;> simp_all

theorem decode_of_char (h : element s = .ok (.char c, r)) :
    decode s = (decode r).map fun p => (c :: p.1, p.2) := by
  rw [decode]
  split <;> simp_all

theorem decode_of_unit (h : element s = .ok (.unit u, r)) (leading : isLeading u = false)
    (trailing : isTrailing u = false) :
    decode s = (decode r).map fun p => (Char.ofNat u :: p.1, p.2) := by
  rw [decode]
  split <;> simp_all

theorem isTrailing_of_isLeading (h : isLeading u = true) : isTrailing u = false := by
  simp only [isLeading, isTrailing, Bool.and_eq_true, decide_eq_true_eq, Bool.and_eq_false_iff,
    decide_eq_false_iff_not] at h ⊢
  omega

theorem decode_of_pair (h : element s = .ok (.unit u, r)) (leading : isLeading u = true)
    (h' : partner r = .ok (v, t)) :
    decode s = (decode t).map fun p => (paired u v :: p.1, p.2) := by
  have trailing := isTrailing_of_isLeading leading
  rw [decode]
  split
  · simp_all
  · simp_all
  · simp_all
  next w q e =>
    obtain ⟨rfl, rfl⟩ : w = u ∧ q = r := by simpa using e.symm.trans h
    simp only [trailing, leading, Bool.false_eq_true, ite_false, ite_true]
    split <;> simp_all

end Decode

theorem decode_of_spells {k t : List Char} (h : Spells k t) (r : List Char) :
    decode (t ++ '"' :: r) = .ok (k, r) := by
  induction h with
  | nil => exact decode_of_close (element_quote r)
  | char h rest ih =>
    rw [List.append_assoc, decode_of_char (element_append h _), ih]
    rfl
  | unit h leading trailing rest ih =>
    rw [List.append_assoc, decode_of_unit (element_append h _) leading trailing, ih]
    rfl
  | pair h leading h' trailing rest ih =>
    rw [List.append_assoc, List.append_assoc,
      decode_of_pair (element_append h _) leading (partner_eq_ok.2 ⟨_, h', trailing, rfl⟩), ih]
    rfl

theorem spells_of_decode {s k r : List Char} (h : decode s = .ok (k, r)) :
    ∃ t, Spells k t ∧ s = t ++ '"' :: r := by
  -- a pair of units is two elements, so the induction is on the length of the text
  induction n : s.length using Nat.strongRecOn generalizing s k r with
  | ind n ih =>
    unfold decode at h
    split at h
    · simp at h
    next q e =>
      obtain ⟨p, written, rfl⟩ := element_eq_ok.1 e
      cases written
      simp only [Except.ok.injEq, Prod.mk.injEq] at h
      obtain ⟨rfl, rfl⟩ := h
      exact ⟨[], .nil, rfl⟩
    next c q e =>
      have shorter := length_of_element e
      obtain ⟨p, written, rfl⟩ := element_eq_ok.1 e
      obtain ⟨⟨k', r'⟩, rest, eq⟩ := map_eq_ok h
      obtain ⟨rfl, rfl⟩ := Prod.mk.inj eq
      obtain ⟨t, spells, rfl⟩ := ih q.length (by omega) rest rfl
      exact ⟨p ++ t, .char written spells, by simp⟩
    next u q e =>
      have shorter := length_of_element e
      obtain ⟨p, written, rfl⟩ := element_eq_ok.1 e
      split at h
      · simp at h
      next trailing =>
        split at h
        next leading =>
          split at h
          · simp at h
          next v q' second =>
            have shorter' := length_of_partner second
            obtain ⟨p', written', trailing', rfl⟩ := partner_eq_ok.1 second
            obtain ⟨⟨k', r'⟩, rest, eq⟩ := map_eq_ok h
            obtain ⟨rfl, rfl⟩ := Prod.mk.inj eq
            obtain ⟨t, spells, rfl⟩ := ih q'.length (by omega) rest rfl
            exact ⟨p ++ (p' ++ t), .pair written leading written' trailing' spells, by simp⟩
        next leading =>
          obtain ⟨⟨k', r'⟩, rest, eq⟩ := map_eq_ok h
          obtain ⟨rfl, rfl⟩ := Prod.mk.inj eq
          obtain ⟨t, spells, rfl⟩ := ih q.length (by omega) rest rfl
          exact ⟨p ++ t, .unit written (by simpa using leading) (by simpa using trailing) spells,
            by simp⟩

theorem decode_eq_ok {s k r : List Char} :
    decode s = .ok (k, r) ↔ ∃ t, Spells k t ∧ s = t ++ '"' :: r :=
  ⟨spells_of_decode, fun ⟨_, h, eq⟩ => eq ▸ decode_of_spells h r⟩

/-- A spelled text shows where it ends, and which text it is. -/
theorem Spells.append_inj {k k' t t' r r' : List Char} (h : Spells k t) (h' : Spells k' t')
    (eq : t ++ '"' :: r = t' ++ '"' :: r') : k = k' ∧ r = r' := by
  have decoded : (.ok (k, r) : Except Fault (List Char × List Char)) = .ok (k', r') :=
    calc
      .ok (k, r) = decode (t ++ '"' :: r) := (decode_of_spells h r).symm
      _ = decode (t' ++ '"' :: r') := by rw [eq]
      _ = .ok (k', r') := decode_of_spells h' r'
  exact Prod.mk.inj (Except.ok.inj decoded)

/-! ### Writing -/

theorem escaped?_of_letter? {c l : Char} (h : letter? c = some l) : escaped? l = some c := by
  unfold letter? at h
  split at h <;> cases h <;> rfl

theorem letter?_quote : letter? '"' = some '"' := rfl

theorem letter?_backslash : letter? '\\' = some '\\' := rfl

theorem hexValue?_hexDigit : ∀ n < 16, hexValue? (hexDigit n) = some n := by
  decide

/-- Four digits, of which two are zeros, are enough for a control character. -/
theorem quad?_hexDigit {n : Nat} (h : n < 256) :
    quad? '0' '0' (hexDigit (n / 16)) (hexDigit (n % 16)) = some n := by
  have zero : hexValue? '0' = some 0 := rfl
  have high := hexValue?_hexDigit (n / 16) (by omega)
  have low := hexValue?_hexDigit (n % 16) (by omega)
  simp only [quad?, zero, high, low, Option.some.injEq]
  omega

theorem spells_encode (s : List Char) : Spells s (encode s) := by
  induction s with
  | nil => exact .nil
  | cons c s ih =>
    rw [encode_cons]
    unfold encodeChar
    split
    next l letter => exact .char (.letter (escaped?_of_letter? letter)) ih
    next letter =>
      split
      next control =>
        have := Spells.unit (.unit (quad?_hexDigit (n := c.toNat) (by omega)))
          (by simp [isLeading]; omega) (by simp [isTrailing]; omega) ih
        rwa [Char.ofNat_toNat] at this
      next control =>
        refine .char (.plain ?_ ?_ (Nat.le_of_not_lt control)) ih
        · rintro rfl
          simp [letter?_quote] at letter
        · rintro rfl
          simp [letter?_backslash] at letter

end ClassCensus.Json.Text
