import ClassCensus.Json.Layout
import ClassCensus.Json.Magnitude

/-!
# What numerals are written

`Numeral.Written` says how a numeral is written: digits without a needless zero in
front, perhaps behind a minus, perhaps with a point and more digits, perhaps with an
exponent. A reader takes as much as it can, so a written numeral is read back only where
the text does not go on as a numeral would; `Stops` is that condition.

The numerals that are asked for their value are natural numbers below `wordSize`. Each
has one spelling, the decimal one, and none is beyond the range of double-precision
numbers.
-/

namespace ClassCensus.Json.Numeral

def IsDigits (ds : List Char) : Prop :=
  ds ≠ [] ∧ ∀ c ∈ ds, c.isDigit = true

/-- Digits that start with a zero only if that is all of them. -/
def IsWhole (ds : List Char) : Prop :=
  IsDigits ds ∧ (ds.head? = some '0' → ds = ['0'])

def minus : Bool → List Char
  | true => ['-']
  | false => []

inductive FractionWritten : Option (List Char) → List Char → Prop
  | absent : FractionWritten none []
  | present {ds : List Char} (h : IsDigits ds) : FractionWritten (some ds) ('.' :: ds)

inductive SignWritten : Bool → List Char → Prop
  | absent : SignWritten false []
  | plus : SignWritten false ['+']
  | minus : SignWritten true ['-']

inductive ExponentWritten : Option (Bool × List Char) → List Char → Prop
  | absent : ExponentWritten none []
  | present {mark : Char} {negative : Bool} {sgn ds : List Char} (h : mark = 'e' ∨ mark = 'E')
      (h' : SignWritten negative sgn) (h'' : IsDigits ds) :
      ExponentWritten (some (negative, ds)) (mark :: (sgn ++ ds))

inductive Written : Numeral → List Char → Prop
  | intro {b : Bool} {ds f e : List Char} {fs : Option (List Char)}
      {es : Option (Bool × List Char)} (whole : IsWhole ds) (fraction : FractionWritten fs f)
      (exponent : ExponentWritten es e) :
      Written ⟨b, ds, fs, es⟩ (minus b ++ (ds ++ (f ++ e)))

def NoDigit (r : List Char) : Prop :=
  ∀ c, r.head? = some c → c.isDigit = false

def Stops (r : List Char) : Prop :=
  ∀ c, r.head? = some c → c.isDigit = false ∧ c ≠ '.' ∧ c ≠ 'e' ∧ c ≠ 'E'

theorem stops_nil : Stops [] := by
  simp [Stops]

theorem Stops.noDigit {r : List Char} (h : Stops r) : NoDigit r :=
  fun c head => (h c head).1

theorem noDigit_dropWhile (s : List Char) : NoDigit (s.dropWhile Char.isDigit) := by
  intro c head
  have := List.head?_dropWhile_not Char.isDigit s
  simpa [head] using this

theorem digits_eq_ok {s ds r : List Char} :
    digits s = .ok (ds, r) ↔ IsDigits ds ∧ s = ds ++ r ∧ NoDigit r := by
  constructor
  · intro h
    unfold digits at h
    split at h
    · simp at h
    next c t =>
      split at h
      next digit =>
        simp only [Except.ok.injEq, Prod.mk.injEq] at h
        obtain ⟨rfl, rfl⟩ := h
        refine ⟨⟨by simp, ?_⟩, by simp, noDigit_dropWhile t⟩
        intro x mem
        obtain rfl | mem := List.mem_cons.1 mem
        · exact digit
        · exact List.all_eq_true.1 List.all_takeWhile x mem
      next => simp at h
  · rintro ⟨⟨nonempty, all⟩, rfl, noDigit⟩
    obtain ⟨c, ds, rfl⟩ := List.exists_cons_of_ne_nil nonempty
    have rest : ∀ x ∈ ds, x.isDigit = true := fun x mem => all x (List.mem_cons_of_mem _ mem)
    have none : r.takeWhile Char.isDigit = [] ∧ r.dropWhile Char.isDigit = r := by
      cases r with
      | nil => simp
      | cons x r => simp [noDigit x rfl]
    simp [digits, all c List.mem_cons_self, List.takeWhile_append_of_pos rest,
      List.dropWhile_append_of_pos rest, none]

theorem wholePart_eq_ok {s ds r : List Char} :
    wholePart s = .ok (ds, r) ↔ IsWhole ds ∧ s = ds ++ r ∧ NoDigit r := by
  constructor
  · intro h
    unfold wholePart at h
    split at h
    · simp at h
    · simp at h
    next ds' r' other e =>
      simp only [Except.ok.injEq, Prod.mk.injEq] at h
      obtain ⟨rfl, rfl⟩ := h
      obtain ⟨isDigits, rfl, noDigit⟩ := digits_eq_ok.1 e
      refine ⟨⟨isDigits, fun zero => ?_⟩, rfl, noDigit⟩
      match ds' with
      | [] => simp at zero
      | [c] => simpa using zero
      | c :: d :: ds' =>
        obtain rfl : c = '0' := by simpa using zero
        exact (other d ds' rfl).elim
  · rintro ⟨⟨isDigits, zero⟩, rfl, noDigit⟩
    have e := digits_eq_ok.2 ⟨isDigits, rfl, noDigit⟩
    unfold wholePart
    split
    · simp_all
    next c cs t e' =>
      obtain ⟨rfl, rfl⟩ : '0' :: c :: cs = ds ∧ t = r := by simpa using e'.symm.trans e
      simp at zero
    · simp_all

theorem written_of_fractionPart {s r : List Char} {o : Option (List Char)}
    (h : fractionPart s = .ok (o, r)) : ∃ f, FractionWritten o f ∧ s = f ++ r := by
  unfold fractionPart at h
  split at h
  · simp only [Except.ok.injEq, Prod.mk.injEq] at h
    obtain ⟨rfl, rfl⟩ := h
    exact ⟨[], .absent, rfl⟩
  next c t =>
    split at h
    next point =>
      obtain ⟨⟨ds, q⟩, e, eq⟩ := map_eq_ok h
      obtain ⟨rfl, rfl⟩ := Prod.mk.inj eq
      obtain ⟨isDigits, rfl, -⟩ := digits_eq_ok.1 e
      exact ⟨_, .present isDigits, by simp [point]⟩
    next =>
      simp only [Except.ok.injEq, Prod.mk.injEq] at h
      obtain ⟨rfl, rfl⟩ := h
      exact ⟨[], .absent, rfl⟩

theorem fractionPart_append {f r : List Char} {o : Option (List Char)} (h : FractionWritten o f)
    (noDigit : NoDigit r) (noPoint : r.head? ≠ some '.') :
    fractionPart (f ++ r) = .ok (o, r) := by
  cases h with
  | absent =>
    cases r with
    | nil => rfl
    | cons c r =>
      have : c ≠ '.' := by simpa using noPoint
      simp [fractionPart, this]
  | present h =>
    have := digits_eq_ok.2 ⟨h, rfl, noDigit⟩
    simp [fractionPart, this, Except.map]

theorem sign_eq (s : List Char) : ∃ sgn, SignWritten (sign s).1 sgn ∧ s = sgn ++ (sign s).2 := by
  unfold sign
  split
  · exact ⟨[], .absent, rfl⟩
  next c r =>
    split
    next minus => exact ⟨_, .minus, by simp [minus]⟩
    next =>
      split
      next plus => exact ⟨_, .plus, by simp [plus]⟩
      next => exact ⟨[], .absent, rfl⟩

theorem sign_append {b : Bool} {sgn ds : List Char} (h : SignWritten b sgn) (h' : IsDigits ds)
    (r : List Char) : sign (sgn ++ (ds ++ r)) = (b, ds ++ r) := by
  cases h with
  | absent =>
    obtain ⟨nonempty, all⟩ := h'
    obtain ⟨c, ds, rfl⟩ := List.exists_cons_of_ne_nil nonempty
    have digit := all c List.mem_cons_self
    have minus : c ≠ '-' := by
      rintro rfl
      simp at digit
    have plus : c ≠ '+' := by
      rintro rfl
      simp at digit
    simp [sign, minus, plus]
  | plus => simp [sign]
  | minus => simp [sign]

theorem written_of_exponentPart {s r : List Char} {o : Option (Bool × List Char)}
    (h : exponentPart s = .ok (o, r)) : ∃ e, ExponentWritten o e ∧ s = e ++ r := by
  unfold exponentPart at h
  split at h
  · simp only [Except.ok.injEq, Prod.mk.injEq] at h
    obtain ⟨rfl, rfl⟩ := h
    exact ⟨[], .absent, rfl⟩
  next c t =>
    split at h
    next mark =>
      obtain ⟨⟨ds, q⟩, e, eq⟩ := map_eq_ok h
      obtain ⟨rfl, rfl⟩ := Prod.mk.inj eq
      obtain ⟨sgn, written, split⟩ := sign_eq t
      obtain ⟨isDigits, rest, -⟩ := digits_eq_ok.1 e
      rw [rest] at split
      exact ⟨_, .present mark written isDigits, by simp [split]⟩
    next =>
      simp only [Except.ok.injEq, Prod.mk.injEq] at h
      obtain ⟨rfl, rfl⟩ := h
      exact ⟨[], .absent, rfl⟩

theorem exponentPart_append {e r : List Char} {o : Option (Bool × List Char)}
    (h : ExponentWritten o e) (stops : Stops r) : exponentPart (e ++ r) = .ok (o, r) := by
  cases h with
  | absent =>
    cases r with
    | nil => rfl
    | cons c r =>
      obtain ⟨-, -, lower, upper⟩ := stops c rfl
      simp [exponentPart, lower, upper]
  | present mark written isDigits =>
    have := digits_eq_ok.2 ⟨isDigits, rfl, stops.noDigit⟩
    simp [exponentPart, mark, sign_append written isDigits, this, Except.map]

theorem ExponentWritten.head? {e r : List Char} {o : Option (Bool × List Char)}
    (h : ExponentWritten o e) (stops : Stops r) : NoDigit (e ++ r) ∧ (e ++ r).head? ≠ some '.' := by
  cases h with
  | absent => exact ⟨stops.noDigit, fun point => (stops _ point).2.1 rfl⟩
  | present mark =>
    obtain rfl | rfl := mark <;> simp [NoDigit]

theorem FractionWritten.noDigit {f r : List Char} {o : Option (List Char)}
    (h : FractionWritten o f) (noDigit : NoDigit r) : NoDigit (f ++ r) := by
  cases h with
  | absent => exact noDigit
  | present => simp [NoDigit]

theorem written_of_read {s r : List Char} {n : Numeral} (h : read s = .ok (n, r)) :
    ∃ t, n.Written t ∧ s = t ++ r := by
  have unsigned {b : Bool} {s : List Char} (h : readUnsigned b s = .ok (n, r)) :
      ∃ t, n.Written (minus b ++ t) ∧ s = t ++ r := by
    unfold readUnsigned at h
    split at h
    · simp at h
    next ds q hw =>
      split at h
      · simp at h
      next fs t hf =>
        split at h
        · simp at h
        next es u he =>
          simp only [Except.ok.injEq, Prod.mk.injEq] at h
          obtain ⟨rfl, rfl⟩ := h
          obtain ⟨whole, rfl, -⟩ := wholePart_eq_ok.1 hw
          obtain ⟨f, fraction, rfl⟩ := written_of_fractionPart hf
          obtain ⟨e, exponent, rfl⟩ := written_of_exponentPart he
          exact ⟨_, .intro whole fraction exponent, by simp⟩
  unfold read at h
  split at h
  · simp at h
  next c t =>
    split at h
    next sgn =>
      obtain ⟨t, written, rfl⟩ := unsigned h
      exact ⟨_, written, by simp [minus, sgn]⟩
    next => exact unsigned h

/-- A written numeral is read back where the text does not go on as a numeral. -/
theorem read_append {n : Numeral} {t r : List Char} (h : n.Written t) (stops : Stops r) :
    read (t ++ r) = .ok (n, r) := by
  cases h with
  | @intro b ds f e fs es whole fraction exponent =>
    obtain ⟨noDigit, noPoint⟩ := exponent.head? stops
    have hw : wholePart (ds ++ (f ++ (e ++ r))) = .ok (ds, f ++ (e ++ r)) :=
      wholePart_eq_ok.2 ⟨whole, rfl, fraction.noDigit noDigit⟩
    have unsigned (b : Bool) :
        readUnsigned b (ds ++ (f ++ (e ++ r))) = .ok (⟨b, ds, fs, es⟩, r) := by
      simp [readUnsigned, hw, fractionPart_append fraction noDigit noPoint,
        exponentPart_append exponent stops]
    cases b with
    | true => simp [minus, read, unsigned]
    | false =>
      obtain ⟨nonempty, all⟩ := whole.1
      obtain ⟨c, ds, rfl⟩ := List.exists_cons_of_ne_nil nonempty
      have : c ≠ '-' := by
        rintro rfl
        simpa using all _ List.mem_cons_self
      have := unsigned false
      simp_all [minus, read]

theorem skip_append {n : Numeral} {t r : List Char} (h : n.Written t) (stops : Stops r) :
    skip (t ++ r) = .ok r := by
  simp [skip, read_append h stops]

theorem written_of_skip {s r : List Char} (h : skip s = .ok r) :
    ∃ n t, Written n t ∧ s = t ++ r := by
  unfold skip at h
  split at h
  · simp at h
  next n q e =>
    obtain rfl := Except.ok.inj h
    exact ⟨n, written_of_read e⟩

/-- The first character of a numeral is what it is known by. -/
theorem Written.startsWith {n : Numeral} {t : List Char} (h : n.Written t) :
    ∃ c u, t = c :: u ∧ startsWith c = true := by
  cases h with
  | @intro b ds f e fs es whole fraction exponent =>
    cases b with
    | true => exact ⟨_, _, rfl, rfl⟩
    | false =>
      obtain ⟨nonempty, all⟩ := whole.1
      obtain ⟨c, ds, rfl⟩ := List.exists_cons_of_ne_nil nonempty
      exact ⟨_, _, rfl, by simp [Numeral.startsWith, all c List.mem_cons_self]⟩

/-! ### Natural numbers -/

/-- Digits behind digits that have been taken in come to at least as much. -/
theorem le_foldl_digitValue (ds : List Char) (m : Nat) :
    m ≤ ds.foldl (fun n c => n * 10 + digitValue c) m := by
  induction ds generalizing m with
  | nil => exact Nat.le_refl m
  | cons d ds ih =>
    calc
      m ≤ m * 10 + digitValue d := by omega
      _ ≤ _ := ih _

theorem digitValue_lt {c : Char} (h : c.isDigit = true) : digitValue c < 10 := by
  obtain ⟨-, upper⟩ : 48 ≤ c.toNat ∧ c.toNat ≤ 57 := Char.isDigit_iff_toNat.1 h
  change c.toNat - 48 < 10
  omega

theorem digitChar_digitValue {c : Char} (h : c.isDigit = true) :
    Nat.digitChar (digitValue c) = c := by
  obtain ⟨lower, -⟩ : 48 ≤ c.toNat ∧ c.toNat ≤ 57 := Char.isDigit_iff_toNat.1 h
  apply Char.toNat_inj.1
  rw [Nat.toNat_digitChar_of_lt_ten (digitValue_lt h)]
  change 48 + (c.toNat - 48) = c.toNat
  omega

/-- Digits behind the digits of a positive number are again those of a number. -/
theorem natural_append {ds : List Char} (all : ∀ c ∈ ds, c.isDigit = true) {m : Nat} (pos : 0 < m) :
    Layout.natural m ++ ds =
      Layout.natural (ds.foldl (fun n c => n * 10 + digitValue c) m) := by
  -- the number stays positive, so no zero ever comes in front
  induction ds generalizing m with
  | nil => simp
  | cons d ds ih =>
    have digit := all d List.mem_cons_self
    have last : Layout.natural m ++ [d] = Layout.natural (m * 10 + digitValue d) := by
      have := Nat.toDigits_append_toDigits (b := 10) (by decide) pos (digitValue_lt digit)
      rwa [Nat.toDigits_of_lt_base (digitValue_lt digit), digitChar_digitValue digit,
        Nat.mul_comm] at this
    calc
      Layout.natural m ++ d :: ds = (Layout.natural m ++ [d]) ++ ds := by simp
      _ = Layout.natural (m * 10 + digitValue d) ++ ds := by rw [last]
      _ = _ := ih (fun c mem => all c (List.mem_cons_of_mem _ mem)) (by omega)

theorem value_eq_ofDigitChars (ds : List Char) : value ds = Nat.ofDigitChars 10 ds 0 := by
  simp [value, Nat.ofDigitChars, digitValue, Nat.mul_comm]

@[simp] theorem value_natural (n : Nat) : value (Layout.natural n) = n := by
  rw [value_eq_ofDigitChars]
  exact Nat.ofDigitChars_toDigits (by decide) (by decide)

theorem natural_injective : Function.Injective Layout.natural :=
  Function.LeftInverse.injective value_natural

theorem isDigits_natural (n : Nat) : IsDigits (Layout.natural n) :=
  ⟨Nat.toDigits_ne_nil, fun _ mem => Nat.isDigit_of_mem_toDigits (by decide) (by decide) mem⟩

theorem isWhole_natural (n : Nat) : IsWhole (Layout.natural n) := by
  refine ⟨isDigits_natural n, fun zero => ?_⟩
  induction n using Nat.strongRecOn with
  | ind n ih =>
    by_cases small : n < 10
    · have single : Layout.natural n = [n.digitChar] := Nat.toDigits_of_lt_base small
      rw [single] at zero ⊢
      simpa using zero
    · have step : Layout.natural n = Layout.natural (n / 10) ++ [(n % 10).digitChar] :=
        Nat.toDigits_of_base_le (by decide) (by omega)
      have front : (Layout.natural (n / 10)).head? = some '0' := by
        obtain ⟨c, cs, eq⟩ := List.exists_cons_of_ne_nil (isDigits_natural (n / 10)).1
        simpa [step, eq] using zero
      have first : Layout.natural (n / 10) = Layout.natural 0 := ih (n / 10) (by omega) front
      have := natural_injective first
      omega

theorem natural_value {ds : List Char} (h : IsWhole ds) : Layout.natural (value ds) = ds := by
  obtain ⟨⟨nonempty, all⟩, alone⟩ := h
  obtain ⟨c, cs, rfl⟩ := List.exists_cons_of_ne_nil nonempty
  by_cases zero : c = '0'
  · rw [alone (by simp [zero])]
    rfl
  · have digit := all c List.mem_cons_self
    have single : Layout.natural (digitValue c) = [c] := by
      rw [Layout.natural, Nat.toDigits_of_lt_base (digitValue_lt digit), digitChar_digitValue digit]
    have pos : 0 < digitValue c := by
      refine Nat.pos_of_ne_zero fun none => zero ?_
      rw [← digitChar_digitValue digit, none]
      rfl
    have := natural_append (fun x mem => all x (List.mem_cons_of_mem _ mem)) pos
    rw [single] at this
    simpa [value] using this.symm

def ofNatural (n : Nat) : Numeral :=
  ⟨false, Layout.natural n, none, none⟩

theorem written_ofNatural (n : Nat) : (ofNatural n).Written (Layout.natural n) := by
  simpa [minus, ofNatural] using
    Written.intro (b := false) (isWhole_natural n) .absent .absent

theorem natural?_ofNatural {n : Nat} (h : n < wordSize) : (ofNatural n).natural? = some n := by
  simp [natural?, ofNatural, h]

/-- A numeral with a natural value is written in decimal digits. -/
theorem Written.eq_natural {n : Numeral} {t : List Char} {k : Nat} (h : n.Written t)
    (value : n.natural? = some k) : k < wordSize ∧ t = Layout.natural k := by
  cases h with
  | intro whole fraction exponent =>
    unfold natural? at value
    split at value
    next plain =>
      obtain ⟨rfl, rfl, rfl, small⟩ := plain
      cases fraction
      cases exponent
      simp only [Option.some.injEq] at value
      subst value
      exact ⟨small, by simp [minus, natural_value whole]⟩
    next => simp at value

theorem absorb_of_lt {ds : List Char} {m : Nat}
    (h : ds.foldl (fun n c => n * 10 + digitValue c) m < wordSize) :
    absorb m ds = (ds.foldl (fun n c => n * 10 + digitValue c) m, 0) := by
  induction ds generalizing m with
  | nil => rfl
  | cons d ds ih =>
    have := le_foldl_digitValue ds (m * 10 + digitValue d)
    rw [absorb_cons_of_lt (by simp only [List.foldl_cons] at h; omega), ih h]
    rfl

theorem scaled_ofNatural {n : Nat} (h : n < wordSize) : (ofNatural n).scaled = (n, 0) := by
  have whole : absorb 0 (Layout.natural n) = (n, 0) := by
    have eq : (Layout.natural n).foldl (fun n c => n * 10 + digitValue c) 0 = n := value_natural n
    rw [absorb_of_lt (by rw [eq]; exact h), eq]
  simp [scaled, ofNatural, whole, writtenExponent]

theorem roundSignificand_le (n : Nat) : roundSignificand n ≤ 2 * n := by
  by_cases z : n = 0
  · subst z
    decide
  have unit : Nat.pow 2 (n.log2 + 1 - 53) ≤ n :=
    calc
      2 ^ (n.log2 + 1 - 53) ≤ 2 ^ n.log2 := Nat.pow_le_pow_right (by decide) (by omega)
      _ ≤ n := Nat.log2_self_le z
  have quotient := Nat.div_mul_le_self n (Nat.pow 2 (n.log2 + 1 - 53))
  simp only [roundSignificand]
  split
  · rw [Nat.succ_mul]
    omega
  · omega

/-- A number that fits a word is far below the largest double. -/
theorem exceeds_of_lt {n : Nat} (h : n < wordSize) : exceeds n 0 = false := by
  have one : roundSignificand 1 = 1 := roundSignificand_of_lt (by decide)
  have := roundSignificand_le n
  have far : 2 * wordSize ≤ unbounded := by decide +kernel
  have range : ¬ largestPower < 0 := by decide
  have below : roundSignificand n < unbounded := by omega
  simp [exceeds, one, range, below]

/-- A natural number that fits a word is read back with its value. -/
theorem decode_natural {n : Nat} (h : n < wordSize) {r : List Char} (stops : Stops r) :
    decode (Layout.natural n ++ r) = .ok (ofNatural n, r) := by
  simp [decode, read_append (written_ofNatural n) stops, scaled_ofNatural h, exceeds_of_lt h]

end ClassCensus.Json.Numeral
