import ClassCensus.Json.Numeral

/-!
# The largest numeral

A numeral that is asked for its value must not exceed the range of double-precision
numbers. The test is that of a reader which keeps the leading digits in a word: digits
are taken in while the word can hold them, later digits before the point only raise the
exponent, later ones behind it are dropped. Significand and power of ten are then
rounded to 53 bits each and multiplied, and the numeral is too large when the product
rounds to no finite number.

All of this is exact arithmetic on natural numbers. Only the question whether the result
is finite is answered; the result itself is not formed.
-/

namespace ClassCensus.Json.Numeral

/-- Take digits into a word that holds `m` while they fit: what it holds then, and how
many digits are left over. -/
def absorb : Nat → List Char → Nat × Nat
  | m, [] => (m, 0)
  | m, d :: ds =>
    if m * 10 + digitValue d < wordSize then absorb (m * 10 + digitValue d) ds
    else (m, ds.length + 1)

@[simp] theorem absorb_nil (m : Nat) : absorb m [] = (m, 0) := rfl

theorem absorb_cons_of_lt {m : Nat} {d : Char} (h : m * 10 + digitValue d < wordSize)
    (ds : List Char) : absorb m (d :: ds) = absorb (m * 10 + digitValue d) ds := by
  simp [absorb, h]

def writtenExponent (n : Numeral) : Int :=
  match n.exponent with
  | none => 0
  | some (true, es) => -(value es : Int)
  | some (false, es) => (value es : Int)

/-- A significand that fits a word, and the power of ten that goes with it. -/
def scaled (n : Numeral) : Nat × Int :=
  let (m, extra) := absorb 0 n.whole
  let fs := n.fraction.getD []
  let (k, dropped) := absorb m fs
  (k, (extra : Int) - ((fs.length : Int) - (dropped : Int)) + n.writtenExponent)

/-- The number of 53 significant bits that is nearest to `n`, the even one of two. -/
def roundSignificand (n : Nat) : Nat :=
  let low := n.log2 + 1 - 53
  let unit := Nat.pow 2 low
  let q := n / unit
  let twice := 2 * (n % unit)
  if unit < twice ∨ (unit = twice ∧ q % 2 = 1) then (q + 1) * unit else q * unit

theorem roundSignificand_of_lt {n : Nat} (h : n < Nat.pow 2 53) : roundSignificand n = n := by
  have low : n.log2 + 1 - 53 = 0 := by
    by_cases z : n = 0
    · simp [z]
    · have := (Nat.log2_lt z).2 h
      omega
  simp [roundSignificand, low, Nat.mod_one]

/-- The least natural number that rounds to no finite double: half a step above the
largest. -/
def unbounded : Nat := Nat.pow 2 1024 - Nat.pow 2 970

/-- The largest power of ten that is a finite double. -/
def largestPower : Int := 308

def exceeds (m : Nat) (e : Int) : Bool :=
  if m = 0 ∨ e < 0 then false
  else if largestPower < e then true
  else unbounded ≤ roundSignificand m * roundSignificand (Nat.pow 10 e.toNat)

def decode (s : List Char) : Except Fault (Numeral × List Char) :=
  match read s with
  | .error f => .error f
  | .ok (n, r) => if exceeds n.scaled.1 n.scaled.2 then .error .malformed else .ok (n, r)

theorem read_of_decode {s r : List Char} {n : Numeral} (h : decode s = .ok (n, r)) :
    read s = .ok (n, r) := by
  unfold decode at h
  split at h
  · simp at h
  next e =>
    split at h
    · simp at h
    · rw [e, ← h]

theorem length_of_decode {s r : List Char} {n : Numeral} (h : decode s = .ok (n, r)) :
    r.length < s.length :=
  length_of_read (read_of_decode h)

end ClassCensus.Json.Numeral
