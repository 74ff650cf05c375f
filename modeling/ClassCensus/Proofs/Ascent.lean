import ClassCensus.Ascent
import Mathlib.Data.List.Nodup

/-!
# The way up a superclass chain

`Climbs d anchor chain` is the way up from `d` with no limit on its length: it
passes the unknown classes `chain`, listed from the top down, and ends below the
class on record `anchor`, or at a class that extends nothing. `of_eq_ok_iff` says
that an ascent is this way wherever it is short enough.

The host is asked for one superclass at a time, so there is one way up from a
class. A class that came twice would have a way longer than itself. This is why
a chain that ends has no repetitions, whatever the host reports.

More classes on record only make the way up shorter, so `Ends` lasts. Where the way
up ends, an ascent can fail for its length only.
-/

namespace ClassCensus

namespace Ascent

/-- The way up from a class, its unknown part from the top down. -/
inductive Climbs (known : Descriptor → Bool) (describe : Descriptor → Option ClassInfo) :
    Descriptor → Option Descriptor → List Sighting → Prop
  | anchored {d : Descriptor} (here : known d = true) : Climbs known describe d (some d) []
  | top {d : Descriptor} {info : ClassInfo} (unknown : known d = false)
    (described : describe d = some info) (last : info.superclass = none) :
    Climbs known describe d none [⟨d, info⟩]
  | up {d s : Descriptor} {info : ClassInfo} {anchor : Option Descriptor}
    {chain : List Sighting} (unknown : known d = false)
    (described : describe d = some info) (next : info.superclass = some s)
    (above : Climbs known describe s anchor chain) :
    Climbs known describe d anchor (chain ++ [⟨d, info⟩])

def Ends (known : Descriptor → Bool) (describe : Descriptor → Option ClassInfo)
    (d : Descriptor) : Prop :=
  ∃ anchor chain, Climbs known describe d anchor chain

variable {known : Descriptor → Bool} {describe : Descriptor → Option ClassInfo}

namespace Climbs

variable {d : Descriptor} {anchor : Option Descriptor} {chain : List Sighting}

theorem unique {anchor' : Option Descriptor} {chain' : List Sighting}
    (h : Climbs known describe d anchor chain) (h' : Climbs known describe d anchor' chain') :
    anchor = anchor' ∧ chain = chain' := by
  induction h generalizing anchor' chain' with
  | anchored here =>
      cases h' with
      | anchored => exact ⟨rfl, rfl⟩
      | top unknown => exact absurd (here.symm.trans unknown) Bool.true_eq_false.mp
      | up unknown => exact absurd (here.symm.trans unknown) Bool.true_eq_false.mp
  | top unknown described last =>
      cases h' with
      | anchored here => exact absurd (here.symm.trans unknown) Bool.true_eq_false.mp
      | top _ described' _ =>
          cases described.symm.trans described'
          exact ⟨rfl, rfl⟩
      | up _ described' next =>
          cases described.symm.trans described'
          cases last.symm.trans next
  | up unknown described next _ ih =>
      cases h' with
      | anchored here => exact absurd (here.symm.trans unknown) Bool.true_eq_false.mp
      | top _ described' last =>
          cases described.symm.trans described'
          cases last.symm.trans next
      | up _ described' next' above' =>
          cases described.symm.trans described'
          cases next.symm.trans next'
          obtain ⟨rfl, rfl⟩ := ih above'
          exact ⟨rfl, rfl⟩

/-- The way up from a class that is passed is a part of the whole way. -/
theorem of_mem (h : Climbs known describe d anchor chain) :
    ∀ s ∈ chain, ∃ part, Climbs known describe s.descriptor anchor part ∧
      part.length ≤ chain.length := by
  induction h with
  | anchored =>
      intro s hs
      cases hs
  | top unknown described last =>
      intro s hs
      rw [List.mem_singleton.mp hs]
      exact ⟨_, .top unknown described last, Nat.le_refl _⟩
  | up unknown described next above ih =>
      intro s hs
      rcases List.mem_append.mp hs with higher | here
      · obtain ⟨part, way, short⟩ := ih s higher
        refine ⟨part, way, Nat.le_trans short ?_⟩
        rw [List.length_append]
        exact Nat.le_add_right _ _
      · rw [List.mem_singleton.mp here]
        exact ⟨_, .up unknown described next above, Nat.le_refl _⟩

theorem not_known_of_mem (h : Climbs known describe d anchor chain) :
    ∀ s ∈ chain, known s.descriptor = false := by
  induction h with
  | anchored =>
      intro s hs
      cases hs
  | top unknown =>
      intro s hs
      rw [List.mem_singleton.mp hs]
      exact unknown
  | up unknown _ _ _ ih =>
      intro s hs
      rcases List.mem_append.mp hs with higher | here
      · exact ih s higher
      · rw [List.mem_singleton.mp here]
        exact unknown

theorem anchor_of_nil (h : Climbs known describe d anchor []) : anchor = some d := by
  generalize shape : ([] : List Sighting) = chain at h
  cases h with
  | anchored => rfl
  | top => cases shape
  | up => cases (List.append_eq_nil_iff.mp shape.symm).2

theorem not_mem_above {s : Descriptor} {info : ClassInfo} (unknown : known d = false)
    (described : describe d = some info) (next : info.superclass = some s)
    (above : Climbs known describe s anchor chain) : d ∉ chain.map Sighting.descriptor := by
  intro again
  obtain ⟨t, ht, same⟩ := List.mem_map.mp again
  obtain ⟨part, way, short⟩ := above.of_mem t ht
  rw [same] at way
  have whole := (way.unique (.up unknown described next above)).2
  rw [whole, List.length_append] at short
  exact Nat.not_succ_le_self _ short

/-- The way up ends, too, where other classes are on record, if it ends from each of
those that were. -/
theorem ends_of_forall (h : Climbs known describe d anchor chain) {known' : Descriptor → Bool}
    (each : ∀ e, known e = true → Ends known' describe e) : Ends known' describe d := by
  induction h with
  | anchored here => exact each _ here
  | @top d info _ described last =>
      cases known : known' d with
      | true => exact ⟨_, _, .anchored known⟩
      | false => exact ⟨_, _, .top known described last⟩
  | @up d s info anchor chain _ described next _ ih =>
      obtain ⟨anchor', chain', above⟩ := ih
      cases known : known' d with
      | true => exact ⟨_, _, .anchored known⟩
      | false => exact ⟨_, _, .up known described next above⟩

theorem ends_of_imp (h : Climbs known describe d anchor chain) {known' : Descriptor → Bool}
    (more : ∀ e, known e = true → known' e = true) : Ends known' describe d :=
  h.ends_of_forall fun e here => ⟨_, _, .anchored (more e here)⟩

/-- Where more classes are on record, the lower part of the way is what is left of it. -/
theorem exists_suffix (h : Climbs known describe d anchor chain) {known' : Descriptor → Bool}
    (more : ∀ e, known e = true → known' e = true) :
    ∃ anchor' chain', Climbs known' describe d anchor' chain' ∧ chain' <:+ chain := by
  induction h with
  | anchored here => exact ⟨_, _, .anchored (more _ here), List.suffix_refl []⟩
  | @top d info _ described last =>
      cases known : known' d with
      | true => exact ⟨_, _, .anchored known, List.nil_suffix⟩
      | false => exact ⟨_, _, .top known described last, List.suffix_rfl⟩
  | @up d s info anchor chain _ described next _ ih =>
      obtain ⟨anchor', chain', above, lower⟩ := ih
      cases known : known' d with
      | true => exact ⟨_, _, .anchored known, List.nil_suffix⟩
      | false =>
          refine ⟨_, _, .up known described next above, ?_⟩
          obtain ⟨front, parts⟩ := lower
          exact ⟨front, by rw [← parts, List.append_assoc]⟩

/-- Climbing finds the way up if there is room for it, and else the room is what fails. -/
theorem climb_eq (h : Climbs known describe d anchor chain) (room : Nat)
    (below : List Sighting) :
    climb known describe room d below =
      if chain.length ≤ room then .ok ⟨anchor, chain ++ below⟩ else .error none := by
  induction h generalizing room below with
  | anchored here =>
      rw [climb_of_known here, List.length_nil, if_pos (Nat.zero_le room), List.nil_append]
  | top unknown described last =>
      cases room with
      | zero => simp [climb, unknown]
      | succ room => simp [climb, unknown, described, last]
  | up unknown described next _ ih =>
      cases room with
      | zero => simp [climb, unknown]
      | succ room => simp [climb, unknown, described, next, ih]

end Climbs

theorem climb_eq_ok_iff {room : Nat} {d : Descriptor} {below : List Sighting} {a : Ascent} :
    climb known describe room d below = .ok a ↔
      ∃ chain, Climbs known describe d a.anchor chain ∧ chain.length ≤ room ∧
        a.chain = chain ++ below := by
  constructor
  · intro h
    fun_induction climb known describe room d below with
    | case1 room d below here =>
        cases h
        exact ⟨[], .anchored here, Nat.zero_le _, rfl⟩
    | case2 => cases h
    | case3 => cases h
    | case4 d below unknown room info described last =>
        cases h
        exact ⟨[⟨d, info⟩], .top (Bool.eq_false_iff.mpr unknown) described last,
          Nat.le_add_left _ _, rfl⟩
    | case5 d below unknown room info described s next ih =>
        obtain ⟨chain, way, short, parts⟩ := ih h
        refine ⟨chain ++ [⟨d, info⟩],
          .up (Bool.eq_false_iff.mpr unknown) described next way, ?_, ?_⟩
        · rw [List.length_append]
          exact Nat.succ_le_succ short
        · rw [parts, List.append_assoc, List.singleton_append]
  · rintro ⟨chain, way, short, parts⟩
    rw [way.climb_eq, if_pos short, ← parts]

/-- An ascent succeeds where the way up is within the limit, and then it is this way. -/
theorem of_eq_ok_iff {host : Host} {limit : Nat} {d : Descriptor} {a : Ascent} :
    of known host limit d = .ok a ↔
      Climbs known host.describe d a.anchor a.chain ∧ a.chain.length ≤ limit := by
  have climbed : of known host limit d = .ok a ↔ climb known host.describe limit d [] = .ok a := by
    unfold of
    split <;> simp_all
  rw [climbed, climb_eq_ok_iff]
  simp only [List.append_nil]
  constructor
  · rintro ⟨chain, way, short, rfl⟩
    exact ⟨way, short⟩
  · rintro ⟨way, short⟩
    exact ⟨a.chain, way, short, rfl⟩

/-- Where the way up ends, the limit is the only reason to fail. -/
theorem eq_tooDeep_of_error {host : Host} {limit : Nat} {d : Descriptor} {e : AscentError}
    (failed : of known host limit d = .error e) (ends : Ends known host.describe d) :
    e = .tooDeep d limit := by
  obtain ⟨anchor, chain, way⟩ := ends
  rw [of, way.climb_eq] at failed
  by_cases short : chain.length ≤ limit
  · rw [if_pos short] at failed
    cases failed
  · rw [if_neg short] at failed
    cases failed
    rfl

end Ascent

end ClassCensus
