import ClassCensus.Proofs.Json.Layout
import ClassCensus.Settings.Reader
import Mathlib.Data.List.Forall2

/-!
# The form of settings

A text gives settings as members, each a value under a key. `Gives ms s` holds when the
text `s` gives the members `ms`: in an object, where a key may be spelled in many ways,
or as a list of values, which stand for the fields in their order. The values are any
JSON values. Which settings the members mean is a matter of its own: `Means ms c` wants
each field either not to be given, and then to have its default, or to be given once, as
what it holds is spelled.

A text gives its members in one way, and nothing but blanks can follow them
(`Gives.append_inj`).

A reader fills one member after the other into a draft. `Draft.Fills` is the meaning of
members for a draft, and `Draft.fills_cons` takes it apart member by member.
-/

namespace ClassCensus.Settings

open ClassCensus.Json

/-! ### Fields -/

namespace Field

def Content : Field → Type
  | depthLimit => Nat
  | surveyOnOpening => Bool
  | checkThread => Bool

/-- What a field can be given: a number that fits a word, or either truth value. -/
def Admits : (f : Field) → f.Content → Prop
  | depthLimit, (n : Nat) => n < Numeral.wordSize
  | surveyOnOpening, _ => True
  | checkThread, _ => True

def spell : (f : Field) → f.Content → List Char
  | depthLimit, n => Layout.natural n
  | surveyOnOpening, b => Layout.truth b
  | checkThread, b => Layout.truth b

theorem spell_injective (f : Field) : Function.Injective f.spell := by
  cases f with
  | depthLimit => exact Numeral.natural_injective
  | surveyOnOpening => exact Layout.truth_injective
  | checkThread => exact Layout.truth_injective

theorem isValue_spell (f : Field) (x : f.Content) : IsValue (f.spell x) := by
  cases f with
  | depthLimit => exact Layout.isValue_natural x
  | surveyOnOpening => exact Layout.isValue_truth x
  | checkThread => exact Layout.isValue_truth x

theorem ofKey?_eq_some {k : List Char} {f : Field} : ofKey? k = some f ↔ k = f.key.toList := by
  constructor
  · intro h
    have found := List.find?_some h
    exact (eq_of_beq found).symm
  · rintro rfl
    cases f <;> decide

theorem ofKey?_eq_none {k : List Char} : ofKey? k = none ↔ ∀ f : Field, k ≠ f.key.toList := by
  rw [Option.eq_none_iff_forall_ne_some]
  exact forall_congr' fun f => not_congr ofKey?_eq_some

theorem key_injective {f g : Field} (h : f.key.toList = g.key.toList) : f = g :=
  Option.some.inj ((ofKey?_eq_some.2 rfl).symm.trans (ofKey?_eq_some.2 h))

end Field

def get (c : Settings) : (f : Field) → f.Content
  | .depthLimit => c.depthLimit
  | .surveyOnOpening => c.surveyOnOpening
  | .checkThread => c.checkThread

theorem ext_get {c c' : Settings} (h : ∀ f, c.get f = c'.get f) : c = c' :=
  Settings.ext (h .depthLimit) (h .surveyOnOpening) (h .checkThread)

/-! ### Members -/

structure Member where
  /-- The text that the key means. -/
  key : List Char
  /-- The value, as it is written. -/
  value : List Char
deriving DecidableEq

namespace Member

inductive Written (m : Member) : List Char → Prop
  | intro {k w w' : List Char} (key : Text.Spells m.key k) (before : Blanks w) (behind : Blanks w')
      (value : IsValue m.value) : Written m ('"' :: (k ++ '"' :: (w ++ ':' :: (w' ++ m.value))))

def ofField (f : Field) (v : List Char) : Member := ⟨f.key.toList, v⟩

def known (m : Member) : Bool := (Field.ofKey? m.key).isSome

variable {m m' : Member} {x : List Char}

theorem Written.fits (h : m.Written x) : Fits (.part .object) x := by
  cases h with
  | intro key before behind value => exact .member key.isText before behind value

/-- A written member has one key and one value. -/
theorem Written.unique (h : m.Written x) (h' : m'.Written x) : m = m' := by
  obtain ⟨key, value⟩ := m
  obtain ⟨key', value'⟩ := m'
  generalize split : x = x' at h'
  cases h with
  | @intro k w v hk before behind hv =>
    cases h' with
    | @intro k' w' v' hk' before' behind' hv' =>
      have same : k ++ '"' :: (w ++ ':' :: (v ++ value)) =
          k' ++ '"' :: (w' ++ ':' :: (v' ++ value')) := by simpa using split
      obtain ⟨rfl, rest⟩ := hk.append_inj hk' same
      have rest := (mark_append_inj before before' isBlank_colon isBlank_colon rest).2
      obtain ⟨rfl, -⟩ := Fits.blanks_append_inj hv hv' behind behind' Numeral.stops_nil
        Numeral.stops_nil (by simpa using rest)
      rfl

theorem fits_of_forall₂ {ms : List Member} {xs : List (List Char)}
    (h : List.Forall₂ Written ms xs) : ∀ x ∈ xs, Fits (.part .object) x := by
  induction h with
  | nil => exact List.forall_mem_nil _
  | cons h _ ih => exact List.forall_mem_cons.2 ⟨h.fits, ih⟩

end Member

/-- A text gives members in an object, or as the values of a list. -/
inductive Holds : List Member → List Char → Prop
  | object {ms : List Member} {xs : List (List Char)} {t : List Char}
      (members : List.Forall₂ Member.Written ms xs) (h : Enclosed .object xs t) : Holds ms t
  | list {vs : List (List Char)} {t : List Char} (values : ∀ v ∈ vs, IsValue v)
      (few : vs.length ≤ Field.all.length) (h : Enclosed .list vs t) :
      Holds (List.zipWith Member.ofField Field.all vs) t

def Gives (ms : List Member) (s : List Char) : Prop :=
  ∃ w t w', Blanks w ∧ Holds ms t ∧ Blanks w' ∧ s = w ++ (t ++ w')

/-- Where the text that holds members ends, and which they are, is known. -/
theorem Holds.append_inj {ms ms' : List Member} {t t' r r' : List Char} (h : Holds ms t)
    (h' : Holds ms' t') (eq : t ++ r = t' ++ r') : ms = ms' ∧ r = r' := by
  cases h with
  | object members h =>
    cases h' with
    | object members' h' =>
      obtain ⟨-, rfl, rfl⟩ := h.append_inj h' (Member.fits_of_forall₂ members)
        (Member.fits_of_forall₂ members') eq
      exact ⟨List.left_unique_forall₂' (fun _ _ _ h h' => h.unique h') members members', rfl⟩
    | list values few h' =>
      have := (h.append_inj h' (Member.fits_of_forall₂ members) (fun v mem => .item (values v mem))
        eq).1
      cases this
  | list values few h =>
    cases h' with
    | object members' h' =>
      have := (h.append_inj h' (fun v mem => .item (values v mem)) (Member.fits_of_forall₂ members')
        eq).1
      cases this
    | list values' few' h' =>
      obtain ⟨-, rfl, rfl⟩ := h.append_inj h' (fun v mem => .item (values v mem))
        (fun v mem => .item (values' v mem)) eq
      exact ⟨rfl, rfl⟩

theorem Holds.skipBlank {ms : List Member} {t : List Char} (h : Holds ms t) (r : List Char) :
    skipBlank (t ++ r) = t ++ r := by
  have brackets {b : Bracket} {xs : List (List Char)} (h : Enclosed b xs t) :
      Json.skipBlank (t ++ r) = t ++ r := by
    cases h <;> cases b <;> rfl
  cases h with
  | object members h => exact brackets h
  | list values few h => exact brackets h

/-- A text gives its members in one way, and it is the beginning of another such text
only if nothing but blanks follow. -/
theorem Gives.append_inj {ms ms' : List Member} {s x : List Char} (h : Gives ms s)
    (h' : Gives ms' (s ++ x)) : ms = ms' ∧ Blanks x := by
  obtain ⟨w, t, v, before, holds, behind, rfl⟩ := h
  obtain ⟨w', t', v', before', holds', behind', eq⟩ := h'
  have same := blanks_append_inj before before' (holds.skipBlank (v ++ x)) (holds'.skipBlank v')
    (by simpa using eq)
  obtain ⟨rfl, rfl⟩ := holds.append_inj holds' same
  exact ⟨rfl, fun c mem => behind' c (List.mem_append_right v mem)⟩

theorem Gives.unique {ms ms' : List Member} {s : List Char} (h : Gives ms s) (h' : Gives ms' s) :
    ms = ms' :=
  (h.append_inj ((List.append_nil s).symm ▸ h')).1

theorem Gives.append_blanks {ms : List Member} {s x : List Char} (h : Gives ms s)
    (blanks : Blanks x) : Gives ms (s ++ x) := by
  obtain ⟨w, t, v, before, holds, behind, rfl⟩ := h
  exact ⟨w, t, v ++ x, before, holds, behind.append blanks, by simp⟩

/-! ### What members mean -/

def valuesOf (f : Field) (ms : List Member) : List (List Char) :=
  (ms.filter fun m => m.key = f.key.toList).map Member.value

/-- Each field is not given and has its default, or it is given once, as its content is
spelled. -/
def Means (ms : List Member) (c : Settings) : Prop :=
  ∀ f : Field, (valuesOf f ms = [] ∧ c.get f = default.get f) ∨
    (valuesOf f ms = [f.spell (c.get f)] ∧ f.Admits (c.get f))

theorem valuesOf_nil (f : Field) : valuesOf f [] = [] := rfl

theorem valuesOf_cons_self {f : Field} {m : Member} (h : m.key = f.key.toList) (ms : List Member) :
    valuesOf f (m :: ms) = m.value :: valuesOf f ms := by
  simp [valuesOf, h]

theorem valuesOf_cons_of_ne {f : Field} {m : Member} (h : m.key ≠ f.key.toList)
    (ms : List Member) : valuesOf f (m :: ms) = valuesOf f ms := by
  simp [valuesOf, h]

/-- Members mean at most one thing. -/
theorem Means.unique {ms : List Member} {c c' : Settings} (h : Means ms c) (h' : Means ms c') :
    c = c' := by
  refine ext_get fun f => ?_
  obtain ⟨absent, eq⟩ | ⟨once, -⟩ := h f <;> obtain ⟨absent', eq'⟩ | ⟨once', -⟩ := h' f
  · rw [eq, eq']
  · simp [absent] at once'
  · simp [once] at absent'
  · exact f.spell_injective (by simpa [once] using once')

/-- Only the members that give a field matter. -/
theorem valuesOf_filter_known (f : Field) (ms : List Member) :
    valuesOf f (ms.filter Member.known) = valuesOf f ms := by
  unfold valuesOf
  rw [List.filter_filter]
  congr 1
  refine List.filter_congr fun m _ => ?_
  by_cases own : m.key = f.key.toList
  · simp [own, Member.known, Field.ofKey?_eq_some.2 rfl]
  · simp [own]

/-- The order of members does not matter, nor what else is given. -/
theorem Means.of_perm {ms ms' : List Member} {c : Settings}
    (h : (ms.filter Member.known).Perm (ms'.filter Member.known)) (means : Means ms c) :
    Means ms' c := by
  intro f
  have values : (valuesOf f ms).Perm (valuesOf f ms') := by
    rw [← valuesOf_filter_known f ms, ← valuesOf_filter_known f ms']
    exact (h.filter _).map _
  obtain ⟨absent, eq⟩ | ⟨once, admits⟩ := means f
  · rw [absent] at values
    exact .inl ⟨values.nil_eq.symm, eq⟩
  · rw [once] at values
    exact .inr ⟨(List.singleton_perm.1 values).symm, admits⟩

/-! ### Drafts -/

namespace Draft

def get (d : Draft) : (f : Field) → Option f.Content
  | .depthLimit => d.depthLimit
  | .surveyOnOpening => d.surveyOnOpening
  | .checkThread => d.checkThread

def set (d : Draft) : (f : Field) → f.Content → Draft
  | .depthLimit, n => { d with depthLimit := some n }
  | .surveyOnOpening, b => { d with surveyOnOpening := some b }
  | .checkThread, b => { d with checkThread := some b }

variable {d e : Draft} {f g : Field}

theorem ext_get (h : ∀ f, d.get f = e.get f) : d = e :=
  Draft.ext (h .depthLimit) (h .surveyOnOpening) (h .checkThread)

@[simp] theorem get_set_self (d : Draft) (f : Field) (x : f.Content) :
    (d.set f x).get f = some x := by
  cases f <;> rfl

theorem get_set_of_ne (h : f ≠ g) (d : Draft) (x : f.Content) : (d.set f x).get g = d.get g := by
  cases f <;> cases g <;> first | rfl | exact absurd rfl h

theorem has_eq_false : d.has f = false ↔ d.get f = none := by
  cases f <;> exact Option.isSome_eq_false_iff.trans Option.isNone_iff_eq_none

@[simp] theorem get_empty (f : Field) : empty.get f = none := by
  cases f <;> rfl

theorem get_complete (d : Draft) (f : Field) :
    d.complete.get f = (d.get f).getD (Settings.default.get f) := by
  cases f <;> rfl

def Fills (d : Draft) (ms : List Member) (e : Draft) : Prop :=
  ∀ f : Field, (valuesOf f ms = [] ∧ e.get f = d.get f) ∨
    (d.get f = none ∧ ∃ x, valuesOf f ms = [f.spell x] ∧ f.Admits x ∧ e.get f = some x)

/-- What a member adds to the draft `d`: nothing, or the content of a field that was not
given. -/
inductive Takes (d : Draft) (m : Member) : Draft → Prop
  | foreign (h : Field.ofKey? m.key = none) : Takes d m d
  | field {f : Field} {x : f.Content} (h : Field.ofKey? m.key = some f) (fresh : d.get f = none)
      (value : m.value = f.spell x) (admits : f.Admits x) : Takes d m (d.set f x)

theorem fills_nil : d.Fills [] e ↔ e = d := by
  constructor
  · intro h
    refine ext_get fun f => ?_
    obtain ⟨-, eq⟩ | ⟨-, x, once, -⟩ := h f
    · exact eq
    · simp [valuesOf_nil] at once
  · rintro rfl f
    exact .inl ⟨rfl, rfl⟩

theorem fills_cons_of_foreign {m : Member} (h : Field.ofKey? m.key = none) (ms : List Member) :
    d.Fills (m :: ms) e ↔ d.Fills ms e :=
  forall_congr' fun f => by rw [valuesOf_cons_of_ne (Field.ofKey?_eq_none.1 h f)]

theorem fills_cons_of_field {m : Member} (h : Field.ofKey? m.key = some f) (ms : List Member) :
    d.Fills (m :: ms) e ↔
      d.get f = none ∧ ∃ x, m.value = f.spell x ∧ f.Admits x ∧ (d.set f x).Fills ms e := by
  have own : m.key = f.key.toList := Field.ofKey?_eq_some.1 h
  have other {g : Field} (ne : f ≠ g) : m.key ≠ g.key.toList := fun eq =>
    ne (Field.key_injective (own.symm.trans eq))
  constructor
  · intro fills
    obtain ⟨absent, -⟩ | ⟨fresh, x, once, admits, eq⟩ := fills f
    · simp [valuesOf_cons_self own] at absent
    obtain ⟨value, absent⟩ : m.value = f.spell x ∧ valuesOf f ms = [] := by
      simpa [valuesOf_cons_self own] using once
    refine ⟨fresh, x, value, admits, fun g => ?_⟩
    by_cases ne : f = g
    · subst ne
      exact .inl ⟨absent, by rw [eq, get_set_self]⟩
    · rw [get_set_of_ne ne, ← valuesOf_cons_of_ne (other ne)]
      exact fills g
  · rintro ⟨fresh, x, value, admits, fills⟩ g
    by_cases ne : f = g
    · subst ne
      obtain ⟨absent, eq⟩ | ⟨fresh', -⟩ := fills f
      · exact .inr ⟨fresh, x, by rw [valuesOf_cons_self own, absent, value], admits, by
          rw [eq, get_set_self]⟩
      · simp at fresh'
    · rw [valuesOf_cons_of_ne (other ne), ← get_set_of_ne ne d x]
      exact fills g

theorem fills_cons {m : Member} {ms : List Member} :
    d.Fills (m :: ms) e ↔ ∃ d', d.Takes m d' ∧ d'.Fills ms e := by
  constructor
  · intro fills
    cases h : Field.ofKey? m.key with
    | none => exact ⟨d, .foreign h, (fills_cons_of_foreign h ms).1 fills⟩
    | some f =>
      obtain ⟨fresh, x, value, admits, fills⟩ := (fills_cons_of_field h ms).1 fills
      exact ⟨_, .field h fresh value admits, fills⟩
  · rintro ⟨d', takes, fills⟩
    cases takes with
    | foreign h => exact (fills_cons_of_foreign h ms).2 fills
    | field h fresh value admits =>
      exact (fills_cons_of_field h ms).2 ⟨fresh, _, value, admits, fills⟩

theorem Takes.ofField {x : f.Content} (fresh : d.get f = none) (admits : f.Admits x) :
    d.Takes (.ofField f (f.spell x)) (d.set f x) :=
  .field (Field.ofKey?_eq_some.2 rfl) fresh rfl admits

theorem exists_of_takes_ofField {v : List Char} (h : d.Takes (.ofField f v) e) :
    ∃ x, v = f.spell x ∧ f.Admits x ∧ e = d.set f x := by
  have own : Field.ofKey? (Member.ofField f v).key = some f := Field.ofKey?_eq_some.2 rfl
  cases h with
  | foreign h => simp [h] at own
  | field h fresh value admits =>
    obtain rfl := Option.some.inj (h.symm.trans own)
    exact ⟨_, value, admits, rfl⟩

end Draft

/-- Members mean what completes the draft that they fill. -/
theorem means_iff {ms : List Member} {c : Settings} :
    Means ms c ↔ ∃ e, Draft.empty.Fills ms e ∧ e.complete = c := by
  constructor
  · intro means
    have content (f : Field) : ∃ o : Option f.Content, o.getD (default.get f) = c.get f ∧
        ((valuesOf f ms = [] ∧ o = none) ∨
          ∃ x, valuesOf f ms = [f.spell x] ∧ f.Admits x ∧ o = some x) := by
      obtain ⟨absent, eq⟩ | ⟨once, admits⟩ := means f
      · exact ⟨none, eq.symm, .inl ⟨absent, rfl⟩⟩
      · exact ⟨some (c.get f), rfl, .inr ⟨_, once, admits, rfl⟩⟩
    choose o held given using content
    have get (f : Field) :
        Draft.get ⟨o .depthLimit, o .surveyOnOpening, o .checkThread⟩ f = o f := by
      cases f <;> rfl
    refine ⟨⟨o .depthLimit, o .surveyOnOpening, o .checkThread⟩, fun f => ?_, ?_⟩
    · rw [get, Draft.get_empty]
      obtain given | given := given f
      · exact .inl given
      · exact .inr ⟨rfl, given⟩
    · refine ext_get fun f => ?_
      rw [Draft.get_complete, get, held]
  · rintro ⟨e, fills, rfl⟩ f
    rw [Draft.get_complete]
    obtain ⟨absent, eq⟩ | ⟨-, x, once, admits, eq⟩ := fills f
    · exact .inl ⟨absent, by rw [eq, Draft.get_empty]; rfl⟩
    · rw [eq]
      exact .inr ⟨once, admits⟩

end ClassCensus.Settings
