import ClassCensus.Proofs.Json.Value

/-!
# Passing over what fits

`skim` passes over exactly what the grammar allows. One direction goes by the grammar:
what fits is passed over, whatever is open around it. The other goes by the run of the
reader: from each place, what was passed over completes what the place is in the middle
of (`Completes`).

The reader has one result, so a text has at most one beginning that fits where the text
stops behind it (`Fits.append_inj`), and brackets show where they end and what their
parts are (`Enclosed.append_inj`).
-/

namespace ClassCensus.Json

open Numeral (Stops)

section Skim

variable {p q : Place} {c : Char} {r t w : List Char}

theorem skim_blank (apart : p ≠ .done) (blank : isBlank c = true) : skim p (c :: r) = skim p r := by
  rw [skim]
  simp [apart, blank]

theorem skim_blanks (apart : p ≠ .done) (h : Blanks w) (r : List Char) :
    skim p (w ++ r) = skim p r := by
  induction w with
  | nil => rfl
  | cons c w ih =>
    rw [List.cons_append, skim_blank apart (h c List.mem_cons_self)]
    exact ih fun x mem => h x (List.mem_cons_of_mem _ mem)

theorem skim_step (apart : p ≠ .done) (solid : isBlank c = false) (h : p.step c r = .ok (q, t)) :
    skim p (c :: r) = skim q t := by
  rw [skim]
  simp only [apart, solid, Bool.false_eq_true, if_false]
  split <;> simp_all

theorem skim_congr (apart : p ≠ .done) (apart' : q ≠ .done) (solid : isBlank c = false)
    (h : p.step c r = q.step c r) : skim p (c :: r) = skim q (c :: r) := by
  rw [skim, skim]
  simp only [apart, apart', solid, Bool.false_eq_true, if_false]
  split <;> split <;> simp_all

end Skim

namespace Place

theorem stepValue_word {w : List Char} (h : w ∈ words) (opened : List Bracket) (r : List Char) :
    ∃ c u, w = c :: u ∧ stepValue opened c (u ++ r) = .ok (⟨.after, opened⟩, r) := by
  simp only [words, List.mem_cons, List.not_mem_nil, or_false] at h
  obtain rfl | rfl | rfl := h <;>
    exact ⟨_, _, rfl, by simp [stepValue, word, Except.map]⟩

theorem stepValue_of_startsWith {c : Char} (h : Numeral.startsWith c = true)
    (opened : List Bracket) (r : List Char) :
    stepValue opened c r = (Numeral.skip (c :: r)).map fun t => (⟨.after, opened⟩, t) := by
  unfold stepValue
  repeat rw [if_neg (by rintro rfl; cases h)]
  rw [if_pos h]

theorem stepValue_numeral {n : Numeral} {t r : List Char} (h : n.Written t)
    (opened : List Bracket) (stops : Stops r) :
    ∃ c u, t = c :: u ∧ stepValue opened c (u ++ r) = .ok (⟨.after, opened⟩, r) := by
  obtain ⟨c, u, rfl, starts⟩ := h.startsWith
  refine ⟨c, u, rfl, ?_⟩
  rw [stepValue_of_startsWith starts, ← List.cons_append, Numeral.skip_append h stops]
  rfl

theorem stepValue_text {t : List Char} (h : Text.IsText t) (opened : List Bracket) (r : List Char) :
    stepValue opened '"' (t ++ '"' :: r) = .ok (⟨.after, opened⟩, r) := by
  simp [stepValue, Text.skip_of_isText h, Except.map]

theorem stepValue_opening (b : Bracket) (opened : List Bracket) (r : List Char) :
    stepValue opened b.opening r = .ok (⟨.first, b :: opened⟩, r) := by
  cases b <;> rfl

end Place

def Shape.stage : Shape → Stage
  | value => .value
  | part b => b.next

theorem Shape.stage_apart (s : Shape) (opened : List Bracket) :
    (⟨s.stage, opened⟩ : Place) ≠ .done := by
  cases s with
  | value => simp [Shape.stage, Place.done]
  | part b => cases b <;> simp [Shape.stage, Place.done, Bracket.next]

theorem Place.opened_apart (g : Stage) (b : Bracket) (opened : List Bracket) :
    (⟨g, b :: opened⟩ : Place) ≠ .done := by
  simp [Place.done]

/-- The reader passes over `x` at the stage of its shape, whatever is open. -/
def Passes (s : Shape) (x : List Char) : Prop :=
  ∀ (opened : List Bracket) (r : List Char), Stops r →
    skim ⟨s.stage, opened⟩ (x ++ r) = skim ⟨.after, opened⟩ r

theorem skim_closing (b : Bracket) (outer : List Bracket) {w : List Char} (h : Blanks w)
    (r : List Char) : skim ⟨.after, b :: outer⟩ (w ++ b.closing :: r) = skim ⟨.after, outer⟩ r := by
  rw [skim_blanks (Place.opened_apart _ _ _) h]
  exact skim_step (Place.opened_apart _ _ _) b.isBlank_closing (by simp [Place.step])

theorem skim_comma (b : Bracket) (outer : List Bracket) {w : List Char} (h : Blanks w)
    (r : List Char) :
    skim ⟨.after, b :: outer⟩ (w ++ ',' :: r) = skim ⟨b.next, b :: outer⟩ r := by
  rw [skim_blanks (Place.opened_apart _ _ _) h]
  exact skim_step (Place.opened_apart _ _ _) rfl (by simp [Place.step, b.closing_ne_comma.symm])

theorem skim_joined {b : Bracket} {xs : List (List Char)} {t : List Char} (joined : Joined xs t)
    (passes : ∀ x ∈ xs, Passes (.part b) x) (outer : List Bracket) (r : List Char) :
    skim ⟨b.next, b :: outer⟩ (t ++ b.closing :: r) = skim ⟨.after, outer⟩ r := by
  have apart : (⟨b.next, b :: outer⟩ : Place) ≠ .done := Place.opened_apart _ _ _
  induction joined with
  | @one w x w' before behind =>
    have part := passes x List.mem_cons_self (b :: outer) (w' ++ b.closing :: r)
      (stops_append behind (b.stops_closing r))
    rw [List.append_assoc, skim_blanks apart before, List.append_assoc]
    exact part.trans (skim_closing b outer behind r)
  | @more w x w' t xs before behind rest ih =>
    have part := passes x List.mem_cons_self (b :: outer) (w' ++ ',' :: (t ++ b.closing :: r))
      (stops_append behind (stops_comma _))
    rw [List.append_assoc, skim_blanks apart before, List.append_assoc, List.append_assoc,
      List.cons_append]
    calc
      _ = skim ⟨.after, b :: outer⟩ (w' ++ ',' :: (t ++ b.closing :: r)) := part
      _ = skim ⟨b.next, b :: outer⟩ (t ++ b.closing :: r) := skim_comma b outer behind _
      _ = _ := ih fun y mem => passes y (List.mem_cons_of_mem _ mem)

/-- What does not close a bracket at once is its first part. -/
theorem skim_first {b : Bracket} {c : Char} (solid : isBlank c = false) (apart : c ≠ b.closing)
    (outer : List Bracket) (r : List Char) :
    skim ⟨.first, b :: outer⟩ (c :: r) = skim ⟨b.next, b :: outer⟩ (c :: r) := by
  refine skim_congr (Place.opened_apart _ _ _) (Place.opened_apart _ _ _) solid ?_
  cases b <;> simp [Place.step, Bracket.next, apart]

theorem passes_enclosed {b : Bracket} {xs : List (List Char)} {t : List Char}
    (fits : ∀ x ∈ xs, Fits (.part b) x) (passes : ∀ x ∈ xs, Passes (.part b) x)
    (enclosed : Enclosed b xs t) : Passes .value t := by
  intro opened r stops
  have opens (u : List Char) :
      skim ⟨.value, opened⟩ (b.opening :: u) = skim ⟨.first, b :: opened⟩ u :=
    skim_step (by simp [Place.done]) (by cases b <;> rfl) (Place.stepValue_opening b opened u)
  cases enclosed with
  | @empty w h =>
    rw [List.cons_append, List.append_assoc]
    calc
      _ = skim ⟨.first, b :: opened⟩ (w ++ b.closing :: r) := opens _
      _ = skim ⟨.first, b :: opened⟩ (b.closing :: r) := skim_blanks (Place.opened_apart _ _ _) h _
      _ = _ := skim_step (Place.opened_apart _ _ _) b.isBlank_closing (by simp [Place.step])
  | @parts _ t joined =>
    rw [List.cons_append, List.append_assoc]
    have first : skim ⟨.first, b :: opened⟩ (t ++ b.closing :: r) =
        skim ⟨b.next, b :: opened⟩ (t ++ b.closing :: r) := by
      obtain ⟨w, c, u, rfl, blanks, solid, apart⟩ := joined.head fits
      rw [List.append_assoc, skim_blanks (Place.opened_apart _ _ _) blanks,
        skim_blanks (Place.opened_apart _ _ _) blanks]
      exact skim_first solid (apart b) opened _
    calc
      _ = skim ⟨.first, b :: opened⟩ (t ++ b.closing :: r) := opens _
      _ = skim ⟨b.next, b :: opened⟩ (t ++ b.closing :: r) := first
      _ = _ := skim_joined joined passes opened r

theorem passes_member {k w w' v : List Char} (key : Text.IsText k) (before : Blanks w)
    (behind : Blanks w') (passes : Passes .value v) :
    Passes (.part .object) ('"' :: (k ++ '"' :: (w ++ ':' :: (w' ++ v)))) := by
  intro opened r stops
  have apart (g : Stage) (ne : g ≠ .after) : (⟨g, opened⟩ : Place) ≠ .done := by
    simp [Place.done, ne]
  have quote : (⟨.key, opened⟩ : Place).step '"' (k ++ '"' :: (w ++ ':' :: (w' ++ (v ++ r)))) =
      .ok (⟨.colon, opened⟩, w ++ ':' :: (w' ++ (v ++ r))) := by
    simp [Place.step, Place.stepKey, Text.skip_of_isText key, Except.map]
  calc
    skim ⟨.key, opened⟩ ('"' :: (k ++ '"' :: (w ++ ':' :: (w' ++ v))) ++ r)
      = skim ⟨.key, opened⟩ ('"' :: (k ++ '"' :: (w ++ ':' :: (w' ++ (v ++ r))))) := by simp
    _ = skim ⟨.colon, opened⟩ (w ++ ':' :: (w' ++ (v ++ r))) :=
      skim_step (apart _ (by decide)) rfl quote
    _ = skim ⟨.colon, opened⟩ (':' :: (w' ++ (v ++ r))) :=
      skim_blanks (apart _ (by decide)) before _
    _ = skim ⟨.value, opened⟩ (w' ++ (v ++ r)) := skim_step (apart _ (by decide)) rfl rfl
    _ = skim ⟨.value, opened⟩ (v ++ r) := skim_blanks (apart _ (by decide)) behind _
    _ = skim ⟨.after, opened⟩ r := passes opened r stops

theorem Fits.passes {s : Shape} {x : List Char} (h : Fits s x) : Passes s x := by
  induction h with
  | word h =>
    intro opened r stops
    obtain ⟨c, u, rfl, step⟩ := Place.stepValue_word h opened r
    obtain ⟨_, _, ⟨⟩, solid, -⟩ := (Fits.word h).head
    exact skim_step (Shape.stage_apart _ _) solid step
  | numeral h =>
    intro opened r stops
    obtain ⟨c, u, rfl, step⟩ := Place.stepValue_numeral h opened stops
    obtain ⟨_, _, ⟨⟩, solid, -⟩ := (Fits.numeral h).head
    exact skim_step (Shape.stage_apart _ _) solid step
  | text h =>
    intro opened r stops
    rw [List.cons_append, List.append_assoc]
    exact skim_step (Shape.stage_apart _ _) rfl (Place.stepValue_text h opened r)
  | enclosed parts h ih => exact passes_enclosed parts ih h
  | item h ih => exact ih
  | member key before behind h ih => exact passes_member key before behind ih

/-- Where the text stops behind what fits, it is known how much of the text that is. -/
theorem Fits.append_inj {s : Shape} {x y r r' : List Char} (hx : Fits s x) (hy : Fits s y)
    (stops : Stops r) (stops' : Stops r') (eq : x ++ r = y ++ r') : x = y ∧ r = r' := by
  -- with nothing open, the reader ends behind what it has passed over
  have rest : (.ok r : Except Fault (List Char)) = .ok r' :=
    calc
      .ok r = skim Place.done r := (skim_done r).symm
      _ = skim ⟨s.stage, []⟩ (x ++ r) := (hx.passes [] r stops).symm
      _ = skim ⟨s.stage, []⟩ (y ++ r') := by rw [eq]
      _ = skim Place.done r' := hy.passes [] r' stops'
      _ = .ok r' := skim_done r'
  obtain rfl := Except.ok.inj rest
  exact ⟨List.append_cancel_right eq, rfl⟩

/-! ### Brackets and their parts -/

theorem Fits.blanks_append_inj {s : Shape} {w w' x y r r' : List Char} (hx : Fits s x)
    (hy : Fits s y) (blanks : Blanks w) (blanks' : Blanks w') (stops : Stops r) (stops' : Stops r')
    (eq : w ++ (x ++ r) = w' ++ (y ++ r')) : x = y ∧ r = r' :=
  hx.append_inj hy stops stops'
    (Json.blanks_append_inj blanks blanks' (hx.skipBlank r) (hy.skipBlank r') eq)

/-- What stands behind a part, blanks apart, is known with its first character. -/
theorem mark_append_inj {w w' r r' : List Char} {c c' : Char} (h : Blanks w) (h' : Blanks w')
    (solid : isBlank c = false) (solid' : isBlank c' = false) (eq : w ++ c :: r = w' ++ c' :: r') :
    c = c' ∧ r = r' := by
  simpa using blanks_append_inj h h' (skipBlank_cons_of_not_isBlank solid r)
    (skipBlank_cons_of_not_isBlank solid' r') eq

/-- Up to a closing bracket, the parts of a text are known. -/
theorem Joined.append_inj {b : Bracket} {xs ys : List (List Char)} {t t' r r' : List Char}
    (hx : Joined xs t) (hy : Joined ys t') (fits : ∀ x ∈ xs, Fits (.part b) x)
    (fits' : ∀ y ∈ ys, Fits (.part b) y) (eq : t ++ b.closing :: r = t' ++ b.closing :: r') :
    xs = ys ∧ r = r' := by
  have solid := b.isBlank_closing
  have comma := isBlank_comma
  induction hx generalizing ys t' with
  | @one w x v before behind =>
    have hx := fits x List.mem_cons_self
    cases hy with
    | @one w' y v' before' behind' =>
      obtain ⟨rfl, rest⟩ := hx.blanks_append_inj (fits' y List.mem_cons_self) before before'
        (stops_append behind (b.stops_closing r)) (stops_append behind' (b.stops_closing r'))
        (by simpa using eq)
      exact ⟨rfl, (mark_append_inj behind behind' solid solid rest).2⟩
    | @more w' y v' t' ys before' behind' rest' =>
      obtain ⟨-, rest⟩ := hx.blanks_append_inj (fits' y List.mem_cons_self) before before'
        (stops_append behind (b.stops_closing r))
        (stops_append behind' (stops_comma (t' ++ b.closing :: r'))) (by simpa using eq)
      exact (b.closing_ne_comma (mark_append_inj behind behind' solid comma rest).1).elim
  | @more w x v t xs before behind joined ih =>
    have hx := fits x List.mem_cons_self
    cases hy with
    | @one w' y v' before' behind' =>
      obtain ⟨-, rest⟩ := hx.blanks_append_inj (fits' y List.mem_cons_self) before before'
        (stops_append behind (stops_comma (t ++ b.closing :: r)))
        (stops_append behind' (b.stops_closing r')) (by simpa using eq)
      exact (b.closing_ne_comma (mark_append_inj behind behind' comma solid rest).1.symm).elim
    | @more w' y v' t' ys before' behind' joined' =>
      obtain ⟨rfl, rest⟩ := hx.blanks_append_inj (fits' y List.mem_cons_self) before before'
        (stops_append behind (stops_comma (t ++ b.closing :: r)))
        (stops_append behind' (stops_comma (t' ++ b.closing :: r'))) (by simpa using eq)
      obtain ⟨rfl, rfl⟩ := ih joined' (fun z mem => fits z (List.mem_cons_of_mem _ mem))
        (fun z mem => fits' z (List.mem_cons_of_mem _ mem))
        (mark_append_inj behind behind' comma comma rest).2
      exact ⟨rfl, rfl⟩

/-- Parts do not begin with the closing bracket. -/
theorem Joined.apart {b : Bracket} {xs : List (List Char)} {t : List Char} (h : Joined xs t)
    (fits : ∀ x ∈ xs, Fits (.part b) x) {w : List Char} (blanks : Blanks w) (r r' : List Char) :
    w ++ b.closing :: r ≠ t ++ r' := by
  obtain ⟨w', c, u, rfl, before, solid, apart⟩ := h.head fits
  intro eq
  rw [List.append_assoc] at eq
  exact apart b (mark_append_inj blanks before b.isBlank_closing solid eq).1.symm

/-- Brackets show where they end, and which parts they hold. -/
theorem Enclosed.append_inj {b b' : Bracket} {xs ys : List (List Char)} {t t' r r' : List Char}
    (hx : Enclosed b xs t) (hy : Enclosed b' ys t') (fits : ∀ x ∈ xs, Fits (.part b) x)
    (fits' : ∀ y ∈ ys, Fits (.part b') y) (eq : t ++ r = t' ++ r') :
    b = b' ∧ xs = ys ∧ r = r' := by
  have opening : b.opening = b'.opening := by
    cases hx <;> cases hy <;> exact (List.cons.inj eq).1
  obtain rfl := Bracket.opening_injective opening
  refine ⟨rfl, ?_⟩
  cases hx with
  | @empty w h =>
    cases hy with
    | @empty w' h' =>
      have eq : w ++ b.closing :: r = w' ++ b.closing :: r' := by simpa using eq
      exact ⟨rfl, (mark_append_inj h h' b.isBlank_closing b.isBlank_closing eq).2⟩
    | parts joined' => exact (joined'.apart fits' h r (b.closing :: r') (by simpa using eq)).elim
  | parts joined =>
    cases hy with
    | empty h' => exact (joined.apart fits h' r' (b.closing :: r) (by simpa using eq.symm)).elim
    | parts joined' => exact joined.append_inj joined' fits fits' (by simpa using eq)

/-! ### What was passed over fits -/

/-- Behind a value, `t` closes all that is open, and perhaps gives more parts of it
before. -/
inductive Closes : List Bracket → List Char → Prop
  | done : Closes [] []
  | ends {b : Bracket} {outer : List Bracket} {w t : List Char} (h : Blanks w)
      (rest : Closes outer t) : Closes (b :: outer) (w ++ b.closing :: t)
  | goes {b : Bracket} {outer : List Bracket} {w u t : List Char} {xs : List (List Char)}
      (h : Blanks w) (joined : Joined xs u) (fits : ∀ x ∈ xs, Fits (.part b) x)
      (rest : Closes outer t) : Closes (b :: outer) (w ++ ',' :: (u ++ b.closing :: t))

/-- From a place, `t` gives what may come next there and closes all that is open. -/
inductive Completes : Place → List Char → Prop
  | value {opened : List Bracket} {w v t : List Char} (h : Blanks w) (fits : Fits .value v)
      (rest : Closes opened t) : Completes ⟨.value, opened⟩ (w ++ (v ++ t))
  | key {opened : List Bracket} {w x t : List Char} (h : Blanks w) (fits : Fits (.part .object) x)
      (rest : Closes opened t) : Completes ⟨.key, opened⟩ (w ++ (x ++ t))
  | colon {opened : List Bracket} {w w' v t : List Char} (h : Blanks w) (h' : Blanks w')
      (fits : Fits .value v) (rest : Closes opened t) :
      Completes ⟨.colon, opened⟩ (w ++ ':' :: (w' ++ (v ++ t)))
  | empty {b : Bracket} {outer : List Bracket} {w t : List Char} (h : Blanks w)
      (rest : Closes outer t) : Completes ⟨.first, b :: outer⟩ (w ++ b.closing :: t)
  | parts {b : Bracket} {outer : List Bracket} {u t : List Char} {xs : List (List Char)}
      (joined : Joined xs u) (fits : ∀ x ∈ xs, Fits (.part b) x) (rest : Closes outer t) :
      Completes ⟨.first, b :: outer⟩ (u ++ b.closing :: t)
  | after {opened : List Bracket} {t : List Char} (rest : Closes opened t) :
      Completes ⟨.after, opened⟩ t

theorem Blanks.cons {c : Char} {w : List Char} (blank : isBlank c = true) (h : Blanks w) :
    Blanks (c :: w) :=
  List.forall_mem_cons.2 ⟨blank, h⟩

theorem Completes.blank {p : Place} {c : Char} {t : List Char} (apart : p ≠ .done)
    (blank : isBlank c = true) (h : Completes p t) : Completes p (c :: t) := by
  cases h with
  | value h fits rest => exact .value (h.cons blank) fits rest
  | key h fits rest => exact .key (h.cons blank) fits rest
  | colon h h' fits rest => exact .colon (h.cons blank) h' fits rest
  | empty h rest => exact .empty (h.cons blank) rest
  | parts joined fits rest => exact .parts (joined.blanks_append (blanks_nil.cons blank)) fits rest
  | after rest =>
    cases rest with
    -- behind a complete value nothing is read any more, not even blanks
    | done => exact absurd rfl apart
    | ends h rest => exact .after (.ends (h.cons blank) rest)
    | goes h joined fits rest => exact .after (.goes (h.cons blank) joined fits rest)

theorem Closes.joined {b : Bracket} {outer : List Bracket} {w x t : List Char} (h : Blanks w)
    (hx : Fits (.part b) x) (closes : Closes (b :: outer) t) :
    ∃ xs u t', Joined xs u ∧ (∀ y ∈ xs, Fits (.part b) y) ∧ Closes outer t' ∧
      w ++ (x ++ t) = u ++ b.closing :: t' := by
  cases closes with
  | ends h' rest => exact ⟨[x], _, _, .one h h', by simpa using hx, rest, by simp⟩
  | goes h' joined fits rest =>
    exact ⟨_, _, _, .more h h' joined, List.forall_mem_cons.2 ⟨hx, fits⟩, rest, by simp⟩

theorem Completes.joined {b : Bracket} {outer : List Bracket} {t : List Char}
    (h : Completes ⟨b.next, b :: outer⟩ t) :
    ∃ xs u t', Joined xs u ∧ (∀ y ∈ xs, Fits (.part b) y) ∧ Closes outer t' ∧
      t = u ++ b.closing :: t' := by
  cases b with
  | list =>
    cases h with
    | value h fits rest => exact rest.joined h (.item fits)
  | object =>
    cases h with
    | key h fits rest => exact rest.joined h fits

theorem Completes.enclosed {b : Bracket} {opened : List Bracket} {u : List Char}
    (h : Completes ⟨.first, b :: opened⟩ u) :
    ∃ v t, Fits .value v ∧ Closes opened t ∧ b.opening :: u = v ++ t := by
  cases h with
  | empty h rest =>
    exact ⟨_, _, .enclosed (b := b) (List.forall_mem_nil _) (.empty h), rest, by simp⟩
  | parts joined fits rest => exact ⟨_, _, .enclosed fits (.parts joined), rest, by simp⟩

namespace Place

variable {p q : Place} {opened : List Bracket} {c : Char} {s u r : List Char}

theorem fits_of_stepKey (h : stepKey opened c s = .ok (q, u ++ r)) (completes : Completes q u) :
    ∃ x t, Fits (.part .object) x ∧ Closes opened t ∧ c :: s = x ++ (t ++ r) := by
  unfold stepKey at h
  split at h
  next quote =>
    obtain ⟨rest, e, eq⟩ := map_eq_ok h
    obtain ⟨rfl, rfl⟩ := Prod.mk.inj eq
    obtain ⟨k, text, rfl⟩ := Text.skip_eq_ok.1 e
    cases completes with
    | colon before behind fits closes =>
      exact ⟨_, _, .member text before behind fits, closes, by simp [quote]⟩
  next => simp at h

theorem fits_of_stepValue (h : stepValue opened c s = .ok (q, u ++ r))
    (completes : Completes q u) :
    ∃ v t, Fits .value v ∧ Closes opened t ∧ c :: s = v ++ (t ++ r) := by
  have opens {b : Bracket} (hc : c = b.opening)
      (h : (.ok (⟨.first, b :: opened⟩, s) : Except Fault (Place × List Char)) = .ok (q, u ++ r)) :
      ∃ v t, Fits .value v ∧ Closes opened t ∧ c :: s = v ++ (t ++ r) := by
    obtain ⟨rfl, rfl⟩ := Prod.mk.inj (Except.ok.inj h)
    obtain ⟨v, t, fits, closes, eq⟩ := completes.enclosed
    exact ⟨v, t, fits, closes, by simp [hc, ← List.append_assoc, ← eq]⟩
  have ends {v rest : List Char} (fits : Fits .value v) (hs : c :: s = v ++ rest)
      (h : ((⟨.after, opened⟩, rest) : Place × List Char) = (q, u ++ r)) :
      ∃ v t, Fits .value v ∧ Closes opened t ∧ c :: s = v ++ (t ++ r) := by
    obtain ⟨rfl, rfl⟩ := Prod.mk.inj h
    cases completes with
    | after closes => exact ⟨v, u, fits, closes, hs⟩
  unfold stepValue at h
  split at h
  next bracket => exact opens (b := .list) bracket h
  split at h
  next bracket => exact opens (b := .object) bracket h
  split at h
  next quote =>
    obtain ⟨rest, e, eq⟩ := map_eq_ok h
    obtain ⟨k, text, rfl⟩ := Text.skip_eq_ok.1 e
    exact ends (.text text) (by simp [quote]) eq
  split at h
  next letter =>
    obtain ⟨rest, e, eq⟩ := map_eq_ok h
    exact ends (.word (w := Layout.null) (by simp [words])) (by simp [letter, word_eq_ok.1 e,
      Layout.null]) eq
  split at h
  next letter =>
    obtain ⟨rest, e, eq⟩ := map_eq_ok h
    exact ends (.word (w := Layout.truth true) (by simp [words])) (by simp [letter, word_eq_ok.1 e,
      Layout.truth]) eq
  split at h
  next letter =>
    obtain ⟨rest, e, eq⟩ := map_eq_ok h
    exact ends (.word (w := Layout.truth false) (by simp [words])) (by simp [letter, word_eq_ok.1 e,
      Layout.truth]) eq
  split at h
  next =>
    obtain ⟨rest, e, eq⟩ := map_eq_ok h
    obtain ⟨n, t, written, split⟩ := Numeral.written_of_skip e
    exact ends (.numeral written) split eq
  next => simp at h

/-- One step of the reader cuts off a beginning of what completes the place. -/
theorem completes_of_step (h : p.step c s = .ok (q, u ++ r)) (completes : Completes q u) :
    ∃ t, Completes p t ∧ c :: s = t ++ r := by
  obtain ⟨stage, opened⟩ := p
  cases stage with
  | value =>
    obtain ⟨v, t, fits, closes, split⟩ := fits_of_stepValue h completes
    exact ⟨v ++ t, .value blanks_nil fits closes, by simp [split]⟩
  | key =>
    obtain ⟨x, t, fits, closes, split⟩ := fits_of_stepKey h completes
    exact ⟨x ++ t, .key blanks_nil fits closes, by simp [split]⟩
  | colon =>
    simp only [step] at h
    split at h
    next colon =>
      obtain ⟨rfl, rfl⟩ := Prod.mk.inj (Except.ok.inj h)
      cases completes with
      | value blanks fits rest => exact ⟨_, .colon blanks_nil blanks fits rest, by simp [colon]⟩
    next => simp at h
  | first =>
    cases opened with
    | nil => simp [step] at h
    | cons b outer =>
      simp only [step] at h
      split at h
      next closing =>
        obtain ⟨rfl, rfl⟩ := Prod.mk.inj (Except.ok.inj h)
        cases completes with
        | after rest => exact ⟨_, .empty blanks_nil rest, by simp [closing]⟩
      next =>
        cases b with
        | list =>
          obtain ⟨v, t, fits, closes, split⟩ := fits_of_stepValue h completes
          obtain ⟨xs, u', t', joined, all, rest, eq⟩ := closes.joined blanks_nil (.item fits)
          exact ⟨_, .parts joined all rest, by simpa [split] using congrArg (· ++ r) eq⟩
        | object =>
          obtain ⟨x, t, fits, closes, split⟩ := fits_of_stepKey h completes
          obtain ⟨xs, u', t', joined, all, rest, eq⟩ := closes.joined blanks_nil fits
          exact ⟨_, .parts joined all rest, by simpa [split] using congrArg (· ++ r) eq⟩
  | after =>
    cases opened with
    | nil => simp [step] at h
    | cons b outer =>
      simp only [step] at h
      split at h
      next closing =>
        obtain ⟨rfl, rfl⟩ := Prod.mk.inj (Except.ok.inj h)
        cases completes with
        | after rest => exact ⟨_, .after (.ends blanks_nil rest), by simp [closing]⟩
      next =>
        split at h
        next comma =>
          obtain ⟨rfl, rfl⟩ := Prod.mk.inj (Except.ok.inj h)
          obtain ⟨xs, u', t', joined, all, rest, rfl⟩ := completes.joined
          exact ⟨_, .after (.goes blanks_nil joined all rest), by simp [comma]⟩
        next => simp at h

end Place

/-- What was passed over from a place completes it. -/
theorem completes_of_skim {p : Place} {s r : List Char} (h : skim p s = .ok r) :
    ∃ t, Completes p t ∧ s = t ++ r := by
  fun_induction skim p s with
  | case1 s =>
    obtain rfl := Except.ok.inj h
    exact ⟨[], .after .done, rfl⟩
  | case2 => simp at h
  | case3 p apart c s blank ih =>
    obtain ⟨t, completes, rfl⟩ := ih h
    exact ⟨c :: t, completes.blank apart blank, rfl⟩
  | case4 => simp at h
  | case5 p apart c s blank q u step _ ih =>
    obtain ⟨t, completes, rfl⟩ := ih h
    exact Place.completes_of_step step completes

theorem isValue_of_skipValue {s r : List Char} (h : skipValue s = .ok r) :
    ∃ w v, Blanks w ∧ IsValue v ∧ s = w ++ (v ++ r) := by
  obtain ⟨t, completes, rfl⟩ := completes_of_skim h
  cases completes with
  | value blanks fits rest =>
    cases rest
    exact ⟨_, _, blanks, fits, by simp⟩

theorem skipValue_append {w v r : List Char} (h : Blanks w) (hv : IsValue v) (stops : Stops r) :
    skipValue (w ++ (v ++ r)) = .ok r :=
  calc
    skipValue (w ++ (v ++ r)) = skim Place.start (v ++ r) := skim_blanks (by decide) h _
    _ = skim Place.done r := hv.passes [] r stops
    _ = .ok r := skim_done r

end ClassCensus.Json
