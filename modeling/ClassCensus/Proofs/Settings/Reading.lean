import ClassCensus.Proofs.Settings.Form

/-!
# Reading settings

Each reader takes off what the form has at its place, and it takes off exactly that: the
content of a field, a member, the members of an object, the elements of a list. For the
members the draft goes along, and `Draft.Fills` says what they make of it.

`FormatLaws` sums it up. A text is read as settings just where it gives members that
mean them, so nothing but the members counts, and a text that could be read cannot be
cut or added to, blanks apart.
-/

namespace ClassCensus.Settings

open ClassCensus.Json
open Numeral (Stops)

/-! ### The content of a field -/

section Content

variable {s w r : List Char}

theorem natural_of_readNatural {n : Nat} (h : readNatural s = .ok (n, r)) :
    n < Numeral.wordSize ∧ s = Layout.natural n ++ r := by
  unfold readNatural at h
  split at h
  · simp at h
  next c t =>
    split at h
    · split at h
      · simp at h
      next m u decoded =>
        split at h
        next k value =>
          obtain ⟨rfl, rfl⟩ := Prod.mk.inj (Except.ok.inj h)
          obtain ⟨text, written, split⟩ := Numeral.written_of_read (Numeral.read_of_decode decoded)
          obtain ⟨small, rfl⟩ := written.eq_natural value
          exact ⟨small, split⟩
        next => simp at h
    · simp at h

theorem readNatural_append {n : Nat} (h : n < Numeral.wordSize) (stops : Stops r) :
    readNatural (Layout.natural n ++ r) = .ok (n, r) := by
  have decoded := Numeral.decode_natural h stops
  obtain ⟨c, cs, eq, starts⟩ := (Numeral.written_ofNatural n).startsWith
  rw [eq, List.cons_append] at decoded ⊢
  simp [readNatural, starts, decoded, Numeral.natural?_ofNatural h]

theorem truth_of_readFlag {b : Bool} (h : readFlag s = .ok (b, r)) : s = Layout.truth b ++ r := by
  unfold readFlag at h
  split at h
  · simp at h
  next c t =>
    split at h
    next letter =>
      obtain ⟨u, rest, eq⟩ := map_eq_ok h
      obtain ⟨rfl, rfl⟩ := Prod.mk.inj eq
      simp [letter, word_eq_ok.1 rest, Layout.truth]
    split at h
    next letter =>
      obtain ⟨u, rest, eq⟩ := map_eq_ok h
      obtain ⟨rfl, rfl⟩ := Prod.mk.inj eq
      simp [letter, word_eq_ok.1 rest, Layout.truth]
    · simp at h

theorem readFlag_append (b : Bool) (r : List Char) :
    readFlag (Layout.truth b ++ r) = .ok (b, r) := by
  cases b <;> simp [readFlag, Layout.truth, word, Except.map]

theorem spell_of_readField {d e : Draft} {f : Field} (h : readField d f s = .ok (e, r)) :
    ∃ w x, Blanks w ∧ f.Admits x ∧ s = w ++ (f.spell x ++ r) ∧ e = d.set f x := by
  obtain ⟨w, blanks, split⟩ := exists_blanks s
  cases f <;> simp only [readField] at h
  all_goals
    obtain ⟨⟨x, t⟩, content, eq⟩ := map_eq_ok h
    obtain ⟨rfl, rfl⟩ := Prod.mk.inj eq
  · obtain ⟨small, eq⟩ := natural_of_readNatural content
    exact ⟨w, x, blanks, small, eq ▸ split, rfl⟩
  · exact ⟨w, x, blanks, trivial, truth_of_readFlag content ▸ split, rfl⟩
  · exact ⟨w, x, blanks, trivial, truth_of_readFlag content ▸ split, rfl⟩

theorem readField_append (d : Draft) {f : Field} {x : f.Content} (blanks : Blanks w)
    (admits : f.Admits x) (stops : Stops r) :
    readField d f (w ++ (f.spell x ++ r)) = .ok (d.set f x, r) := by
  have start : skipBlank (w ++ (f.spell x ++ r)) = f.spell x ++ r := by
    rw [skipBlank_append blanks, (f.isValue_spell x).skipBlank]
  cases f <;> simp only [readField, start]
  · exact congrArg (Except.map _) (readNatural_append admits stops)
  · exact congrArg (Except.map _) (readFlag_append x r)
  · exact congrArg (Except.map _) (readFlag_append x r)

/-- Blanks apart, the content of a field starts with something else than the end of a
list. -/
theorem exists_readField (d : Draft) {f : Field} {x : f.Content} (blanks : Blanks w)
    (admits : f.Admits x) (stops : Stops r) :
    ∃ c t, skipBlank (w ++ (f.spell x ++ r)) = c :: t ∧ c ≠ ']' ∧
      readField d f (c :: t) = .ok (d.set f x, r) := by
  obtain ⟨c, u, eq, solid, apart⟩ := (f.isValue_spell x).head
  refine ⟨c, u ++ r, ?_, apart .list, ?_⟩
  · rw [eq, List.cons_append, skipBlank_append_cons blanks solid]
  · simpa [eq] using readField_append d blanks_nil admits stops

end Content

/-! ### Members -/

section Members

variable {d e : Draft} {m : Member} {s x r t : List Char}

theorem takes_of_readMember (h : readMember d s = .ok (e, r)) :
    ∃ m x, Member.Written m ('"' :: x) ∧ d.Takes m e ∧ s = x ++ r := by
  unfold readMember at h
  split at h
  · simp at h
  next k q decoded =>
    obtain ⟨key, spells, rfl⟩ := Text.decode_eq_ok.1 decoded
    split at h
    next f field =>
      split at h
      · simp at h
      next fresh =>
        split at h
        · simp at h
        next u mark =>
          obtain ⟨w, before, rfl⟩ := colon_eq_ok.1 mark
          obtain ⟨w', y, behind, admits, rfl, rfl⟩ := spell_of_readField h
          have fresh : d.get f = none := Draft.has_eq_false.1 (by simpa using fresh)
          exact ⟨⟨k, f.spell y⟩, _, .intro spells before behind (f.isValue_spell y),
            .field field fresh rfl admits, by simp⟩
    next foreign =>
      split at h
      · simp at h
      next u mark =>
        obtain ⟨w, before, rfl⟩ := colon_eq_ok.1 mark
        obtain ⟨rest, passed, eq⟩ := map_eq_ok h
        obtain ⟨rfl, rfl⟩ := Prod.mk.inj eq
        obtain ⟨w', v, behind, value, rfl⟩ := isValue_of_skipValue passed
        exact ⟨⟨k, v⟩, _, .intro spells before behind value, .foreign foreign, by simp⟩

theorem readMember_append (h : m.Written ('"' :: x)) (takes : d.Takes m e) (stops : Stops r) :
    readMember d (x ++ r) = .ok (e, r) := by
  obtain ⟨key, value⟩ := m
  cases h with
  | @intro k w w' spells before behind isValue =>
    have decoded := Text.decode_of_spells spells (w ++ ':' :: (w' ++ (value ++ r)))
    have mark : colon (w ++ ':' :: (w' ++ (value ++ r))) = .ok (w' ++ (value ++ r)) :=
      colon_eq_ok.2 ⟨w, before, rfl⟩
    simp only [List.append_assoc, List.cons_append, readMember, decoded]
    cases takes with
    | foreign foreign =>
      simp [foreign, mark, skipValue_append behind isValue stops, Except.map]
    | field field fresh value admits =>
      subst value
      simp [field, Draft.has_eq_false.2 fresh, mark, readField_append d behind admits stops]

theorem onward_eq_ends : onward s = .ok (.ends r) ↔ ∃ w, Blanks w ∧ s = w ++ '}' :: r := by
  constructor
  · intro h
    unfold onward at h
    split at h
    · simp at h
    next c t eq =>
      split at h
      next closing =>
        obtain rfl : t = r := by simpa using h
        exact closing ▸ exists_blanks_of_skipBlank eq
      next =>
        split at h
        · split at h
          · simp at h
          · split at h <;> simp at h
        · simp at h
  · rintro ⟨w, blanks, rfl⟩
    have closing : skipBlank (w ++ '}' :: r) = '}' :: r := skipBlank_append_cons blanks rfl r
    simp [onward, closing]

theorem onward_eq_key :
    onward s = .ok (.key r) ↔
      ∃ w w', Blanks w ∧ Blanks w' ∧ s = w ++ ',' :: (w' ++ '"' :: r) := by
  constructor
  · intro h
    unfold onward at h
    split at h
    · simp at h
    next c t eq =>
      split at h
      · simp at h
      · split at h
        next comma =>
          split at h
          · simp at h
          next q u eq' =>
            split at h
            next quote =>
              obtain rfl : u = r := by simpa using h
              obtain ⟨w, before, rfl⟩ := exists_blanks_of_skipBlank eq
              obtain ⟨w', behind, rfl⟩ := exists_blanks_of_skipBlank eq'
              exact ⟨w, w', before, behind, by rw [comma, quote]⟩
            next => simp at h
        · simp at h
  · rintro ⟨w, w', before, behind, rfl⟩
    simp [onward, skipBlank_append_cons before isBlank_comma,
      skipBlank_append_cons behind isBlank_quote]

theorem Member.Written.cons {x : List Char} (h : m.Written x) : ∃ y, x = '"' :: y := by
  cases h with
  | intro => exact ⟨_, rfl⟩

/-- Members that were read, up to the end of their object, have been filled into the
draft. -/
theorem fills_of_readMembers (h : readMembers d s = .ok (e, r)) :
    ∃ ms xs t, List.Forall₂ Member.Written ms xs ∧ Joined xs t ∧ d.Fills ms e ∧
      '"' :: s = t ++ '}' :: r := by
  fun_induction readMembers d s with
  | case1 => simp at h
  | case2 => simp at h
  | case3 d s e' t member q ends =>
    obtain ⟨rfl, rfl⟩ := Prod.mk.inj (Except.ok.inj h)
    obtain ⟨m, x, written, takes, rfl⟩ := takes_of_readMember member
    obtain ⟨w, blanks, rfl⟩ := onward_eq_ends.1 ends
    exact ⟨[m], ['"' :: x], _, .cons written .nil, .one blanks_nil blanks,
      Draft.fills_cons.2 ⟨_, takes, Draft.fills_nil.2 rfl⟩, by simp⟩
  | case4 d s e' t member q key _ ih =>
    obtain ⟨m, x, written, takes, rfl⟩ := takes_of_readMember member
    obtain ⟨w, w', before, behind, rfl⟩ := onward_eq_key.1 key
    obtain ⟨ms, xs, u, writtens, joined, fills, eq⟩ := ih h
    exact ⟨m :: ms, ('"' :: x) :: xs, _, .cons written writtens,
      .more blanks_nil before (joined.blanks_append behind),
      Draft.fills_cons.2 ⟨_, takes, fills⟩, by simp [eq]⟩

theorem readMembers_of_ends {t : List Char} (member : readMember d s = .ok (e, r))
    (ends : onward r = .ok (.ends t)) : readMembers d s = .ok (e, t) := by
  rw [readMembers]
  split
  · simp_all
  next e' r' member' =>
    obtain ⟨rfl, rfl⟩ := Prod.mk.inj (Except.ok.inj (member'.symm.trans member))
    split <;> simp_all

theorem readMembers_of_key {t : List Char} (member : readMember d s = .ok (e, r))
    (key : onward r = .ok (.key t)) : readMembers d s = readMembers e t := by
  rw [readMembers]
  split
  · simp_all
  next e' r' member' =>
    obtain ⟨rfl, rfl⟩ := Prod.mk.inj (Except.ok.inj (member'.symm.trans member))
    split <;> simp_all

theorem readMembers_append {xs : List (List Char)} (joined : Joined xs t) {ms : List Member}
    (written : List.Forall₂ Member.Written ms xs) (fills : d.Fills ms e) (r : List Char) :
    ∃ w s, Blanks w ∧ t ++ '}' :: r = w ++ '"' :: s ∧ readMembers d s = .ok (e, r) := by
  induction joined generalizing ms d with
  | @one w x w' before behind =>
    obtain _ | ⟨written, ⟨⟩⟩ := written
    obtain ⟨d', takes, filled⟩ := Draft.fills_cons.1 fills
    obtain rfl := Draft.fills_nil.1 filled
    obtain ⟨y, rfl⟩ := written.cons
    refine ⟨w, y ++ (w' ++ '}' :: r), before, by simp, ?_⟩
    exact readMembers_of_ends
      (readMember_append written takes (stops_append behind (Bracket.object.stops_closing r)))
      (onward_eq_ends.2 ⟨w', behind, rfl⟩)
  | @more w x w' t xs before behind rest ih =>
    obtain _ | ⟨written, writtens⟩ := written
    obtain ⟨d', takes, filled⟩ := Draft.fills_cons.1 fills
    obtain ⟨v, s, blanks, eq, read⟩ := ih writtens filled
    obtain ⟨y, rfl⟩ := written.cons
    refine ⟨w, y ++ (w' ++ ',' :: (t ++ '}' :: r)), before, by simp, ?_⟩
    rw [← read]
    exact readMembers_of_key
      (readMember_append written takes (stops_append behind (stops_comma _)))
      (onward_eq_key.2 ⟨w', v, behind, blanks, by rw [eq]⟩)

/-- An object is read where the draft is what its members fill. -/
theorem readObject_eq_ok :
    readObject s = .ok (d, r) ↔
      ∃ ms xs t, List.Forall₂ Member.Written ms xs ∧ Enclosed .object xs t ∧
        Draft.empty.Fills ms d ∧ '{' :: s = t ++ r := by
  constructor
  · intro h
    unfold readObject at h
    split at h
    · simp at h
    next c u start =>
      obtain ⟨w, blanks, rfl⟩ := exists_blanks_of_skipBlank start
      split at h
      next closing =>
        obtain ⟨rfl, rfl⟩ := Prod.mk.inj (Except.ok.inj h)
        exact ⟨[], [], _, .nil, .empty blanks, Draft.fills_nil.2 rfl, by
          simp [closing, Bracket.opening, Bracket.closing]⟩
      next =>
        split at h
        next quote =>
          obtain ⟨ms, xs, t, written, joined, fills, eq⟩ := fills_of_readMembers h
          exact ⟨ms, xs, _, written, .parts (joined.blanks_append blanks), fills, by
            simp [quote, eq, Bracket.opening, Bracket.closing]⟩
        next => simp at h
  · rintro ⟨ms, xs, t, written, enclosed, fills, eq⟩
    cases enclosed with
    | @empty w blanks =>
      obtain ⟨⟩ := written
      obtain rfl := Draft.fills_nil.1 fills
      obtain rfl : s = w ++ '}' :: r := by
        simpa [Bracket.opening, Bracket.closing] using eq
      have closing : skipBlank (w ++ '}' :: r) = '}' :: r := skipBlank_append_cons blanks rfl r
      simp [readObject, closing]
    | @parts xs u joined =>
      obtain rfl : s = u ++ '}' :: r := by
        simpa [Bracket.opening, Bracket.closing] using eq
      obtain ⟨w, q, blanks, split, read⟩ := readMembers_append joined written fills r
      simp [split, readObject, skipBlank_append_cons blanks isBlank_quote, read]

end Members

/-! ### Elements -/

section Elements

variable {d e : Draft} {s x r t : List Char} {fs : List Field} {vs : List (List Char)}

theorem readElements_of_closing (ends : skipBlank s = ']' :: r) :
    readElements fs d s = .ok (d, r) := by
  unfold readElements
  simp [ends]

theorem readElements_of_comma {f : Field} {c : Char} {q z u : List Char} {e' : Draft}
    (comma : skipBlank s = ',' :: q) (next : skipBlank q = c :: z) (apart : c ≠ ']')
    (field : readField d f (c :: z) = .ok (e', u)) :
    readElements (f :: fs) d s = readElements fs e' u := by
  conv_lhs => unfold readElements
  simp [comma, next, apart, field]

/-- Behind an element the list ends, or a comma and the next field follow. -/
theorem readElements_cases (h : readElements fs d s = .ok (e, r)) :
    (∃ w, Blanks w ∧ s = w ++ ']' :: r ∧ e = d) ∨
      ∃ f fs' w q e' u, fs = f :: fs' ∧ Blanks w ∧ s = w ++ ',' :: q ∧
        readField d f (skipBlank q) = .ok (e', u) ∧ readElements fs' e' u = .ok (e, r) := by
  unfold readElements at h
  split at h
  · simp at h
  next c q start =>
    obtain ⟨w, blanks, rfl⟩ := exists_blanks_of_skipBlank start
    split at h
    next closing =>
      obtain ⟨rfl, rfl⟩ := Prod.mk.inj (Except.ok.inj h)
      exact .inl ⟨w, blanks, by rw [closing], rfl⟩
    next =>
      split at h
      next comma =>
        split at h
        · simp at h
        next f fs' =>
          split at h
          · simp at h
          next =>
            split at h
            · simp at h
            next e' u field =>
              exact .inr ⟨f, fs', w, q, e', u, rfl, blanks, by rw [comma], field, h⟩
      next => simp at h

/-- Elements that were read behind an element `x`, up to the end of their list, have
been filled into the draft, one field after the other. -/
theorem fills_of_readElements (h : readElements fs d s = .ok (e, r)) (nodup : fs.Nodup)
    (fresh : ∀ f ∈ fs, d.get f = none) (x : List Char) :
    ∃ vs t, Joined (x :: vs) t ∧ vs.length ≤ fs.length ∧ (∀ v ∈ vs, IsValue v) ∧
      d.Fills (List.zipWith Member.ofField fs vs) e ∧ x ++ s = t ++ ']' :: r := by
  induction fs generalizing d s x with
  | nil =>
    obtain ⟨w, blanks, rfl, rfl⟩ | ⟨f, fs', w, q, e', u, ⟨⟩, -⟩ := readElements_cases h
    exact ⟨[], _, .one blanks_nil blanks, Nat.le_refl _, List.forall_mem_nil _,
      Draft.fills_nil.2 rfl, by simp⟩
  | cons f fs ih =>
    obtain ⟨w, blanks, rfl, rfl⟩ | ⟨_, _, w, q, e', u, ⟨⟩, blanks, rfl, field, rest⟩ :=
      readElements_cases h
    · exact ⟨[], _, .one blanks_nil blanks, Nat.zero_le _, List.forall_mem_nil _,
        Draft.fills_nil.2 rfl, by simp⟩
    obtain ⟨w', behind, split⟩ := exists_blanks q
    obtain ⟨w'', y, behind', admits, eq, rfl⟩ := spell_of_readField field
    obtain ⟨apart, nodup⟩ := List.nodup_cons.1 nodup
    have fresh' : ∀ g ∈ fs, (d.set f y).get g = none := by
      intro g mem
      have ne : f ≠ g := fun eq => apart (eq ▸ mem)
      rw [Draft.get_set_of_ne ne]
      exact fresh g (List.mem_cons_of_mem _ mem)
    obtain ⟨vs, t, joined, few, values, fills, rest⟩ := ih rest nodup fresh' (f.spell y)
    have takes := Draft.Takes.ofField (fresh f List.mem_cons_self) admits
    refine ⟨f.spell y :: vs, _,
      .more blanks_nil blanks (joined.blanks_append (behind.append behind')),
      Nat.succ_le_succ few, List.forall_mem_cons.2 ⟨f.isValue_spell y, values⟩,
      Draft.fills_cons.2 ⟨_, takes, fills⟩, ?_⟩
    rw [split, eq, rest]
    simp

theorem readElements_append (joined : Joined (x :: vs) t) (few : vs.length ≤ fs.length)
    (fills : d.Fills (List.zipWith Member.ofField fs vs) e) (r : List Char) :
    ∃ w s, Blanks w ∧ Stops s ∧ t ++ ']' :: r = w ++ (x ++ s) ∧
      readElements fs d s = .ok (e, r) := by
  induction vs generalizing d x t fs with
  | nil =>
    cases joined with
    | @one w _ w' before behind =>
      obtain rfl := Draft.fills_nil.1 (by simpa using fills)
      exact ⟨w, w' ++ ']' :: r, before, stops_append behind (Bracket.list.stops_closing r),
        by simp, readElements_of_closing (skipBlank_append_cons behind rfl r)⟩
    | more before behind rest => exact absurd rfl rest.ne_nil
  | cons v vs ih =>
    cases fs with
    | nil => simp at few
    | cons f fs =>
      cases joined with
      | @more w _ w' t _ before behind rest =>
        obtain ⟨d', takes, filled⟩ := Draft.fills_cons.1 fills
        obtain ⟨y, rfl, admits, rfl⟩ := Draft.exists_of_takes_ofField takes
        obtain ⟨u, q, blanks, stops, split, read⟩ :=
          ih rest (Nat.le_of_succ_le_succ few) filled
        obtain ⟨c, z, next, apart, field⟩ := exists_readField d blanks admits stops
        rw [← split] at next
        refine ⟨w, w' ++ ',' :: (t ++ ']' :: r), before, stops_append behind (stops_comma _),
          by simp, ?_⟩
        rw [readElements_of_comma (skipBlank_append_cons behind isBlank_comma _) next apart field,
          read]

theorem readList_eq_ok :
    readList s = .ok (d, r) ↔
      ∃ vs t, (∀ v ∈ vs, IsValue v) ∧ vs.length ≤ Field.all.length ∧ Enclosed .list vs t ∧
        Draft.empty.Fills (List.zipWith Member.ofField Field.all vs) d ∧ '[' :: s = t ++ r := by
  constructor
  · intro h
    unfold readList at h
    obtain ⟨w, blanks, split⟩ := exists_blanks s
    split at h
    next q closing =>
      obtain ⟨rfl, rfl⟩ := Prod.mk.inj (Except.ok.inj h)
      exact ⟨[], _, List.forall_mem_nil _, Nat.zero_le _, .empty blanks, Draft.fills_nil.2 rfl, by
        simp [closing ▸ split, Bracket.opening, Bracket.closing]⟩
    next =>
      split at h
      · simp at h
      next e u field =>
        obtain ⟨w', x, blanks', admits, eq, rfl⟩ := spell_of_readField field
        have fresh : ∀ f ∈ [Field.surveyOnOpening, .checkThread],
            (Draft.empty.set .depthLimit x).get f = none := by
          intro f mem
          rw [Draft.get_set_of_ne (by rintro rfl; simp at mem), Draft.get_empty]
        obtain ⟨vs, t, joined, few, values, fills, rest⟩ :=
          fills_of_readElements h (by decide) fresh (Field.depthLimit.spell x)
        have takes := Draft.Takes.ofField (Draft.get_empty .depthLimit) admits
        refine ⟨Field.depthLimit.spell x :: vs, _,
          List.forall_mem_cons.2 ⟨Field.depthLimit.isValue_spell x, values⟩,
          Nat.succ_le_succ few, .parts (joined.blanks_append (blanks.append blanks')),
          Draft.fills_cons.2 ⟨_, takes, fills⟩, ?_⟩
        rw [split, eq]
        simp [rest, Bracket.opening, Bracket.closing]
  · rintro ⟨vs, t, values, few, enclosed, fills, eq⟩
    cases enclosed with
    | @empty w blanks =>
      obtain rfl := Draft.fills_nil.1 fills
      obtain rfl : s = w ++ ']' :: r := by simpa [Bracket.opening, Bracket.closing] using eq
      have closing : skipBlank (w ++ ']' :: r) = ']' :: r := skipBlank_append_cons blanks rfl r
      simp [readList, closing]
    | @parts vs u joined =>
      obtain rfl : s = u ++ ']' :: r := by simpa [Bracket.opening, Bracket.closing] using eq
      obtain ⟨v, vs, rfl⟩ := List.exists_cons_of_ne_nil joined.ne_nil
      obtain ⟨d', takes, filled⟩ := Draft.fills_cons.1 fills
      obtain ⟨y, rfl, admits, rfl⟩ := Draft.exists_of_takes_ofField takes
      obtain ⟨w, q, blanks, stops, split, read⟩ :=
        readElements_append joined (Nat.le_of_succ_le_succ few) filled r
      obtain ⟨c, z, next, apart, field⟩ := exists_readField Draft.empty blanks admits stops
      rw [← split] at next
      simp [readList, next, apart, field, read]

end Elements

/-! ### Settings -/

theorem finish_eq_ok {o : Except Fault (Draft × List Char)} {c : Settings} :
    finish o = .ok c ↔ ∃ d r, o = .ok (d, r) ∧ Blanks r ∧ d.complete = c := by
  unfold finish
  split
  · simp
  next d r =>
    split
    next ends => simp [skipBlank_eq_nil.1 ends]
    next more =>
      have : ¬ Blanks r := fun blanks => by simp [skipBlank_eq_nil.2 blanks] at more
      simp [this]

theorem readChars_eq_ok {s : List Char} {c : Settings} :
    readChars s = .ok c ↔ ∃ ms, Gives ms s ∧ Means ms c := by
  constructor
  · intro h
    unfold readChars at h
    obtain ⟨w, blanks, split⟩ := exists_blanks s
    split at h
    next r start =>
      obtain ⟨d, u, read, behind, rfl⟩ := finish_eq_ok.1 h
      obtain ⟨vs, t, values, few, enclosed, fills, eq⟩ := readList_eq_ok.1 read
      exact ⟨_, ⟨w, t, u, blanks, .list values few enclosed, behind, by rw [split, start, eq]⟩,
        means_iff.2 ⟨d, fills, rfl⟩⟩
    next r start =>
      obtain ⟨d, u, read, behind, rfl⟩ := finish_eq_ok.1 h
      obtain ⟨ms, xs, t, written, enclosed, fills, eq⟩ := readObject_eq_ok.1 read
      exact ⟨_, ⟨w, t, u, blanks, .object written enclosed, behind, by rw [split, start, eq]⟩,
        means_iff.2 ⟨d, fills, rfl⟩⟩
    next => simp at h
  · rintro ⟨ms, ⟨w, t, w', before, holds, behind, rfl⟩, means⟩
    obtain ⟨d, fills, rfl⟩ := means_iff.1 means
    have start := holds.skipBlank w'
    unfold readChars
    rw [skipBlank_append before, start]
    cases holds with
    | object written enclosed =>
      obtain ⟨u, rfl⟩ : ∃ u, t = '{' :: u := by cases enclosed <;> exact ⟨_, rfl⟩
      exact finish_eq_ok.2 ⟨d, w', readObject_eq_ok.2 ⟨ms, _, _, written, enclosed, fills, rfl⟩,
        behind, rfl⟩
    | list values few enclosed =>
      obtain ⟨u, rfl⟩ : ∃ u, t = '[' :: u := by cases enclosed <;> exact ⟨_, rfl⟩
      exact finish_eq_ok.2 ⟨d, w', readList_eq_ok.2 ⟨_, _, values, few, enclosed, fills, rfl⟩,
        behind, rfl⟩

theorem read_eq_ok {t : String} {c : Settings} :
    read t = .ok c ↔ ∃ ms, Gives ms t.toList ∧ Means ms c :=
  readChars_eq_ok

theorem read_of_gives {t : String} {c : Settings} {ms : List Member} (h : Gives ms t.toList) :
    read t = .ok c ↔ Means ms c := by
  rw [read_eq_ok]
  constructor
  · rintro ⟨ns, gives, means⟩
    exact h.unique gives ▸ means
  · exact fun means => ⟨ms, h, means⟩

/-- A text that is read can be followed by blanks only. -/
theorem read_append {t : String} {c : Settings} (h : read t = .ok c) (x : String) (c' : Settings) :
    read (t ++ x) = .ok c' ↔ Blanks x.toList ∧ c' = c := by
  obtain ⟨ms, gives, means⟩ := read_eq_ok.1 h
  constructor
  · intro h'
    obtain ⟨ns, gives', means'⟩ := read_eq_ok.1 h'
    obtain ⟨rfl, blanks⟩ := gives.append_inj (String.toList_append ▸ gives')
    exact ⟨blanks, means'.unique means⟩
  · rintro ⟨blanks, rfl⟩
    exact read_eq_ok.2 ⟨ms, String.toList_append ▸ gives.append_blanks blanks, means⟩

structure FormatLaws (t : String) : Prop where
  /-- A text is accepted just where it gives members that mean the settings. -/
  accepted : ∀ c, read t = .ok c ↔ ∃ ms, Gives ms t.toList ∧ Means ms c
  /-- The members that a text gives decide. So no text is accepted that gives a field
  twice, or gives it what is not its content. -/
  decided : ∀ ms, Gives ms t.toList → ∀ c, read t = .ok c ↔ Means ms c
  /-- It does not matter in which order the members come and which others there are,
  where the blanks are, how a key is spelled, and whether the members are given by their
  keys or by their places. -/
  agrees : ∀ ms, Gives ms t.toList → ∀ u ns, Gives ns u.toList →
    (ms.filter Member.known).Perm (ns.filter Member.known) → ∀ c, read t = .ok c ↔ read u = .ok c
  /-- Of an accepted text nothing but blanks can be missing, and nothing else can follow
  it. -/
  ends : ∀ c, read t = .ok c → ∀ x c', read (t ++ x) = .ok c' ↔ Blanks x.toList ∧ c' = c

/-- Settings are read from exactly the texts of their form. -/
theorem formatLaws (t : String) : FormatLaws t where
  accepted _ := read_eq_ok
  decided _ gives _ := read_of_gives gives
  agrees ms gives u ns gives' same c := by
    rw [read_of_gives gives, read_of_gives gives']
    exact ⟨Means.of_perm same, Means.of_perm same.symm⟩
  ends _ h := read_append h

/-- A text in which a key is spelled with an escape, and a member that means nothing
holds a string that spells no text. -/
def outlandish : String :=
  "\x7b \"\\u006dax_hierarchy_depth\" : 16, \"x\": [1, \"\\ud800\"] \x7d"

/-- Such a text is read, and only as a whole. -/
theorem formatLaws_outlandish :
    read outlandish = .ok ⟨16, true, true⟩ ∧
      (∃ ms, Gives ms outlandish.toList ∧ Means ms ⟨16, true, true⟩) ∧
      ∀ x c, read (outlandish ++ x) = .ok c ↔ Blanks x.toList ∧ c = ⟨16, true, true⟩ :=
  have accepted : read outlandish = .ok ⟨16, true, true⟩ := by decide +kernel
  ⟨accepted, ((formatLaws outlandish).accepted _).1 accepted,
    (formatLaws outlandish).ends _ accepted⟩

end ClassCensus.Settings
