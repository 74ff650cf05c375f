import ClassCensus.Proofs.Json.Skim

/-!
# What is laid out

A laid-out list or object is brackets around its parts, with line breaks for blanks. So
the grammar has it as a value if its parts are, and since brackets show their parts, the
layout of values loses nothing: neither the items of a list nor the keys and values of
an object.
-/

namespace ClassCensus.Json.Layout

/-! ### Values without parts -/

theorem isValue_null : IsValue null :=
  .word (by simp [words])

theorem isValue_truth (b : Bool) : IsValue (truth b) :=
  .word (by cases b <;> simp [words])

theorem isValue_natural (n : Nat) : IsValue (natural n) :=
  .numeral (Numeral.written_ofNatural n)

theorem isValue_string (s : String) : IsValue (string s) :=
  .text (Text.spells_encode s.toList).isText

theorem truth_injective : Function.Injective truth := by
  intro b b' h
  cases b <;> cases b' <;> first | rfl | cases h

theorem natural_ne_null (n : Nat) : natural n ≠ null := by
  intro h
  have digit : 'n'.isDigit = true := (Numeral.isDigits_natural n).2 'n' (by simp [h, null])
  cases digit

/-- A quoted text shows where it ends, and which text it is. -/
theorem quoted_append_inj {s s' r r' : List Char} (h : Text.quoted s ++ r = Text.quoted s' ++ r') :
    s = s' ∧ r = r' := by
  have same : Text.encode s ++ '"' :: r = Text.encode s' ++ '"' :: r' := by
    simpa [Text.quoted] using h
  exact (Text.spells_encode s).append_inj (Text.spells_encode s') same

theorem string_injective : Function.Injective string := by
  intro s s' h
  have : Text.quoted s.toList ++ [] = Text.quoted s'.toList ++ [] := congrArg (· ++ []) h
  exact String.toList_injective (quoted_append_inj this).1

/-! ### Brackets -/

theorem blanks_newline (depth : Nat) : Blanks (newline depth) := by
  intro c mem
  obtain rfl | mem := List.mem_cons.1 mem
  · rfl
  · rw [List.eq_of_mem_replicate mem]
    rfl

theorem joined_further (depth : Nat) (p : List Char) (parts : List (List Char)) :
    Joined (p :: parts) (newline (depth + 1) ++ (p ++ (further depth parts ++ newline depth))) := by
  induction parts generalizing p with
  | nil => exact .one (blanks_newline _) (blanks_newline _)
  | cons q parts ih =>
    simpa [further_cons] using Joined.more (x := p) (blanks_newline (depth + 1)) blanks_nil (ih q)

theorem enclosed_block (b : Bracket) (depth : Nat) (parts : List (List Char)) :
    Enclosed b parts (block b.opening b.closing depth parts) := by
  cases parts with
  | nil => exact .empty blanks_nil
  | cons p parts => simpa [block] using Enclosed.parts (joined_further depth p parts)

theorem isValue_list (depth : Nat) {items : List (List Char)} (h : ∀ v ∈ items, IsValue v) :
    IsValue (list depth items) :=
  .enclosed (fun v mem => .item (h v mem)) (enclosed_block .list depth items)

theorem list_injective {depth : Nat} {items items' : List (List Char)}
    (h : ∀ v ∈ items, IsValue v) (h' : ∀ v ∈ items', IsValue v)
    (eq : list depth items = list depth items') : items = items' :=
  ((enclosed_block .list depth items).append_inj (enclosed_block .list depth items')
    (fun v mem => .item (h v mem)) (fun v mem => .item (h' v mem)) (congrArg (· ++ []) eq)).2.1

def member (m : String × List Char) : List Char :=
  Text.quoted m.1.toList ++ ':' :: ' ' :: m.2

theorem fits_member {m : String × List Char} (h : IsValue m.2) :
    Fits (.part .object) (member m) := by
  have space : Blanks [' '] := List.forall_mem_singleton.2 rfl
  simpa [member, Text.quoted] using
    Fits.member (Text.spells_encode m.1.toList).isText blanks_nil space h

theorem member_injective : Function.Injective member := by
  intro m m' h
  obtain ⟨key, value⟩ := quoted_append_inj h
  exact Prod.ext (String.toList_injective key) (by simpa using value)

theorem fits_members {members : List (String × List Char)} (h : ∀ m ∈ members, IsValue m.2) :
    ∀ x ∈ members.map member, Fits (.part .object) x :=
  List.forall_mem_map.2 fun m mem => fits_member (h m mem)

theorem enclosed_object (depth : Nat) (members : List (String × List Char)) :
    Enclosed .object (members.map member) (object depth members) :=
  enclosed_block .object depth (members.map member)

theorem isValue_object (depth : Nat) {members : List (String × List Char)}
    (h : ∀ m ∈ members, IsValue m.2) : IsValue (object depth members) :=
  .enclosed (fits_members h) (enclosed_object depth members)

theorem object_injective {depth : Nat} {members members' : List (String × List Char)}
    (h : ∀ m ∈ members, IsValue m.2) (h' : ∀ m ∈ members', IsValue m.2)
    (eq : object depth members = object depth members') : members = members' :=
  (List.map_inj_right fun _ _ => @member_injective _ _).1
    ((enclosed_object depth members).append_inj (enclosed_object depth members')
      (fits_members h) (fits_members h') (congrArg (· ++ []) eq)).2.1

end ClassCensus.Json.Layout
