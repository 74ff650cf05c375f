import ClassCensus.Proofs.Json.Layout
import ClassCensus.Snapshot.Export

/-!
# What an export says

An export is a JSON text, whatever names the classes have, and it determines the
snapshot: different snapshots have different exports. Nothing is assumed of the rows.
They need not belong to a census, and a class name may hold quotes, control characters,
or what looks like the rest of a row.
-/

namespace ClassCensus

open ClassCensus.Json

namespace Row

theorem isValue_parentChars (p : Option Descriptor) : IsValue (parentChars p) := by
  cases p with
  | none => exact Layout.isValue_null
  | some d => exact Layout.isValue_natural _

theorem natural_handle_injective :
    Function.Injective fun d : Descriptor => Layout.natural d.handle.toNat := by
  intro d d' h
  exact Descriptor.ext (UInt64.toNat_inj.1 (Numeral.natural_injective h))

theorem parentChars_injective : Function.Injective parentChars := by
  intro p p' h
  cases p with
  | none =>
    cases p' with
    | none => rfl
    | some d' => exact (Layout.natural_ne_null _ h.symm).elim
  | some d =>
    cases p' with
    | none => exact (Layout.natural_ne_null _ h).elim
    | some d' => exact congrArg some (natural_handle_injective h)

theorem isValue_members (r : Row) : ∀ m ∈ r.members, IsValue m.2 := by
  simp only [members, List.forall_mem_cons, List.not_mem_nil, false_imp_iff, implies_true, and_true,
    Layout.isValue_natural, Layout.isValue_string, Layout.isValue_truth, isValue_parentChars]

theorem members_injective : Function.Injective members := by
  intro r r' h
  simp only [members, List.cons.injEq, Prod.mk.injEq, true_and, and_true] at h
  obtain ⟨descriptor, className, parent, isStatic, isDynamic, valid, rooted, ownTotal,
    inclusiveTotal, ownAlive, inclusiveAlive, liveInstances⟩ := h
  exact Row.ext (natural_handle_injective descriptor) (Layout.string_injective className)
    (parentChars_injective parent)
    (Row.Kind.ext (Layout.truth_injective isStatic) (Layout.truth_injective isDynamic))
    (Layout.truth_injective valid) (Layout.truth_injective rooted)
    (Tally.ext (Numeral.natural_injective ownTotal) (Numeral.natural_injective ownAlive))
    (Tally.ext (Numeral.natural_injective inclusiveTotal)
      (Numeral.natural_injective inclusiveAlive))
    (Numeral.natural_injective liveInstances)

theorem isValue_chars (depth : Nat) (r : Row) : IsValue (r.chars depth) :=
  Layout.isValue_object depth r.isValue_members

theorem chars_injective (depth : Nat) : Function.Injective (chars depth) := by
  intro r r' h
  exact members_injective (Layout.object_injective r.isValue_members r'.isValue_members h)

end Row

namespace Snapshot

theorem isValue_rows (s : Snapshot) : ∀ v ∈ s.rows.map (Row.chars 2), IsValue v :=
  List.forall_mem_map.2 fun r _ => r.isValue_chars 2

theorem isValue_entries (s : Snapshot) : IsValue (Layout.list 1 (s.rows.map (Row.chars 2))) :=
  Layout.isValue_list 1 s.isValue_rows

theorem isValue_members (s : Snapshot) :
    ∀ m ∈ [("tracked_objects", Layout.natural s.tracked),
      ("entries", Layout.list 1 (s.rows.map (Row.chars 2)))], IsValue m.2 := by
  simp [Layout.isValue_natural, s.isValue_entries]

theorem isValue_chars (s : Snapshot) : IsValue s.chars :=
  Layout.isValue_object 0 s.isValue_members

theorem chars_injective : Function.Injective chars := by
  intro s s' h
  have members := Layout.object_injective s.isValue_members s'.isValue_members h
  simp only [List.cons.injEq, Prod.mk.injEq, true_and, and_true] at members
  obtain ⟨tracked, entries⟩ := members
  have rows := Layout.list_injective s.isValue_rows s'.isValue_rows entries
  exact Snapshot.ext (Numeral.natural_injective tracked)
    ((List.map_inj_right fun _ _ => @Row.chars_injective 2 _ _).1 rows)

/-- Every snapshot has an export, which is a JSON text, and no other snapshot has the
same. -/
theorem toJson_faithful :
    (∀ s : Snapshot, IsValue s.toJson.toList) ∧ Function.Injective toJson := by
  refine ⟨fun s => ?_, fun s s' h => ?_⟩
  · rw [toJson, String.toList_ofList]
    exact s.isValue_chars
  · exact chars_injective (String.ofList_injective h)

end Snapshot

end ClassCensus
