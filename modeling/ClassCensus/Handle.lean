import Std.Data.ExtTreeMap

/-!
# Handles

Classes and objects live in the memory of the application that is watched. The census
holds only their identities: a `Descriptor` names a class, an `Object` names an
instance. Both wrap a word, and keeping them apart as types means that no map can be
asked for the wrong one.

Handles are ordered by their words. The order is total and an equal comparison means an
equal handle, so that ordered maps keyed by handles obey the laws of finite maps.
Nothing here says what a handle points to: that is the business of the host.
-/

namespace ClassCensus

@[ext]
structure Descriptor where
  handle : UInt64
deriving DecidableEq

@[ext]
structure Object where
  handle : UInt64
deriving DecidableEq

def hexDigits (w : UInt64) : String :=
  String.ofList (Nat.toDigits 16 w.toNat)

namespace Descriptor

instance : Ord Descriptor where
  compare a b := compare a.handle b.handle

instance : LT Descriptor where
  lt a b := a.handle < b.handle

instance (a b : Descriptor) : Decidable (a < b) :=
  inferInstanceAs (Decidable (a.handle < b.handle))

theorem compare_def (a b : Descriptor) : compare a b = compare a.handle b.handle := rfl

theorem lt_def (a b : Descriptor) : a < b ↔ a.handle < b.handle := Iff.rfl

instance : Std.TransOrd Descriptor where
  eq_swap := by
    intro a b
    simp only [compare_def]
    exact Std.OrientedCmp.eq_swap
  isLE_trans := by
    intro a b c
    simp only [compare_def]
    exact Std.TransCmp.isLE_trans

instance : Std.LawfulEqOrd Descriptor where
  compare_self := by
    intro a
    simp only [compare_def]
    exact Std.ReflCmp.compare_self
  eq_of_compare := by
    intro a b h
    rw [compare_def] at h
    exact Descriptor.ext (Std.LawfulEqCmp.eq_of_compare h)

def text (d : Descriptor) : String :=
  "descriptor#" ++ hexDigits d.handle

def debugText (d : Descriptor) : String :=
  "DescriptorId(" ++ Nat.repr d.handle.toNat ++ ")"

end Descriptor

namespace Object

instance : Ord Object where
  compare a b := compare a.handle b.handle

theorem compare_def (a b : Object) : compare a b = compare a.handle b.handle := rfl

instance : Std.TransOrd Object where
  eq_swap := by
    intro a b
    simp only [compare_def]
    exact Std.OrientedCmp.eq_swap
  isLE_trans := by
    intro a b c
    simp only [compare_def]
    exact Std.TransCmp.isLE_trans

instance : Std.LawfulEqOrd Object where
  compare_self := by
    intro a
    simp only [compare_def]
    exact Std.ReflCmp.compare_self
  eq_of_compare := by
    intro a b h
    rw [compare_def] at h
    exact Object.ext (Std.LawfulEqCmp.eq_of_compare h)

def text (o : Object) : String :=
  "object#" ++ hexDigits o.handle

def debugText (o : Object) : String :=
  "ObjectId(" ++ Nat.repr o.handle.toNat ++ ")"

end Object

/-- A finite map keyed by classes. Two such maps with the same look-ups are equal. -/
abbrev DescriptorMap (α : Type) := Std.ExtTreeMap Descriptor α

abbrev ObjectMap (α : Type) := Std.ExtTreeMap Object α

abbrev NameMap (α : Type) := Std.ExtTreeMap String α

end ClassCensus
