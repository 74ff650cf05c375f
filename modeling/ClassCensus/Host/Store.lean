import ClassCensus.Host.Basic

/-!
# Hosts that hand out handles

A `ClassStore` is a host that makes its classes itself. Handles are handed out in
ascending steps, the way addresses would be, and a handle that was released is never
handed out again. The root class is made with the store.
-/

namespace ClassCensus

structure ClassStore where
  table : ClassTable
  nextHandle : UInt64

namespace ClassStore

def firstHandle : UInt64 := 0x1000

def stride : UInt64 := 0x40

def define (s : ClassStore) (info : ClassInfo) : Descriptor × ClassStore :=
  (⟨s.nextHandle⟩, ⟨s.table.put ⟨s.nextHandle⟩ info, s.nextHandle + stride⟩)

def withRoot (name : String) : ClassStore :=
  (define ⟨ClassTable.empty ⟨firstHandle⟩, firstHandle⟩ ⟨name, none, true⟩).2

def root (s : ClassStore) : Descriptor :=
  s.table.base

def toHost (s : ClassStore) : Host :=
  s.table.toHost

def enterType (s : ClassStore) (name : String) (descriptor : Option Descriptor) :
    UInt32 × ClassStore :=
  let number := s.table.catalog.size.toUInt32
  let row : CatalogRow := ⟨number, name, descriptor⟩
  (number, { s with table := { s.table with catalog := s.table.catalog.push row } })

def nameBaseline (s : ClassStore) (d : Descriptor) : ClassStore :=
  { s with table := { s.table with baseline := s.table.baseline.push d } }

def release (s : ClassStore) (d : Descriptor) : Bool × ClassStore :=
  (s.table.contains d, { s with table := s.table.drop d })

def size (s : ClassStore) : Nat :=
  s.table.size

def debugText (s : ClassStore) : String :=
  "MemoryTypeSystem \x7b root: " ++ s.root.debugText ++
    ", descriptors: " ++ Nat.repr s.size ++
    ", types: " ++ Nat.repr s.table.catalog.size ++ " \x7d"

theorem root_withRoot (name : String) : (withRoot name).root = ⟨firstHandle⟩ := rfl

theorem describe_define (s : ClassStore) (info : ClassInfo) (d : Descriptor) :
    (s.define info).2.toHost.describe d =
      if (s.define info).1 = d then some info else s.toHost.describe d :=
  ClassTable.describe_put s.table _ d info

theorem describe_release (s : ClassStore) (d e : Descriptor) :
    (s.release d).2.toHost.describe e = if d = e then none else s.toHost.describe e :=
  ClassTable.describe_drop s.table d e

end ClassStore

end ClassCensus
