import Std.Data.TreeMap
import StackCompiler.Fault

/-!
# Variable slots

Every declared name has a numbered slot with a storage class. Slots are numbered in the order in
which the names came, and a name keeps the slot it got first.
-/

namespace StackCompiler

/-- A place for a variable. -/
structure Slot where
  index : Nat
  storage : Storage
deriving DecidableEq, Repr, Inhabited

/-- The slots of names. -/
structure SlotTable where
  slots : Std.TreeMap String Slot := {}
deriving Inhabited

namespace SlotTable

/-- How many slots there can be. -/
def capacity : Nat := 65536

/-- The number of slots. -/
def size (table : SlotTable) : Nat :=
  table.slots.size

/-- The slot of a name. -/
def get? (table : SlotTable) (name : String) : Option Slot :=
  table.slots[name]?

/-- The slot of a name, which is the next free one if the name has none yet, and the slots that
are then taken. -/
def allocate (table : SlotTable) (name : String) (storage : Storage) :
    Except Defect Slot × SlotTable :=
  match table.get? name with
  | some slot => (.ok slot, table)
  | none =>
    if table.size < capacity then
      let slot := ⟨table.size, storage⟩
      (.ok slot, ⟨table.slots.insert name slot⟩)
    else (.error .outOfSlots, table)

end SlotTable

end StackCompiler
