import TaintReplay.OrdMap

/-!
# Maps with several values for a key

The table of suspended computations has a set of values for each key. Values
are added one by one and never removed.
-/

namespace TaintReplay

/-- A set of values for each key. -/
structure MultiMap (κ ν : Type) [Ord κ] [Ord ν] where
  table : OrdMap κ (OrdSet ν)

namespace MultiMap

variable {κ ν : Type} [Ord κ] [Ord ν]

/-- The map without values. -/
def empty : MultiMap κ ν := ⟨OrdMap.empty⟩

instance : Inhabited (MultiMap κ ν) := ⟨empty⟩

/-- The values of a key, if it has any. -/
def find? [DecidableEq κ] (m : MultiMap κ ν) (k : κ) : Option (OrdSet ν) := m.table.find? k

/-- Whether a value is among those of a key. -/
def contains [DecidableEq κ] [DecidableEq ν] (m : MultiMap κ ν) (k : κ) (v : ν) : Bool :=
  (m.find? k).any fun s => decide (v ∈ s)

/-- Number of keys with a value. -/
def size (m : MultiMap κ ν) : Nat := m.table.size

/-- Whether there are no values. -/
def isEmpty (m : MultiMap κ ν) : Bool := m.table.isEmpty

variable [Std.TransOrd κ] [Std.TransOrd ν]

/-- Adds a value to those of a key. -/
def put (m : MultiMap κ ν) (k : κ) (v : ν) : MultiMap κ ν :=
  ⟨m.table.alter k fun old => (old.getD OrdSet.empty).insert v⟩

/-- The values of all keys. -/
def values (m : MultiMap κ ν) : OrdSet ν :=
  m.table.values.foldl OrdSet.union OrdSet.empty

/-- The written form of the state of a map. -/
def render (m : MultiMap κ ν) : String :=
  "ConcurrentMultiMap \x7b keys: " ++ toString m.size ++ " \x7d"

end MultiMap

end TaintReplay
