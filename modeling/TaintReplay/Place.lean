import TaintReplay.OrdSet

/-!
# Places

Summaries and taints both speak of *places*: where a value stands at a method
boundary, and which part of it is meant. A place has a role (a parameter, the
returned value, the receiver, …), the static type of the value there, a chain
of fields leading into it, a flag saying whether everything below the end of
the chain is meant too, and possibly a gap: a call back into code that the
summary does not cover, whose boundary is meant in place of the method's own.

Endpoints of summarised flows and taints differ only in the roles they can
have, so `Place` is a structure over the type of roles.
-/

namespace TaintReplay

/-- The kinds of roles, in increasing order. -/
inductive Kind where
  | parameter
  | field
  | returned
  | receiver
  | gapBase
deriving DecidableEq

namespace Kind

/-- The name of a kind. -/
def render : Kind → String
  | parameter => "Parameter"
  | field => "Field"
  | returned => "Return"
  | receiver => "Receiver"
  | gapBase => "GapBaseObject"

/-- The kind of a name. -/
def ofName? : String → Option Kind
  | "Parameter" => some parameter
  | "Field" => some field
  | "Return" => some returned
  | "Receiver" => some receiver
  | "GapBaseObject" => some gapBase
  | _ => none

theorem ofName?_render (k : Kind) : ofName? k.render = some k := by
  cases k <;> rfl

/-- The place of a kind in their order. -/
def rank : Kind → Nat
  | parameter => 0
  | field => 1
  | returned => 2
  | receiver => 3
  | gapBase => 4

theorem eq_of_rank {a b : Kind} (h : a.rank = b.rank) : a = b := by
  cases a <;> cases b <;> simp_all [rank]

end Kind

/-- One step of a chain of fields: the signature of the field and the static
type of what it holds, both as written. -/
structure FieldStep where
  field : String
  type : String
deriving DecidableEq

namespace FieldStep

/-- Steps are ordered by field, then by type. -/
def order : FieldStep → FieldStep → Ordering := compareLex (compareOn field) (compareOn type)

instance : Ord FieldStep := ⟨order⟩

instance : Std.TransOrd FieldStep := inferInstanceAs (Std.TransCmp (compareLex _ _))

instance : Std.LawfulEqOrd FieldStep where
  compare_self := Std.ReflCmp.compare_self
  eq_of_compare {a b} h := by
    replace h : order a b = .eq := h
    simp only [order, compareLex_eq_eq, compareOn, Std.LawfulEqOrd.compare_eq_iff_eq] at h
    cases a
    cases b
    simp_all

end FieldStep

/-- A call back into code that a summary does not cover, named by the
signature of the method called. -/
structure Gap where
  signature : String
deriving DecidableEq

namespace Gap

instance : Ord Gap := ⟨compareOn signature⟩

instance : Std.TransOrd Gap := inferInstanceAs (Std.TransCmp (compareOn _))

instance : Std.LawfulEqOrd Gap where
  compare_self := Std.ReflCmp.compare_self
  eq_of_compare {a b} h := by
    replace h : compare a.signature b.signature = .eq := h
    cases a
    cases b
    simp_all

/-- The written form of a gap. -/
def render (g : Gap) : String := "gap" ++ g.signature

instance : ToString Gap := ⟨render⟩

end Gap

/-- What the roles of places have in common: a kind, and the position for
those that stand for a parameter. -/
class Role (ρ : Type) where
  kind : ρ → Kind
  index : ρ → Option Nat

/-- A part of a value at a method boundary. -/
structure Place (ρ : Type) where
  role : ρ
  /-- The static type of the value, as written. -/
  base : String
  /-- The fields leading from the value to the part that is meant. -/
  path : List FieldStep
  /-- Everything below the end of the path is meant too. -/
  subFields : Bool
  /-- The call back whose boundary is meant. -/
  gap : Option Gap
deriving DecidableEq

namespace Place

variable {ρ : Type}

/-- Places are ordered by role, static type, path, reach and gap. -/
def order [Ord ρ] : Place ρ → Place ρ → Ordering :=
  compareLex (compareOn role) <| compareLex (compareOn base) <| compareLex (compareOn path) <|
    compareLex (compareOn subFields) (compareOn gap)

instance [Ord ρ] : Ord (Place ρ) := ⟨order⟩

instance [Ord ρ] [Std.TransOrd ρ] : Std.TransOrd (Place ρ) :=
  inferInstanceAs (Std.TransCmp (compareLex _ _))

instance [Ord ρ] [Std.TransOrd ρ] [Std.LawfulEqOrd ρ] : Std.LawfulEqOrd (Place ρ) where
  compare_self := Std.ReflCmp.compare_self
  eq_of_compare {a b} h := by
    replace h : order a b = .eq := h
    simp only [order, compareLex_eq_eq, compareOn, Std.LawfulEqOrd.compare_eq_iff_eq] at h
    cases a
    cases b
    simp_all

/-- The kind of the role. -/
def kind [Role ρ] (p : Place ρ) : Kind := Role.kind p.role

/-- The position of the parameter the place stands for. -/
def index [Role ρ] (p : Place ρ) : Option Nat := Role.index p.role

/-- The names of the fields on the path. -/
def fields (p : Place ρ) : List String := p.path.map (·.field)

/-- The static type of what stands at the end of the path. -/
def lastType (p : Place ρ) : String := (p.path.getLast?.map (·.type)).getD p.base

/-- The written shape of a place: gap, role, static type, fields and reach. -/
def shape [Role ρ] (p : Place ρ) : String :=
  let gap := (p.gap.map fun g => g.render ++ ":").getD ""
  let index := (p.index.map fun i => "(" ++ toString i ++ ")").getD ""
  let path := String.join (p.path.map fun step => "." ++ step.field)
  let reach := if p.subFields then ".*" else ""
  gap ++ p.kind.render ++ index ++ " [" ++ p.base ++ "]" ++ path ++ reach

end Place

end TaintReplay
