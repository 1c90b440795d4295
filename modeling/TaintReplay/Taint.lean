import TaintReplay.Place

/-!
# Taints

A taint is a place that holds tainted data. Concrete access paths give rise to
taints, so their roles are fewer than those of endpoints: the receiver itself
is the empty path below it, hence a `field` role, and only a parameter has a
position. `TaintRole` has no other values, and `TaintRole.ofKind` is the one
place where a stated kind and position are brought into this form.
-/

namespace TaintReplay

/-- The role of a taint. -/
inductive TaintRole where
  | parameter (index : Option Nat)
  | field
  | returned
  | gapBase
deriving DecidableEq

namespace TaintRole

/-- The kind of a role. -/
def kind : TaintRole → Kind
  | parameter _ => .parameter
  | field => .field
  | returned => .returned
  | gapBase => .gapBase

/-- The position of a parameter. -/
def index : TaintRole → Option Nat
  | parameter index => index
  | _ => none

instance : Role TaintRole := ⟨kind, index⟩

/-- The role for a stated kind and position: the receiver counts as the object
its fields belong to, and a position is dropped unless it is a parameter's. -/
def ofKind (kind : Kind) (index : Option Nat) : TaintRole :=
  match kind with
  | .parameter => parameter index
  | .field => field
  | .returned => returned
  | .receiver => field
  | .gapBase => gapBase

/-- Roles are ordered by kind, then by position. -/
def order : TaintRole → TaintRole → Ordering :=
  compareLex (compareOn fun r => r.kind.rank) (compareOn index)

instance : Ord TaintRole := ⟨order⟩

instance : Std.TransOrd TaintRole := inferInstanceAs (Std.TransCmp (compareLex _ _))

instance : Std.LawfulEqOrd TaintRole where
  compare_self := Std.ReflCmp.compare_self
  eq_of_compare {a b} h := by
    replace h : order a b = .eq := h
    simp only [order, compareLex_eq_eq, compareOn, Std.LawfulEqOrd.compare_eq_iff_eq] at h
    cases a <;> cases b <;> simp_all [kind, index, Kind.rank]

end TaintRole

/-- A place that holds tainted data. -/
abbrev Taint := Place TaintRole

namespace Taint

/-- The taint of a stated kind and position. -/
def ofKind (kind : Kind) (index : Option Nat) (base : String) (path : List FieldStep)
    (subFields : Bool) (gap : Option Gap) : Taint :=
  ⟨TaintRole.ofKind kind index, base, path, subFields, gap⟩

/-- The written form of a taint. -/
def render (t : Taint) : String := "taint " ++ t.shape

/-- The static type reached after a step of the path, and that of the whole
value where there is no such step. -/
def typeAt (t : Taint) (step : Option Nat) : String :=
  ((step.bind fun i => t.path[i]?).map (·.type)).getD t.base

/-- Says whether everything below is tainted. -/
def withSubFields (t : Taint) (subFields : Bool) : Taint := { t with subFields }

/-- Moves the taint to the boundary of a gap, or back to the method's own. -/
def inGap (t : Taint) (gap : Option Gap) : Taint := { t with gap }

end Taint

end TaintReplay
