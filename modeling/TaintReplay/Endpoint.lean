import TaintReplay.Place

/-!
# Endpoints of summarised flows

An endpoint is a place as a summary describes it. Its role is a kind together
with an optional position. The position only means something for parameters,
but summaries come from outside and may give one for any kind, or none for a
parameter; it is kept as given.
-/

namespace TaintReplay

/-- The role of an endpoint, as a summary states it. -/
structure EndpointRole where
  kind : Kind
  index : Option Nat
deriving DecidableEq

namespace EndpointRole

/-- Roles are ordered by kind, then by position. -/
def order : EndpointRole → EndpointRole → Ordering :=
  compareLex (compareOn fun r => r.kind.rank) (compareOn index)

instance : Ord EndpointRole := ⟨order⟩

instance : Std.TransOrd EndpointRole := inferInstanceAs (Std.TransCmp (compareLex _ _))

instance : Std.LawfulEqOrd EndpointRole where
  compare_self := Std.ReflCmp.compare_self
  eq_of_compare {a b} h := by
    replace h : order a b = .eq := h
    simp only [order, compareLex_eq_eq, compareOn, Std.LawfulEqOrd.compare_eq_iff_eq] at h
    have hk : a.kind = b.kind := Kind.eq_of_rank h.1
    cases a
    cases b
    simp_all

instance : Role EndpointRole := ⟨kind, index⟩

end EndpointRole

/-- The source or the sink of a summarised flow. -/
abbrev Endpoint := Place EndpointRole

namespace Endpoint

/-- The written form of an endpoint. -/
def render (e : Endpoint) : String := e.shape

/-- The endpoint of a kind, without position, path or gap. -/
def ofKind (kind : Kind) (base : String) : Endpoint := ⟨⟨kind, none⟩, base, [], false, none⟩

/-- A parameter of the method. -/
def parameter (index : Nat) (base : String) : Endpoint :=
  ⟨⟨.parameter, some index⟩, base, [], false, none⟩

/-- Follows one more field. -/
def withField (e : Endpoint) (field type : String) : Endpoint :=
  { e with path := e.path ++ [⟨field, type⟩] }

/-- Says whether everything below is meant. -/
def withSubFields (e : Endpoint) (subFields : Bool) : Endpoint := { e with subFields }

/-- Moves the endpoint to the boundary of a gap. -/
def inGap (e : Endpoint) (gap : Gap) : Endpoint := { e with gap := some gap }

end Endpoint

end TaintReplay
