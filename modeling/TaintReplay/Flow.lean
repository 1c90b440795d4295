import TaintReplay.Endpoint

/-!
# Summarised flows

A flow says that what is tainted at its source taints its sink when the method
of the given sub-signature is run. An *alias* flow says more: afterwards both
ends reach the same object, so taint also travels from the sink back to the
source.
-/

namespace TaintReplay

/-- A flow of taint through a method. -/
structure Flow where
  /-- The sub-signature of the method. -/
  method : String
  source : Endpoint
  sink : Endpoint
  /-- Both ends reach the same object afterwards. -/
  isAlias : Bool
deriving DecidableEq

namespace Flow

/-- Flows are ordered by method, source, sink and kind. -/
def order : Flow → Flow → Ordering :=
  compareLex (compareOn method) <| compareLex (compareOn source) <|
    compareLex (compareOn sink) (compareOn isAlias)

instance : Ord Flow := ⟨order⟩

instance : Std.TransOrd Flow := inferInstanceAs (Std.TransCmp (compareLex _ _))

instance : Std.LawfulEqOrd Flow where
  compare_self := Std.ReflCmp.compare_self
  eq_of_compare {a b} h := by
    replace h : order a b = .eq := h
    simp only [order, compareLex_eq_eq, compareOn, Std.LawfulEqOrd.compare_eq_iff_eq] at h
    cases a
    cases b
    simp_all

/-- The flow the other way round. -/
def reverse (f : Flow) : Flow := { f with source := f.sink, sink := f.source }

/-- Whether neither end stands at the boundary of a gap. -/
def isGapFree (f : Flow) : Bool := f.source.gap.isNone && f.sink.gap.isNone

/-- The written form of a flow. -/
def render (f : Flow) : String :=
  "\x7b" ++ f.method ++ ": " ++ f.source.render ++ " -> " ++ f.sink.render ++
    (if f.isAlias then " (alias)" else "") ++ "\x7d"

instance : ToString Flow := ⟨render⟩

end Flow

end TaintReplay
