import TaintReplay.Flow

/-!
# Sets of flows

A replay follows the flows of one method. They come as a set, or as the union of
several if more than one class has flows for the method.
-/

namespace TaintReplay

/-- A set of flows. -/
abbrev FlowSet := OrdSet Flow

namespace FlowSet

/-- The union of several sets of flows. -/
def unions (sets : List FlowSet) : FlowSet := sets.foldl OrdSet.union OrdSet.empty

/-- A union has the flows of its sets. -/
theorem mem_unions {sets : List FlowSet} {flow : Flow} :
    flow ∈ unions sets ↔ ∃ flows ∈ sets, flow ∈ flows := by
  have hfold : ∀ (more : List FlowSet) (found : FlowSet),
      flow ∈ more.foldl OrdSet.union found ↔ flow ∈ found ∨ ∃ flows ∈ more, flow ∈ flows := by
    intro more
    induction more with
    | nil => simp
    | cons flows more ih =>
        intro found
        rw [List.foldl_cons, ih, OrdSet.mem_union]
        simp only [List.mem_cons, exists_eq_or_imp]
        exact or_assoc
  rw [unions, hfold]
  simp

end FlowSet

end TaintReplay
