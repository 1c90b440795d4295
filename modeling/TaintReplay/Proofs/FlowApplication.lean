import TaintReplay.FlowApplication

/-!
# What applying a flow does

`Hierarchy.applyFlow?` makes several tests and then builds a propagator. The
lemmas here say once what follows from its success: which propagator it was
applied to, which tests held, and which taint and frame the result has. Later
proofs cite them and never unfold the definition.

## Main results

* `Hierarchy.sinkTaint?_eq_some_iff`: the taint that a flow makes, if it makes one.
* `Hierarchy.applyFlow?_eq_some_iff`: the propagator that a flow makes, if it makes one.
-/

namespace TaintReplay

/-- The taint a flow makes of a taint, the fit of its type aside. -/
def Taint.movedTo (t : Taint) (source sink : Endpoint) (gap : Option Gap) : Taint :=
  .ofKind (if sink.kind = .gapBase ∧ t.residual source ≠ [] then .field else sink.kind) sink.index
    sink.base (sink.path ++ t.residual source) (sink.subFields || t.subFields) gap

namespace Hierarchy

theorem sinkTaint?_eq_some_iff {h : Hierarchy} {source sink : Endpoint} {t moved : Taint}
    {gap : Option Gap} :
    h.sinkTaint? source sink t gap = some moved ↔
      h.fits (t.typeTaken source) sink = true ∧ moved = t.movedTo source sink gap := by
  unfold sinkTaint?
  split
  · rename_i hfit
    simp only [Option.some.injEq, hfit, true_and]
    exact eq_comm
  · rename_i hfit
    simp [hfit]

/-- The tests a flow makes before it is applied to a taint. -/
def admits (h : Hierarchy) (flow : Flow) (t : Taint) : Bool :=
  h.castCompatible (JavaType.parse t.base) (JavaType.parse flow.source.base) &&
    t.gap == flow.source.gap && t.standsAt flow.source

theorem applyFlow?_eq_some_iff {h : Hierarchy} {a : Arena} {flow : Flow} {id : PropagatorId}
    {q : Propagator} :
    h.applyFlow? a flow id = some q ↔
      ∃ p moved, a.get? id = some p ∧ h.admits flow p.taint = true ∧
        h.sinkTaint? flow.source flow.sink p.taint (a.targetFrame id p flow.sink).2 = some moved ∧
        q = .inFrame moved (a.targetFrame id p flow.sink).1 := by
  unfold applyFlow? admits
  cases hp : a.get? id with
  | none => simp
  | some p =>
      simp only [Option.bind_eq_bind, Option.bind_some, Option.some.injEq]
      split
      · rename_i hadmits
        simp only [Option.bind_eq_some_iff, Option.pure_def, Option.some.injEq]
        constructor
        · rintro ⟨moved, hmoved, rfl⟩
          exact ⟨p, moved, rfl, hadmits, hmoved, rfl⟩
        · rintro ⟨p', moved, rfl, -, hmoved, rfl⟩
          exact ⟨moved, hmoved, rfl⟩
      · rename_i hadmits
        constructor
        · intro hnone
          cases hnone
        · rintro ⟨p', moved, rfl, hadmits', -⟩
          exact absurd hadmits' hadmits

end Hierarchy

end TaintReplay
