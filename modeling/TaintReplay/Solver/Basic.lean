import TaintReplay.Engine.Error

/-!
# The solver behind an engine

An engine works for a solver that propagates facts through the analysed code.
Of the solver it needs three things: to take edges, to say which exits of a
method it has already reached for a seed, and to report exits it reaches later.

Taking an edge may reach an exit at once, so the solver may report exits while
the engine is still busy. `Solver.accept` gives the new state of the solver and
the exits it reports at once, in order; what the engine does with them may hand
further edges to the solver. An error of the engine in answering such a report
is given back to the solver, which decides what becomes of it.
-/

namespace TaintReplay

/-- A fact that holds at an exit of a method. -/
structure Exit where
  stmt : StmtId
  fact : Fact

/-- The report that a fact holds at an exit of the method a seed was given to. -/
structure ExitReport where
  seed : Fact
  stmt : StmtId
  fact : Fact

/-- A solver with states of type `σ`. -/
structure Solver (σ : Type) where
  /-- The exits known for a method and a seed. -/
  endSummary : σ → MethodId → Fact → Option (List Exit)
  /-- Takes an edge, possibly reporting exits at once. -/
  accept : σ → PathEdge → σ × List ExitReport
  /-- Takes the error of a report made at once. -/
  reject : σ → AnalysisError → σ

end TaintReplay
