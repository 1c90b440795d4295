import TaintReplay.Program.Basic
import TaintReplay.Propagator

/-!
# Errors of a replay

Errors that end a replay. They are of three kinds: a summary speaks of a place
that the call or the called-back method does not have, the engine is used in
the wrong order, or a propagator is not where the replay can put one.
-/

namespace TaintReplay

/-- Why a replay ends without an answer. -/
inductive AnalysisError where
  /-- A propagator is in a gap that it did not enter from anywhere. -/
  | gapWithoutParent (p : Propagator)
  /-- A propagator at the bottom of its stack belongs to no call. -/
  | rootWithoutCallSite (p : Propagator)
  /-- A returned value was to be passed into a method. -/
  | returnIntoMethod (t : Taint)
  /-- A call or a method does not have the place of a taint. -/
  | noSuchPlace (t : Taint) (location : String)
  /-- A statement that was to be a call is none. -/
  | notACall (s : StmtId)
  /-- A method without body was to be analysed. -/
  | program (e : ProgramError)
  /-- The engine is not connected to a solver yet. -/
  | uninitialized
  /-- The engine was connected a second time. -/
  | initializedTwice

namespace AnalysisError

/-- The report of an error. -/
def message : AnalysisError → String
  | gapWithoutParent p => "gap flow without parent detected: " ++ p.render
  | rootWithoutCallSite p => "internal error: root propagator without call site: " ++ p.render
  | returnIntoMethod t => "a return value cannot be propagated into a method: " ++ t.render
  | noSuchPlace t location =>
    "could not convert " ++ t.render ++ " to an access path at " ++ location
  | notACall s => "statement is not a method call: " ++ s.render
  | program e => e.message
  | uninitialized => "taint wrapper used before initialization"
  | initializedTwice => "internal error: taint wrapper initialized twice"

end AnalysisError

/-- How a run can end without a value. Running out of fuel says nothing about
the run: with more fuel it may end in a value, in an error, or not at all. -/
inductive Failure where
  | error (e : AnalysisError)
  | outOfFuel

end TaintReplay
