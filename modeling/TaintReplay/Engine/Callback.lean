import TaintReplay.Boundary
import TaintReplay.Engine.Lookup

/-!
# Calls back into analysed code

A gap without summaries is a call into code that the solver analyses itself.
For each method that may run there, the taint is given to the solver as a seed
at the start of the method and the replay waits for the exits of that method.
The replay is entered into the table of waiting ones *before* the seed is given
away, since the solver may report an exit at once.

If the solver already knows exits for the seed, the taints at those exits go on
right away. The replay waits all the same: further exits may be found.
-/

namespace TaintReplay

variable {σ : Type}

/-- What an engine sees of the solver: its answers, and a way to hand it an
edge. Handing over an edge may run other replays before it returns. -/
structure Host (σ : Type) where
  solver : Solver σ
  deliver : PathEdge → Run σ Unit

namespace Engine

/-! ## Conversions that register classes -/

/-- Reads the fields of a taint. Their declaring classes are registered; an
unreadable field is reported and gives nothing. -/
def resolveFields (t : Taint) : Run σ (Option (List PathField)) := do
  let chain := readFields t.path
  chain.classes.forM Run.ensureClass
  match chain.error with
  | none => return some chain.fields
  | some e =>
    Run.report (.fieldUnreadable t e)
    return none

/-- The access path a taint stands for at a call, if it stands for one. -/
def pathOnCall (t : Taint) (s : StmtId) : Run σ (Option AccessPath) := do
  let some stmt := (← get).program.stmt? s | Run.fail (.notACall s)
  let some base ← Run.ofExcept (stmt.localOnCall t) | return none
  let some fields ← resolveFields t | return none
  return some (t.toPath base fields t.subFields)

/-- The access path a taint stands for inside a method, with everything below
it. -/
def pathInside (t : Taint) (m : Method) : Run σ (Option AccessPath) := do
  let base ← Run.ofExcept (m.localInside t)
  let some fields ← resolveFields t | return none
  return some (t.toPath base fields true)

/-! ## Seeds -/

/-- Loads the body of a method unless it is loaded. -/
def ensureBody (m : Method) : Run σ Unit := do
  let session ← get
  if session.bodies.isActive m.id then return
  else
    match session.bodies.load m with
    | .error e => Run.fail (.program e)
    | .ok bodies =>
      Run.report (.bodyLoaded m.signature)
      Run.report (.methodChanged m.signature)
      modify fun s => { s with bodies := bodies.announceChange }

/-- Gives the taint of a propagator in a gap to the solver at the start of a
method. Returns the propagators that leave the gap by the exits already known. -/
def spawn (host : Host σ) (e : EngineId) (a : Nat) (id : PropagatorId) (p : Propagator)
    (m : Method) : Run σ (List Propagator) := do
  ensureBody m
  let some path ← pathInside p.taint m | return []
  let seed := Fact.ofPath path
  Run.modifyEngine e fun engine =>
    { engine with waiting := engine.waiting.put ⟨path, m.id⟩ ⟨a, id⟩ }
  ((← get).program.startPoints m.id).forM fun start => host.deliver ⟨seed, start, seed⟩
  Run.report (.spawned m.signature seed)
  let session ← get
  let exits := (host.solver.endSummary session.solver m.id seed).getD []
  let taints := exits.flatMap fun exit =>
    (session.program.taintsOnReturn exit.fact.path exit.stmt p.gap).toList
  return (session.arena a).leaveFrame p (OrdSet.ofList taints).toList

/-- Whether the solver can be sent into a method: it has code, and its class is
known to have instances of its own. -/
def canEnter (h : Hierarchy) (m : Method) : Bool :=
  !m.isAbstract && h.isConcrete m.className && !h.isPhantom m.className

/-- Sends the solver into all methods that may run in the gap of a propagator.
Returns the propagators that leave the gap by exits already known. -/
def resolveGap (host : Host σ) (e : EngineId) (a : Nat) (id : PropagatorId) (p : Propagator)
    (gap : Gap) : Run σ (List Propagator) := do
  let session ← get
  let program := session.program
  match (program.findMethod? gap.signature).bind program.method? with
  | none =>
    Run.report (.gapUnknown gap)
    return []
  | some callee =>
    let methods :=
      (program.implementors session.hierarchy callee).toList.filterMap program.method?
    let found ← methods.mapM fun m => do
      if canEnter (← get).hierarchy m then spawn host e a id p m else return []
    return found.flatten

end Engine

end TaintReplay
