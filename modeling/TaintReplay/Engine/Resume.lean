import TaintReplay.Engine.Worklist

/-!
# Resuming waiting replays

When the solver reports an exit of a method that it was sent into, every replay
that waits for this method and seed goes on: the facts at the exit leave the
gap, and what becomes tainted at the call that started the replay is given to
the solver after that call. A replay keeps waiting; another exit resumes it
again.
-/

namespace TaintReplay.Engine

variable {σ : Type}

/-- The call at the bottom of a stack. -/
def callSiteOf (root : Propagator) : Run σ CallSite :=
  match root.site with
  | some site => pure site
  | none => Run.fail (.rootWithoutCallSite root)

/-- The flows of the method that a replay is about. -/
def flowsAtCall (e : EngineId) (s : StmtId) : Run σ FlowSet := do
  let some call := (← get).program.call? s | Run.fail (.notACall s)
  return (← summariesFor e (some s) call.callee).allFlowsForMethod call.callee.subSignature

/-- Gives the solver the paths tainted at a call, after the call. -/
def injectAfter (host : Host σ) (site : CallSite) (paths : OrdSet AccessPath) : Run σ Unit := do
  let successors := (← get).program.successors site.stmt
  paths.toList.forM fun path =>
    successors.forM fun next =>
      host.deliver ⟨site.context, next, Fact.derivedAt path site.stmt⟩

/-- Goes on with one waiting replay after an exit. Returns what it collects, with
the call at the bottom of its stack. -/
def collectOne (host : Host σ) (fuel : Nat) (e : EngineId) (m : Method) (stmt : StmtId)
    (fact : Fact) (c : Continuation) : Run σ (Option (CallSite × OrdSet AccessPath)) := do
  let session ← get
  let arena := session.arena c.arena
  let some p := arena.get? c.id | return none
  if p.parent.isNone then Run.fail (.gapWithoutParent p)
  else
    let taints := session.program.taintsOnReturn fact.path stmt p.gap
    if taints.isEmpty then return none
    else
      Run.report (.resumed p m.signature)
      let some root := arena.get? (arena.rootOf c.id) | return none
      let site ← callSiteOf root
      let flows ← flowsAtCall e site.stmt
      let initial ← (arena.leaveFrame p taints.toList).mapM (Run.intern c.arena)
      let collected ← replay host fuel e c.arena flows initial
      return collected.map fun paths => (site, paths)

/-- Goes on with one waiting replay after an exit, and gives the solver what it
collects. -/
def resumeOne (host : Host σ) (fuel : Nat) (e : EngineId) (m : Method) (stmt : StmtId)
    (fact : Fact) (c : Continuation) : Run σ Unit := do
  let collected ← collectOne host fuel e m stmt fact c
  collected.forM fun found => injectAfter host found.1 found.2

/-- Goes on with all replays that wait for an exit. -/
def resume (host : Host σ) (fuel : Nat) (e : EngineId) (r : ExitReport) : Run σ Unit := do
  let session ← get
  let engine := session.engine e
  if !engine.connected then Run.fail .uninitialized
  else
    let some m := session.program.methodOf? r.stmt | return
    let some waiting := engine.waiting.find? ⟨r.seed.path, m.id⟩ | return
    waiting.toList.forM (resumeOne host fuel e m r.stmt r.fact)

/-- Passes an exit on to the engine that listens. Returns whether there is one.
An engine that nobody can reach any more ignores it. -/
def handleExit (host : Host σ) (fuel : Nat) (r : ExitReport) : Run σ Bool := do
  let session ← get
  match session.listener with
  | none => return false
  | some e =>
    if session.isAlive e then
      resume host fuel e r
      return true
    else
      Run.report (.engineGone r.seed)
      return true

/-! ## Handing edges over -/

/-- Hands an edge to the solver. Returns the exits it reports at once. -/
def handOver (solver : Solver σ) (edge : PathEdge) : Run σ (List ExitReport) := do
  let session ← get
  let (state, reports) := solver.accept session.solver edge
  set { session with solver := state }
  return reports

/-- Answers a report the solver made at once. An error in doing so goes to the
solver. -/
def respond (host : Host σ) (fuel : Nat) (r : ExitReport) : Run σ Unit :=
  tryCatch (discard (handleExit host fuel r)) fun
    | .error e => modify fun s => { s with solver := host.solver.reject s.solver e }
    | .outOfFuel => throw .outOfFuel

/-- Hands an edge to the solver and passes the exits it reports at once back to
the listening engine, which may hand over further edges. `depth` bounds how
deeply this nests. -/
def deliver (solver : Solver σ) (fuel : Nat) : Nat → PathEdge → Run σ Unit
  | 0, edge => do
    let reports ← handOver solver edge
    if reports.isEmpty then return else throw .outOfFuel
  | depth + 1, edge => do
    let reports ← handOver solver edge
    reports.forM (respond ⟨solver, deliver solver fuel depth⟩ fuel)

/-- The solver as an engine sees it. -/
def host (solver : Solver σ) (fuel depth : Nat) : Host σ := ⟨solver, deliver solver fuel depth⟩

end TaintReplay.Engine
