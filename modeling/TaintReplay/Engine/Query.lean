import TaintReplay.Engine.Resume

/-!
# Queries

The questions a solver puts to an engine about a call: what is tainted after it
(`Engine.query`), and whether the engine answers for the call alone
(`Engine.isExclusive`). A query that no summary covers goes to the fallback and
is answered by nobody if there is none; that is not the same as an answer that
nothing new is tainted.

A covered query always contains the fact it was asked about.
-/

namespace TaintReplay

/-- A set of facts, at most one for each access path. -/
abbrev FactSet := OrdSet Fact

/-- The direction of a query: what a call taints, or what aliases a fact had
before it. -/
inductive Direction where
  | forward
  | backward
deriving DecidableEq

namespace Engine

variable {σ : Type}

/-! ## Connecting -/

/-- Connects an engine to the solver: its classes become known to the hierarchy
and it listens to exits from now on. An engine is connected once. -/
def connect (e : EngineId) : Run σ Unit := do
  let engine := (← get).engine e
  if engine.connected then Run.fail .initializedTwice
  Run.modifyEngine e fun engine => { engine with connected := true }
  let loadable := engine.store.loadableClasses
  let supported := engine.store.supportedClasses
  (loadable.toList ++ supported.toList).forM Run.ensureClass
  modify fun s => { s with listener := some e }
  Run.report (.initialized loadable.size supported.size)

/-- The options a connected engine works with. -/
def workingOptions (engine : Engine) : Except AnalysisError Options :=
  if engine.connected then .ok engine.options else .error .uninitialized

/-! ## Coverage -/

/-- Whether an engine has an entry for the class of a method. -/
def supportsMethod (engine : Engine) (callee : MethodSignature) : Bool :=
  engine.store.supports callee.className

/-- Whether a connected engine has an entry for the class called at a
statement. -/
def supportsStmt (session : Session σ) (e : EngineId) (s : StmtId) : Bool :=
  (session.engine e).connected &&
    (session.program.call? s).any fun call => supportsMethod (session.engine e) call.callee

/-- Whether an engine, or one it falls back on, answers for a call alone. -/
def isExclusive (session : Session σ) (e : EngineId) (s : StmtId) : Bool :=
  (session.chain e).any fun k => supportsStmt session k s

/-! ## Answers -/

/-- Replays the flows that each class has for the method called, and adds what
becomes tainted to the facts. -/
def replayClasses (host : Host σ) (fuel : Nat) (e : EngineId) (a : Nat) (site : CallSite)
    (inverse : Bool) (taints : OrdSet Taint) : List FlowSet → FactSet → Run σ FactSet
  | [], facts => return facts
  | flows :: rest, facts => do
    let initial ← taints.toList.mapM fun t => Run.intern a (.root t site inverse)
    let paths ← replay host fuel e a flows initial
    let derived := ((paths.map (·.toList)).getD []).map fun path => Fact.derivedAt path site.stmt
    replayClasses host fuel e a site inverse taints rest (facts.insertAll derived)

/-- The answer of an engine that has summaries for a call. -/
def answer (host : Host σ) (fuel : Nat) (e : EngineId) (direction : Direction) (site : CallSite)
    (callee : MethodSignature) (summaries : ClassSummaries) : Run σ FactSet := do
  let program := (← get).program
  let inverse := direction = .backward
  let facts : FactSet := OrdSet.singleton site.fact
  let taints := program.taintsOnCall site.fact.path site.stmt inverse
  if taints.isEmpty then return facts
  let a ← Run.openArena
  let flows := summaries.table.values.filterMap (·.flowsForMethod? callee.subSignature)
  let facts ← replayClasses host fuel e a site inverse taints flows facts
  Run.report (.answered facts.size callee site.fact)
  return facts

/-- Counts a query without summary, if it goes forward, and reports it if wanted. -/
def countMiss (e : EngineId) (direction : Direction) (callee : MethodSignature) : Run σ Unit := do
  let options := ((← get).engine e).options
  if direction = .forward then
    Run.modifyEngine e fun engine => { engine with misses := engine.misses + 1 }
    if options.reportMissing && options.isSystemClass callee.className then
      Run.report (.summaryMissing callee)

/-- Counts a query with a summary, if it goes forward. -/
def countHit (e : EngineId) (direction : Direction) : Run σ Unit := do
  if direction = .forward then
    Run.modifyEngine e fun engine => { engine with hits := engine.hits + 1 }

/-- Puts a query to engines in turn until one has summaries for the call. A
statement that is no call changes nothing. -/
def queryChain (host : Host σ) (fuel : Nat) (direction : Direction) (site : CallSite) :
    List EngineId → Run σ (Option FactSet)
  | [] => return none
  | e :: rest => do
    let session ← get
    if !(session.engine e).connected then Run.fail .uninitialized
    else
      let some call := session.program.call? site.stmt | return some (OrdSet.singleton site.fact)
      let summaries ← summariesFor e (some site.stmt) call.callee
      if summaries.isEmpty then
        countMiss e direction call.callee
        queryChain host fuel direction site rest
      else
        countHit e direction
        return some (← answer host fuel e direction site call.callee summaries)

/-- Puts a query to an engine: the facts after a call, given the context of the
solver there and a fact before it. -/
def query (host : Host σ) (fuel : Nat) (e : EngineId) (direction : Direction) (site : CallSite) :
    Run σ (Option FactSet) := do
  queryChain host fuel direction site ((← get).chain e)

end Engine

end TaintReplay
