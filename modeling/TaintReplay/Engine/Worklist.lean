import Std.Data.TreeSet
import TaintReplay.Engine.Callback
import TaintReplay.FlowApplication
import TaintReplay.Queue

/-!
# The work list

A replay starts from some propagators and follows all flows that apply until
nothing new turns up. The propagators still to be treated wait in a queue, and
each is queued once. Treating one (`Engine.expand`) yields its successors and
the access paths it taints at the call; the queue itself (`Frontier`) knows
nothing of flows.

A replay can be cut off after a number of steps. Without such a limit it need
not end, since flows can lengthen paths; `Engine.drain` therefore takes fuel,
and a run that uses it up has no answer.
-/

namespace TaintReplay

/-! ## The queue -/

/-- What treating a propagator yields: the propagators it leads to and the
paths it taints at the call. -/
structure Expansion where
  successors : List PropagatorId
  collected : List AccessPath

namespace Expansion

/-- Nothing. -/
def empty : Expansion := ⟨[], []⟩

/-- One expansion after another. -/
def append (x y : Expansion) : Expansion :=
  ⟨x.successors ++ y.successors, x.collected ++ y.collected⟩

instance : Append Expansion := ⟨append⟩

end Expansion

/-- The state of a work list. -/
structure Frontier where
  /-- The propagators to be treated, in order. -/
  queue : Queue PropagatorId
  /-- The propagators that were ever queued. -/
  seen : Std.TreeSet PropagatorId
  /-- The paths tainted so far, once there is one. -/
  collected : Option (OrdSet AccessPath)
  /-- Number of propagators treated. -/
  steps : Nat

namespace Frontier

/-- The work list that starts from some propagators. -/
def start (initial : List PropagatorId) : Frontier :=
  ⟨Queue.ofList initial, Std.TreeSet.ofList initial, none, 0⟩

/-- Adds paths to those tainted so far. -/
def collect (old : Option (OrdSet AccessPath)) (paths : List AccessPath) :
    Option (OrdSet AccessPath) :=
  paths.foldl (fun found path => some ((found.getD OrdSet.empty).insert path)) old

/-- Queues a propagator that was never queued. -/
def push (f : Frontier) (id : PropagatorId) : Frontier :=
  if id ∈ f.seen then f else { f with queue := f.queue.push id, seen := f.seen.insert id }

/-- Goes on with the rest of the queue after the first was treated. -/
def advance (f : Frontier) (rest : Queue PropagatorId) (x : Expansion) : Frontier :=
  let f := { f with
    queue := rest
    collected := collect f.collected x.collected
    steps := f.steps + 1 }
  x.successors.foldl push f

/-- Whether a limit on the number of steps is reached. -/
def isSpent (f : Frontier) (limit : Option Nat) : Bool := limit.any fun n => decide (n ≤ f.steps)

end Frontier

namespace Engine

variable {σ : Type}

/-! ## One propagator -/

/-- Interns a propagator and, if its taint lies in an object of a type that can
have aliases, its inverse. -/
def internWithInverse (a : Nat) (p : Propagator) : Run σ (List PropagatorId) := do
  let id ← Run.intern a p
  if p.isHeapTaint && (JavaType.parse p.taint.lastType).canAlias then
    let inverse ← Run.intern a p.toInverse
    return [id, inverse]
  else return [id]

/-- Follows one flow from a propagator. A result at the bottom of the stack
that is not seen through a gap is a taint at the call itself. -/
def follow (a : Nat) (id : PropagatorId) (flow : Flow) : Run σ Expansion := do
  let session ← get
  match session.hierarchy.applyFlow? (session.arena a) flow id with
  | none => return .empty
  | some q =>
    if q.parent.isNone && q.taint.gap.isNone then
      let some site := q.site | Run.fail (.rootWithoutCallSite q)
      let some path ← pathOnCall q.taint site.stmt | return .empty
      Run.report (.pathTainted flow path)
      return ⟨← internWithInverse a q, [path]⟩
    else return ⟨← internWithInverse a q, []⟩

/-- The flows of the method a propagator is in, and what it leads to besides
following them. A gap without flows is left to the solver. -/
def flowsOf (host : Host σ) (e : EngineId) (a : Nat) (flows : FlowSet) (id : PropagatorId)
    (p : Propagator) : Run σ (FlowSet × Expansion) :=
  match p.gap with
  | none => return (flows, .empty)
  | some gap => do
    let flows ← flowsForGap e gap
    if flows.isEmpty then
      let left ← resolveGap host e a id p gap
      return (flows, ⟨← left.mapM (Run.intern a), []⟩)
    else return (flows, .empty)

/-- Treats a propagator: follows all flows of the method it is in. -/
def expand (host : Host σ) (e : EngineId) (a : Nat) (flows : FlowSet) (id : PropagatorId) :
    Run σ Expansion := do
  let session ← get
  let arena := session.arena a
  let some p := arena.get? id | return .empty
  Run.report (.taken arena id p)
  if p.gap.isSome && p.parent.isNone then Run.fail (.gapWithoutParent p)
  else
    let (flows, entered) ← flowsOf host e a flows id p
    let followed ← (flows.toList.filterMap p.orient).mapM (follow a id)
    return followed.foldl (· ++ ·) entered

/-! ## All propagators -/

/-- Treats the propagators of a queue, and those they lead to, until the queue
is empty or the limit is reached. Returns the paths tainted at the call, if
there are any. -/
def drain (treat : PropagatorId → Run σ Expansion) (limit : Option Nat) :
    Nat → Frontier → Run σ (Option (OrdSet AccessPath))
  | fuel, f =>
    match f.queue.pop? with
    | none => return f.collected
    | some (id, rest) =>
      if f.isSpent limit then do
        Run.report (.cutOff f.steps f.queue.size)
        return f.collected
      else
        match fuel with
        | 0 => throw .outOfFuel
        | fuel + 1 => do
          let x ← treat id
          drain treat limit fuel (f.advance rest x)

/-- Replays flows from some propagators of an arena. Returns the paths tainted
at the call, if there are any. -/
def replay (host : Host σ) (fuel : Nat) (e : EngineId) (a : Nat) (flows : FlowSet)
    (initial : List PropagatorId) : Run σ (Option (OrdSet AccessPath)) := do
  let limit := ((← get).engine e).options.maxSteps
  drain (expand host e a flows) limit fuel (.start initial)

end Engine

end TaintReplay
