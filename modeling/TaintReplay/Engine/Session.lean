import TaintReplay.Arena
import TaintReplay.Event
import TaintReplay.Hierarchy.Walk
import TaintReplay.Memo
import TaintReplay.MultiMap
import TaintReplay.Options
import TaintReplay.Program.Bodies
import TaintReplay.Solver.Basic
import TaintReplay.Summary.Store

/-!
# The state of an analysis

A session is everything that an analysis reads and changes: the hierarchy, the
program and its loaded bodies, the solver, the engines, and the events so far.
Several engines can share a session. One of them may be the *fallback* of
another and is asked for the calls that the other has no summary for.

An engine keeps what it has looked up and the replays that wait for an exit. A
waiting replay is named by its arena and its propagator; arenas belong to the
session and are numbered in the order they were opened.

Programs of the engine are values of `Run`. They end in a value or a failure,
and what they changed before a failure stays changed.
-/

namespace TaintReplay

/-! ## Engines -/

/-- What is looked up: a method in several classes. -/
structure LookupKey where
  classes : OrdSet String
  subSignature : String
deriving DecidableEq

namespace LookupKey

/-- Ordered by classes, then by method. -/
def order : LookupKey → LookupKey → Ordering :=
  compareLex (compareOn classes) (compareOn subSignature)

instance : Ord LookupKey := ⟨order⟩

instance : Std.TransOrd LookupKey := inferInstanceAs (Std.TransCmp (compareLex _ _))

instance : Std.LawfulEqOrd LookupKey where
  compare_self := Std.ReflCmp.compare_self
  eq_of_compare {a b} h := by
    replace h : order a b = .eq := h
    simp only [order, compareLex_eq_eq, compareOn, Std.LawfulEqOrd.compare_eq_iff_eq] at h
    cases a
    cases b
    simp_all

end LookupKey

/-- What a replay waits for: an exit of a method entered with a path. -/
structure Seed where
  path : AccessPath
  method : MethodId
deriving DecidableEq

namespace Seed

/-- Ordered by path, then by method. -/
def order : Seed → Seed → Ordering := compareLex (compareOn path) (compareOn method)

instance : Ord Seed := ⟨order⟩

instance : Std.TransOrd Seed := inferInstanceAs (Std.TransCmp (compareLex _ _))

instance : Std.LawfulEqOrd Seed where
  compare_self := Std.ReflCmp.compare_self
  eq_of_compare {a b} h := by
    replace h : order a b = .eq := h
    simp only [order, compareLex_eq_eq, compareOn, Std.LawfulEqOrd.compare_eq_iff_eq] at h
    cases a
    cases b
    simp_all

end Seed

/-- A waiting replay: the number of its arena and the propagator in the gap. -/
structure Continuation where
  arena : Nat
  id : PropagatorId
deriving DecidableEq

namespace Continuation

/-- Ordered by age of the arena, then by propagator. -/
def order : Continuation → Continuation → Ordering := compareLex (compareOn arena) (compareOn id)

instance : Ord Continuation := ⟨order⟩

instance : Std.TransOrd Continuation := inferInstanceAs (Std.TransCmp (compareLex _ _))

instance : Std.LawfulEqOrd Continuation where
  compare_self := Std.ReflCmp.compare_self
  eq_of_compare {a b} h := by
    replace h : order a b = .eq := h
    simp only [order, compareLex_eq_eq, compareOn, Std.LawfulEqOrd.compare_eq_iff_eq] at h
    cases a
    cases b
    simp_all

end Continuation

/-- The place of an engine in its session. -/
abbrev EngineId := Nat

/-- An engine: its summaries and options, and what it has learnt. -/
structure Engine where
  store : SummaryStore
  options : Options
  /-- The engine asked for calls without a summary. -/
  fallback : Option EngineId
  /-- Whether the host still holds the engine. -/
  held : Bool
  /-- Whether the engine is connected to the solver. -/
  connected : Bool
  /-- What has been looked up. -/
  memo : Memo LookupKey ClassSummaries
  /-- The replays that wait, by what they wait for. -/
  waiting : MultiMap Seed Continuation
  /-- Forward queries with and without a summary. -/
  hits : Nat
  misses : Nat

namespace Engine

/-- An engine that was not used yet. -/
def create (store : SummaryStore) (options : Options) (fallback : Option EngineId) : Engine :=
  ⟨store, options, fallback, true, false, Memo.empty, MultiMap.empty, 0, 0⟩

instance : Inhabited Engine := ⟨create default default none⟩

/-- Number of seeds that replays wait for. -/
def pendingSeeds (e : Engine) : Nat := e.waiting.size

end Engine

/-! ## Sessions -/

/-- Everything an analysis reads and changes. -/
structure Session (σ : Type) where
  hierarchy : Hierarchy
  program : Program
  bodies : Bodies
  /-- The state of the solver. -/
  solver : σ
  /-- The engine that exits are reported to. -/
  listener : Option EngineId
  engines : List Engine
  arenas : List Arena
  /-- What has happened, the latest first. -/
  history : List Event

namespace Session

variable {σ : Type}

/-- A session that has just begun. Some bodies of the program may be loaded
already. -/
def start (hierarchy : Hierarchy) (program : Program) (bodies : Bodies) (solver : σ)
    (engines : List Engine) : Session σ :=
  ⟨hierarchy, program, bodies, solver, none, engines, [], []⟩

/-- The events so far, the first first. -/
def events (s : Session σ) : List Event := s.history.reverse

/-- The engine at a place. -/
def engine (s : Session σ) (e : EngineId) : Engine := s.engines[e]?.getD default

/-- Changes the engine at a place. -/
def modifyEngine (s : Session σ) (e : EngineId) (f : Engine → Engine) : Session σ :=
  { s with engines := s.engines.modify e f }

/-- The arena of a number. -/
def arena (s : Session σ) (a : Nat) : Arena := s.arenas[a]?.getD Arena.empty

/-- Number of propagators kept for the waiting replays of an engine. -/
def retained (s : Session σ) (e : EngineId) : Nat :=
  let arenas := OrdSet.ofList ((s.engine e).waiting.values.toList.map (·.arena))
  arenas.toList.foldr (fun a total => (s.arena a).size + total) 0

/-- Up to `fuel` engines: one, its fallback, the fallback of that, and so on. -/
def chainFrom (s : Session σ) : Nat → EngineId → List EngineId
  | 0, _ => []
  | fuel + 1, e =>
    e ::
      match (s.engine e).fallback with
      | none => []
      | some fallback => s.chainFrom fuel fallback

/-- The engines that are asked in turn when a query is put to one. -/
def chain (s : Session σ) (e : EngineId) : List EngineId := s.chainFrom s.engines.length e

/-- Whether an engine can still be reached: the host holds it or one of those
that it is a fallback of. -/
def isAlive (s : Session σ) (e : EngineId) : Bool :=
  (List.range s.engines.length).any fun k => (s.engine k).held && (s.chain k).contains e

/-- Changes the hierarchy on behalf of the host. -/
def editHierarchy (s : Session σ) (edit : Hierarchy.Edit) : Except HierarchyError Unit × Session σ :=
  let answer := edit.apply s.hierarchy
  let notices := (edit.notices s.hierarchy).map Event.hierarchyChanged
  (answer.1, { s with hierarchy := answer.2, history := notices.reverse ++ s.history })

/-- The host gives up an engine. -/
def release (s : Session σ) (e : EngineId) : Session σ :=
  s.modifyEngine e fun engine => { engine with held := false }

end Session

/-! ## Runs -/

/-- Programs that work on a session. Changes made before a failure stay. -/
abbrev Run (σ : Type) := ExceptT Failure (StateM (Session σ))

namespace Run

variable {σ : Type}

/-- Reports an event. -/
def report (e : Event) : Run σ Unit := modify fun s => { s with history := e :: s.history }

/-- Reports an event on a condition. -/
def reportIf (c : Bool) (e : Event) : Run σ Unit := if c then report e else pure ()

/-- Ends the run with an error. -/
def fail {α : Type} (e : AnalysisError) : Run σ α := throw (.error e)

/-- Takes over the outcome of a computation. -/
def ofExcept {α : Type} : Except AnalysisError α → Run σ α
  | .ok a => pure a
  | .error e => fail e

/-- Changes an engine. -/
def modifyEngine (e : EngineId) (f : Engine → Engine) : Run σ Unit :=
  modify fun s => s.modifyEngine e f

/-- Registers a class that is mentioned, as a phantom if it is not known. -/
def ensureClass (name : String) : Run σ Unit := do
  let s ← get
  if !s.hierarchy.contains name then
    report (.hierarchyChanged (.phantomAdded name))
    modify fun s => { s with hierarchy := s.hierarchy.ensure name }

/-- Opens an arena. -/
def openArena : Run σ Nat := do
  let s ← get
  set { s with arenas := s.arenas ++ [Arena.empty] }
  return s.arenas.length

/-- Interns a propagator in an arena. -/
def intern (a : Nat) (p : Propagator) : Run σ PropagatorId := do
  let s ← get
  let (id, arena) := (s.arena a).intern p
  set { s with arenas := s.arenas.set a arena }
  return id

end Run

end TaintReplay
