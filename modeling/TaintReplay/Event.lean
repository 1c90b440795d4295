import TaintReplay.Arena
import TaintReplay.Flow
import TaintReplay.Hierarchy.Basic
import TaintReplay.Signature.Method

/-!
# Events

What an analysis reports while it runs. An event holds the values it is about
as they were when it happened; `Event.message` puts it into words, and only
words that are shown are worked out. Nothing reads events back, so they never
influence an answer.
-/

namespace TaintReplay

/-- How important an event is, from the most to the least. -/
inductive Level where
  | warn
  | info
  | debug
  | trace
deriving DecidableEq

namespace Level

/-- The name of a level. -/
def render : Level → String
  | warn => "WARN"
  | info => "INFO"
  | debug => "DEBUG"
  | trace => "TRACE"

/-- The place of a level, the most important first. -/
def rank : Level → Nat
  | warn => 1
  | info => 2
  | debug => 3
  | trace => 4

end Level

/-- Something that happened. -/
inductive Event where
  | hierarchyChanged (n : Hierarchy.Notice)
  | bodyLoaded (m : MethodSignature)
  | methodChanged (m : MethodSignature)
  | loggerPresent
  /-- An engine was connected to the solver. -/
  | initialized (loadable supported : Nat)
  /-- Summaries were looked up for the first time. -/
  | lookedUp (subSignature : String) (classes : Nat)
  | lookupFailed (g : Gap) (e : SignatureError)
  | summaryMissing (callee : MethodSignature)
  /-- A propagator was taken from the work list. -/
  | taken (a : Arena) (id : PropagatorId) (p : Propagator)
  /-- The work list was cut off. -/
  | cutOff (steps left : Nat)
  /-- A flow tainted a path at the call. -/
  | pathTainted (flow : Flow) (path : AccessPath)
  | fieldUnreadable (t : Taint) (e : SignatureError)
  | gapUnknown (g : Gap)
  /-- A seed was given to the solver. -/
  | spawned (m : MethodSignature) (seed : Fact)
  | resumed (p : Propagator) (m : MethodSignature)
  /-- An exit was reported for an engine that is gone. -/
  | engineGone (seed : Fact)
  /-- A query was answered. -/
  | answered (facts : Nat) (callee : MethodSignature) (fact : Fact)

namespace Event

/-- The importance of an event. -/
def level : Event → Level
  | hierarchyChanged (.phantomAdded _) => .trace
  | hierarchyChanged (.rootParentAdded _) => .debug
  | bodyLoaded _ => .trace
  | methodChanged _ => .trace
  | loggerPresent => .debug
  | initialized _ _ => .info
  | lookedUp _ _ => .trace
  | lookupFailed _ _ => .warn
  | summaryMissing _ => .warn
  | taken _ _ _ => .trace
  | cutOff _ _ => .warn
  | pathTainted _ _ => .trace
  | fieldUnreadable _ _ => .warn
  | gapUnknown _ => .debug
  | spawned _ _ => .debug
  | resumed _ _ => .debug
  | engineGone _ => .debug
  | answered _ _ _ => .trace

/-- An event in words. -/
def message : Event → String
  | hierarchyChanged (.phantomAdded name) => "adding phantom class '" ++ name ++ "' to hierarchy"
  | hierarchyChanged (.rootParentAdded name) =>
    "add missing " ++ JavaType.objectName ++ " inheritance to " ++ name
  | bodyLoaded m => "retrieving body of " ++ m.render
  | methodChanged m => "method " ++ m.render ++ " changed"
  | loggerPresent => "logger already initialized"
  | initialized loadable supported =>
    "summary taint wrapper initialized with " ++ toString loadable ++ " loadable and " ++
      toString supported ++ " supported classes"
  | lookedUp subSignature classes =>
    "querying summaries of " ++ subSignature ++ " in " ++ toString classes ++ " classes"
  | lookupFailed g e => "cannot look up summaries of " ++ g.render ++ ": " ++ e.message
  | summaryMissing callee => "missing summary for " ++ callee.render
  | taken a id p => "applying summaries to " ++ p.render ++ " at depth " ++ toString (a.depth id)
  | cutOff steps left =>
    "summary application stopped after " ++ toString steps ++ " steps, " ++ toString left ++
      " propagators left"
  | pathTainted flow path => flow.render ++ " taints " ++ path.render
  | fieldUnreadable t e => "cannot resolve field of " ++ t.render ++ ": " ++ e.message
  | gapUnknown g => "no summary nor code for " ++ g.render
  | spawned m seed => "spawned analysis of " ++ m.render ++ " with " ++ seed.render
  | resumed p m => "resuming " ++ p.render ++ " after " ++ m.render
  | engineGone seed => "taint wrapper dropped, ignoring exit of seed " ++ seed.render
  | answered facts callee fact =>
    toString facts ++ " facts after " ++ callee.render ++ " from " ++ fact.render

/-- The line of the log for an event. -/
def line (e : Event) : String := e.level.render ++ " " ++ e.message

/-- The lines of a log that shows events of a level and of all more important
ones. -/
def lines (shown : Level) (events : List Event) : List String :=
  (events.filter fun e => decide (e.level.rank ≤ shown.rank)).map line

end Event

end TaintReplay
