import Std.Data.TreeSet
import TaintReplay.FlowApplication

/-!
# Exploring what flows lead to

Starting from all propagators of an arena, follows a list of flows in all
orders, up to a number of propagators. The latest propagator goes first. The
result is the list of new propagators in the order they were met, each with the
propagator and the flow that led to it.
-/

namespace TaintReplay

/-- A new propagator and how it was met. -/
structure Discovery where
  source : PropagatorId
  /-- The place of the flow in the list of flows. -/
  flow : Nat
  target : PropagatorId
  propagator : Propagator

/-- An exploration on its way: the arena, the propagators to be treated with
the next one first, those that were ever pending, and what was met, the latest
first. -/
structure Exploration where
  arena : Arena
  pending : List PropagatorId
  seen : Std.TreeSet PropagatorId
  found : List Discovery

namespace Exploration

/-- The exploration that starts from all propagators of an arena. -/
def start (a : Arena) : Exploration :=
  let ids := (List.range a.size).map PropagatorId.mk
  ⟨a, ids.reverse, Std.TreeSet.ofList ids, []⟩

/-- Follows one flow from a propagator. -/
def follow (h : Hierarchy) (limit : Nat) (source : PropagatorId) (x : Exploration)
    (flow : Nat × Flow) : Exploration :=
  match h.applyFlow? x.arena flow.2 source with
  | none => x
  | some p =>
    if x.seen.size < limit then
      let (target, arena) := x.arena.intern p
      if target ∈ x.seen then { x with arena }
      else
        ⟨arena, target :: x.pending, x.seen.insert target,
          ⟨source, flow.1, target, p⟩ :: x.found⟩
    else x

/-- Treats up to `fuel` propagators. -/
def run (h : Hierarchy) (flows : List (Nat × Flow)) (limit : Nat) :
    Nat → Exploration → Exploration
  | 0, x => x
  | fuel + 1, x =>
    match x.pending with
    | [] => x
    | id :: pending =>
      run h flows limit fuel (flows.foldl (follow h limit id) { x with pending })

end Exploration

/-- Explores from an arena until nothing is left or `limit` propagators were
seen. Each propagator is treated once, so their number is bounded by those at
the start and the limit. -/
def Arena.explore (a : Arena) (h : Hierarchy) (flows : List Flow) (limit : Nat) :
    Arena × List Discovery :=
  let numbered := flows.mapIdx fun i flow => (i, flow)
  let x := Exploration.run h numbered limit (a.size + limit + 1) (.start a)
  (x.arena, x.found.reverse)

end TaintReplay
