import TaintReplay.Arena
import TaintReplay.Flow
import TaintReplay.Hierarchy.Assignability

/-!
# Applying a flow

A flow applies to a propagator when the tainted place and the source of the
flow can be the same place: their static types are cast compatible, they stand
at the same boundary, their roles agree and one path continues the other. The
taint then moves to the sink. Fields of the taint that the source does not
mention are carried along behind the path of the sink.

Field names decide whether paths agree; the types along them do not.

Where the new propagator stands depends on the sink alone. A sink in a gap
opens a frame for the called-back method, in which the taint is relative to
that method. Any other sink is a place of the method whose frame is on top: the
taint leaves the frame, and from below it is seen as a place of the gap that
was entered.
-/

namespace TaintReplay

/-! ## Matching -/

/-- Whether the fields of a taint agree with those of a source. A taint that
ends early agrees only if everything below is tainted; the whole value agrees
with every source that does not ask for a field. -/
def Taint.agreesWith (t : Taint) (source : Endpoint) : Bool :=
  if t.path.isEmpty then source.kind != .field || t.subFields
  else if t.path.length < source.path.length && !t.subFields then false
  else (t.path.zip source.path).all fun (a, b) => a.field == b.field

/-- Whether a taint stands where a source does, types and boundaries aside. -/
def Taint.standsAt (t : Taint) (source : Endpoint) : Bool :=
  match source.kind with
  | .parameter => t.role == .parameter source.index && t.agreesWith source
  | .field => (t.role == .field || t.role == .gapBase) && t.agreesWith source
  | .receiver => t.role == .field
  | .returned =>
    match source.gap with
    | some _ => t.gap.isSome && t.agreesWith source
    | none => t.gap.isNone && t.role == .returned && t.agreesWith source
  | .gapBase => false

/-! ## Moving -/

/-- The fields of a taint behind those of a source. -/
def Taint.residual (t : Taint) (source : Endpoint) : List FieldStep :=
  t.path.drop source.path.length

/-- The static type of what a source takes from a taint: that of the taint at
the end of the source's path, or the source's own where the taint ends early. -/
def Taint.typeTaken (t : Taint) (source : Endpoint) : JavaType :=
  if t.path.length < source.path.length then JavaType.parse source.lastType
  else
    match source.path.length with
    | 0 => JavaType.parse (t.typeAt none)
    | n + 1 => JavaType.parse (t.typeAt (some n))

/-- Whether a value of a type fits a sink, or an element of it if the sink is
an array. -/
def Hierarchy.fits (h : Hierarchy) (type : JavaType) (sink : Endpoint) : Bool :=
  let sinkType := JavaType.parse sink.lastType
  h.castCompatible type sinkType || sinkType.elements.any fun e => h.castCompatible type e

/-- The taint that a flow from `source` to `sink` makes of a taint, at the
boundary of the given gap. There is none if the value does not fit the sink. -/
def Hierarchy.sinkTaint? (h : Hierarchy) (source sink : Endpoint) (t : Taint) (gap : Option Gap) :
    Option Taint :=
  if h.fits (t.typeTaken source) sink then
    let residual := t.residual source
    let kind := if sink.kind = .gapBase ∧ residual ≠ [] then .field else sink.kind
    some (.ofKind kind sink.index sink.base (sink.path ++ residual) (sink.subFields || t.subFields)
      gap)
  else none

/-! ## Applying -/

/-- The frame a flow ends in when applied to a propagator, and the gap at whose
boundary the taint is seen there. -/
def Arena.targetFrame (a : Arena) (id : PropagatorId) (p : Propagator) (sink : Endpoint) :
    Frame × Option Gap :=
  match sink.gap with
  | some gap => (⟨some id, some gap, none⟩, none)
  | none => (a.callerFrame p, p.gap)

/-- Applies a flow to a propagator of an arena. The result is not interned. -/
def Hierarchy.applyFlow? (h : Hierarchy) (a : Arena) (flow : Flow) (id : PropagatorId) :
    Option Propagator := do
  let p ← a.get? id
  let compatible :=
    h.castCompatible (JavaType.parse p.taint.base) (JavaType.parse flow.source.base)
  if compatible && p.taint.gap == flow.source.gap && p.taint.standsAt flow.source then
    let (frame, gap) := a.targetFrame id p flow.sink
    let taint ← h.sinkTaint? flow.source flow.sink p.taint gap
    return .inFrame taint frame
  else none

/-- The flow that is followed where a summary states `flow`: the flow itself, or
in search of aliases the reversed flow if it makes aliases of types that can
have them. -/
def Flow.along (flow : Flow) (inverse : Bool) : Option Flow :=
  if inverse then
    if flow.isAlias && (JavaType.parse flow.source.lastType).canAlias &&
        (JavaType.parse flow.sink.lastType).canAlias then
      some flow.reverse
    else none
  else some flow

/-- The flow that a propagator follows where a summary states `flow`. -/
def Propagator.orient (p : Propagator) (flow : Flow) : Option Flow := flow.along p.inverse

end TaintReplay
