import TaintReplay.Fact
import TaintReplay.Taint

/-!
# Propagators

A propagator is one unit of work of a replay: a taint, and where in the calls
it is. At the bottom stands the call that is replayed. When a flow enters a
gap, the replay goes on inside the called-back method with a new frame on top;
the propagator is then *in* that gap and its parent is the propagator it
entered from. Only a propagator at the bottom has a call site.

An *inverse* propagator looks for aliases: it follows alias flows from their
sink to their source.
-/

namespace TaintReplay

/-- The number of a propagator in its arena. -/
@[ext]
structure PropagatorId where
  index : Nat
deriving DecidableEq

namespace PropagatorId

instance : Ord PropagatorId := ⟨compareOn index⟩

instance : Std.TransOrd PropagatorId := inferInstanceAs (Std.TransCmp (compareOn _))

instance : Std.LawfulEqOrd PropagatorId := lawfulEqCmp_compareOn PropagatorId.ext

/-- The written form of a number. -/
def render (i : PropagatorId) : String := "#" ++ toString i.index

end PropagatorId

/-- The call a replay is about: the statement, the context of the solver there
and the tainted fact. -/
structure CallSite where
  stmt : StmtId
  context : Fact
  fact : Fact
deriving BEq

namespace CallSite

/-- Ordered by statement, context and fact. -/
def order : CallSite → CallSite → Ordering :=
  compareLex (compareOn stmt) <| compareLex (compareOn context) (compareOn fact)

instance : Ord CallSite := ⟨order⟩

instance : Std.TransOrd CallSite := inferInstanceAs (Std.TransCmp (compareLex _ _))

/-- Call sites are the same if their parts are. -/
theorem beq_iff {a b : CallSite} :
    (a == b) = true ↔
      a.stmt = b.stmt ∧ (a.context == b.context) = true ∧ (a.fact == b.fact) = true := by
  show instBEqCallSite.beq a b = true ↔ _
  cases a
  cases b
  simp [instBEqCallSite.beq]

instance : Std.LawfulBEqOrd CallSite where
  compare_eq_iff_beq {a b} := by
    show order a b = .eq ↔ _
    rw [beq_iff]
    simp [order, compareLex_eq_eq, compareOn, Std.LawfulBEqCmp.compare_eq_iff_beq]

end CallSite

/-- Where a propagator stands: the propagator it entered its gap from, the gap,
and the call at the bottom. -/
structure Frame where
  parent : Option PropagatorId
  gap : Option Gap
  site : Option CallSite
deriving BEq

/-- A taint and where in the calls it is. Facts in the call site are compared
by their paths, as everywhere. -/
structure Propagator where
  taint : Taint
  gap : Option Gap
  parent : Option PropagatorId
  site : Option CallSite
  /-- Follows alias flows backwards. -/
  inverse : Bool
deriving BEq

namespace Propagator

/-- Ordered by what tells propagators of one replay apart at a glance, then by
the rest. -/
def order : Propagator → Propagator → Ordering :=
  compareLex (compareOn parent) <| compareLex (compareOn inverse) <|
    compareLex (compareOn fun p => p.taint.path.length) <| compareLex (compareOn taint) <|
      compareLex (compareOn gap) (compareOn site)

instance : Ord Propagator := ⟨order⟩

instance : Std.TransOrd Propagator := inferInstanceAs (Std.TransCmp (compareLex _ _))

/-- Propagators are the same if their parts are. -/
theorem beq_iff {a b : Propagator} :
    (a == b) = true ↔
      a.taint = b.taint ∧ a.gap = b.gap ∧ a.parent = b.parent ∧ (a.site == b.site) = true ∧
        a.inverse = b.inverse := by
  show instBEqPropagator.beq a b = true ↔ _
  cases a
  cases b
  simp [instBEqPropagator.beq]

instance : Std.LawfulBEqOrd Propagator where
  compare_eq_iff_beq {a b} := by
    show order a b = .eq ↔ _
    rw [beq_iff]
    simp only [order, compareLex_eq_eq, compareOn, Std.LawfulBEqCmp.compare_eq_iff_beq,
      beq_iff_eq]
    constructor
    · rintro ⟨hParent, hInverse, -, hTaint, hGap, hSite⟩
      exact ⟨hTaint, hGap, hParent, hSite, hInverse⟩
    · rintro ⟨hTaint, hGap, hParent, hSite, hInverse⟩
      exact ⟨hParent, hInverse, by rw [hTaint], hTaint, hGap, hSite⟩

/-- A taint at the call that is replayed. -/
def root (taint : Taint) (site : CallSite) (inverse : Bool) : Propagator :=
  ⟨taint, none, none, some site, inverse⟩

/-- A taint in a frame. -/
def inFrame (taint : Taint) (frame : Frame) : Propagator :=
  ⟨taint, frame.gap, frame.parent, frame.site, false⟩

/-- The same taint, looking for aliases. -/
def toInverse (p : Propagator) : Propagator := { p with inverse := true }

/-- Whether the taint lies in an object and may have aliases there. -/
def isHeapTaint (p : Propagator) : Bool := !p.taint.path.isEmpty

/-- The written form of a propagator. -/
def render (p : Propagator) : String :=
  (if p.inverse then "inverse " else "") ++ "propagator [" ++ p.taint.render ++ "]" ++
    ((p.gap.map fun g => " in " ++ g.render).getD "") ++
    ((p.parent.map fun i => " parent " ++ i.render).getD "") ++
    ((p.site.map fun site => " at " ++ site.stmt.render).getD "")

end Propagator

end TaintReplay
