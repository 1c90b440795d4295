import TaintReplay.Engine.Query

/-!
# A scripted solver

A solver that does no analysis of its own and behaves as it was told. It keeps
the edges it was given, answers questions about exits from a table, and reports
exits at once where the script says so: for a start statement with an *eager*
exit, a seed given there is reported at that exit unchanged.

Each pair of statement and seed is reported once, and no more than
`Scripted.reportLimit` pairs in all. A report made while another is being
answered has a pair of its own, so the limit also bounds how deeply reports
nest.
-/

namespace TaintReplay

/-- The script of the solver and what has happened so far. -/
structure Scripted where
  /-- The edges taken, the latest first. -/
  taken : List PathEdge
  /-- The exits known for methods, whatever the seed. -/
  exits : OrdMap MethodId (List Exit)
  /-- The exit reported at once for a start statement. -/
  eager : OrdMap StmtId StmtId
  /-- The pairs of statement and seed that were reported. -/
  reported : List (StmtId × AccessPath)
  /-- The errors of reports, the latest first. -/
  rejected : List AnalysisError

namespace Scripted

/-- The solver without a script. -/
def empty : Scripted := ⟨[], OrdMap.empty, OrdMap.empty, [], []⟩

instance : Inhabited Scripted := ⟨empty⟩

/-- The largest number of exits reported at once. -/
def reportLimit : Nat := 50

/-- The edges taken, the first first. -/
def edges (s : Scripted) : List PathEdge := s.taken.reverse

/-- The errors of reports, the first first. -/
def errors (s : Scripted) : List AnalysisError := s.rejected.reverse

/-- Tells the exits of a method. -/
def setExits (s : Scripted) (m : MethodId) (exits : List Exit) : Scripted :=
  { s with exits := s.exits.insert m exits }

/-- Tells the exit to report at once for a start statement. -/
def setEager (s : Scripted) (start exit : StmtId) : Scripted :=
  { s with eager := s.eager.insert start exit }

/-- Takes an edge. A seed at a statement with an eager exit is reported there,
unless it was before or the limit is reached. -/
def accept (s : Scripted) (edge : PathEdge) : Scripted × List ExitReport :=
  let s := { s with taken := edge :: s.taken }
  let pair := (edge.target, edge.fact.path)
  match s.eager.find? edge.target with
  | none => (s, [])
  | some exit =>
    if edge.context == edge.fact && !s.reported.contains pair && s.reported.length < reportLimit then
      ({ s with reported := pair :: s.reported }, [⟨edge.fact, exit, edge.fact⟩])
    else (s, [])

/-- The scripted solver. -/
def solver : Solver Scripted where
  endSummary s m _ := s.exits.find? m
  accept := accept
  reject s e := { s with rejected := e :: s.rejected }

/-- The scripted solver as an engine sees it. -/
def host (fuel : Nat) : Host Scripted := Engine.host solver fuel reportLimit

end Scripted

end TaintReplay
