import TaintReplay.Summary.MethodSummaries

/-!
# Flows of several classes

A table from class names to the flows summarised for them. A class can be in
the table without any flow; such a class is listed, but the table counts as
empty if it has no others.
-/

namespace TaintReplay

/-- The flows of each of several classes. -/
structure ClassSummaries where
  table : OrdMap String MethodSummaries
deriving DecidableEq

namespace ClassSummaries

/-- The table without classes. -/
def empty : ClassSummaries := ⟨OrdMap.empty⟩

instance : Inhabited ClassSummaries := ⟨empty⟩

/-- Adds a flow to those of a class, which is listed from then on. -/
def addFlow (s : ClassSummaries) (className : String) (flow : Flow) : ClassSummaries :=
  ⟨s.table.alter className fun old => (old.getD MethodSummaries.empty).addFlow flow⟩

/-- Adds flows to those of a class, which is listed from then on. -/
def merge (s : ClassSummaries) (className : String) (flows : MethodSummaries) : ClassSummaries :=
  ⟨s.table.alter className fun old => (old.getD MethodSummaries.empty).merge flows⟩

/-- Adds the flows of another table, class by class. -/
def mergeAll (s t : ClassSummaries) : ClassSummaries :=
  ⟨s.table.alterAll t.table fun old flows => (old.getD MethodSummaries.empty).merge flows⟩

/-- The listed classes. -/
def classes (s : ClassSummaries) : OrdSet String := s.table.keys

/-- The flows of a class, if it is listed. -/
def find? (s : ClassSummaries) (className : String) : Option MethodSummaries :=
  s.table.find? className

/-- All flows, whatever their class. -/
def allFlows (s : ClassSummaries) : FlowSet :=
  FlowSet.unions (s.table.values.map (·.allFlows))

/-- The flows of one method, whatever their class. -/
def allFlowsForMethod (s : ClassSummaries) (subSignature : String) : FlowSet :=
  FlowSet.unions (s.table.values.filterMap (·.flowsForMethod? subSignature))

/-- Number of listed classes. -/
def size (s : ClassSummaries) : Nat := s.table.size

/-- Whether no class has a flow. -/
def isEmpty (s : ClassSummaries) : Bool := s.table.values.all (·.isEmpty)

end ClassSummaries

end TaintReplay
