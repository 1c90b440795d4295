import TaintReplay.Signature.Method
import TaintReplay.Summary.ClassSummaries
import TaintReplay.Summary.Record

/-!
# The store of summaries

All the summaries an analysis can use, kept in memory. Two lists of classes
belong to it: the classes that have an entry, which are *supported*, and those
declared to be *loadable*, of which only the ones without an entry are listed
as such.

A store is filled from records. A flow whose method is blank says nothing about
any method and makes the whole list of records unusable.
-/

namespace TaintReplay

/-- Why records cannot be used: a flow of a class names no method. -/
inductive RecordError where
  | missingMethod (className : String) (flow : Flow)
deriving DecidableEq

/-- The report of unusable records. -/
def RecordError.message : RecordError → String
  | missingMethod className flow =>
    "flow for " ++ flow.render ++ " is attached to class " ++ className ++
      " but declares no sub-signature"

/-- The summaries known to an analysis. -/
structure SummaryStore where
  summaries : ClassSummaries
  declared : OrdSet String
deriving DecidableEq

namespace SummaryStore

/-- The store without summaries. -/
def empty : SummaryStore := ⟨ClassSummaries.empty, OrdSet.empty⟩

instance : Inhabited SummaryStore := ⟨empty⟩

/-! ## Filling -/

/-- Adds flows to those of a class. -/
def addClass (s : SummaryStore) (className : String) (flows : MethodSummaries) : SummaryStore :=
  { s with summaries := s.summaries.merge className flows }

/-- Adds a flow to those of a class. -/
def addFlow (s : SummaryStore) (className : String) (flow : Flow) : SummaryStore :=
  { s with summaries := s.summaries.addFlow className flow }

/-- Declares a class to be loadable. -/
def declare (s : SummaryStore) (className : String) : SummaryStore :=
  { s with declared := s.declared.insert className }

/-- Adds everything another store has. -/
def merge (s t : SummaryStore) : SummaryStore :=
  ⟨s.summaries.mergeAll t.summaries, s.declared.union t.declared⟩

/-- Adds the flows of a record and declares its class. -/
def addRecord (s : SummaryStore) (r : Record) : Except RecordError SummaryStore := do
  let s ← r.flows.foldlM
    (fun s flow =>
      if Text.isBlankText flow.method then .error (.missingMethod r.className flow)
      else .ok (s.addFlow r.className flow)) s
  return s.declare r.className

/-- The store of a list of records. -/
def ofRecords (records : List Record) : Except RecordError SummaryStore :=
  records.foldlM addRecord empty

/-! ## Queries -/

/-- The flows of a method in a class, looked up. -/
def classMethodFlows (s : SummaryStore) (className subSignature : String) : FlowSet :=
  ((s.summaries.find? className).bind (·.flowsForMethod? subSignature)).getD OrdSet.empty

/-- What is left of the flows of a class if all but those of a method are left
out, unless that is nothing. -/
def filtered? (s : SummaryStore) (className subSignature : String) : Option MethodSummaries :=
  ((s.summaries.find? className).map (·.filterMethod subSignature)).filter fun left => !left.isEmpty

/-- The flows of a method in each of several classes, without the classes that
have none. -/
def methodFlows (s : SummaryStore) (classes : OrdSet String) (subSignature : String) :
    ClassSummaries :=
  classes.toList.foldl
    (fun found className => (s.filtered? className subSignature).elim found (found.merge className))
    ClassSummaries.empty

/-- The flows of a method given by its signature. -/
def flowsForSignature (s : SummaryStore) (signature : String) : Except SignatureError FlowSet := do
  let m ← MethodSignature.parse signature
  return s.classMethodFlows m.className m.subSignature

/-- Whether a class has an entry. -/
def supports (s : SummaryStore) (className : String) : Bool := s.summaries.table.contains className

/-- The classes with an entry. -/
def supportedClasses (s : SummaryStore) : OrdSet String := s.summaries.classes

/-- The classes declared to be loadable that have no entry. -/
def loadableClasses (s : SummaryStore) : OrdSet String := s.declared.filter fun c => !s.supports c

end SummaryStore

end TaintReplay
