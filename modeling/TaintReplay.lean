import TaintReplay.Arena
import TaintReplay.Boundary
import TaintReplay.Endpoint
import TaintReplay.Engine.Callback
import TaintReplay.Engine.Error
import TaintReplay.Engine.Lookup
import TaintReplay.Engine.Query
import TaintReplay.Engine.Resume
import TaintReplay.Engine.Session
import TaintReplay.Engine.Worklist
import TaintReplay.Event
import TaintReplay.Exploration
import TaintReplay.Fact
import TaintReplay.Flow
import TaintReplay.FlowApplication
import TaintReplay.Graph
import TaintReplay.Hierarchy.Assignability
import TaintReplay.Hierarchy.Basic
import TaintReplay.Hierarchy.Walk
import TaintReplay.JavaType
import TaintReplay.Json
import TaintReplay.Memo
import TaintReplay.MultiMap
import TaintReplay.Numbering
import TaintReplay.Options
import TaintReplay.OrdMap
import TaintReplay.OrdSet
import TaintReplay.Place
import TaintReplay.Program.Basic
import TaintReplay.Program.Bodies
import TaintReplay.Program.Ids
import TaintReplay.Program.Stmt
import TaintReplay.Propagator
import TaintReplay.Queue
import TaintReplay.Signature.Error
import TaintReplay.Signature.Field
import TaintReplay.Signature.Method
import TaintReplay.Solver.Basic
import TaintReplay.Solver.Scripted
import TaintReplay.Summary.ClassSummaries
import TaintReplay.Summary.FlowSet
import TaintReplay.Summary.Record
import TaintReplay.Summary.Store
import TaintReplay.Taint
import TaintReplay.Text.Blank
import TaintReplay.Text.Printable
import TaintReplay.Text.Quoted
import TaintReplay.Text.Scan
import TaintReplay.Proofs.FlowApplication
import TaintReplay.Proofs.Locations
import TaintReplay.Proofs.BuiltPrograms
import TaintReplay.Proofs.Closure
import TaintReplay.Proofs.Exits
import TaintReplay.Proofs.Faults
import TaintReplay.Proofs.LeastFixedPoint
import TaintReplay.Proofs.CallbackAgreement
import TaintReplay.Proofs.StackDiscipline
import TaintReplay.Proofs.Courses
import TaintReplay.Proofs.Histories
import TaintReplay.Proofs.HistoryIndependence
import TaintReplay.Proofs.Episodes
import TaintReplay.Proofs.WaitingStacks
import TaintReplay.Proofs.RecordedRuns
import TaintReplay.Proofs.ReturnSites
import TaintReplay.Proofs.CallbackExits
import TaintReplay.Proofs.Signatures
import TaintReplay.Proofs.SafeReplays
import TaintReplay.Proofs.FittingSummaries
import TaintReplay.Proofs.ReturnedValues
import TaintReplay.Proofs.Rounds
import TaintReplay.Proofs.UnseenChanges
import TaintReplay.Proofs.StepLimits
import TaintReplay.Proofs.ShrinkingFlows
import TaintReplay.Proofs.SubFields
import TaintReplay.Proofs.RecordForms
import TaintReplay.Proofs.SummaryPairs
import TaintReplay.Proofs.Walks
import TaintReplay.Proofs.LinkRelation
import TaintReplay.Proofs.ExclusiveCalls
import TaintReplay.Proofs.CallRoles
import TaintReplay.Proofs.CallStacks
import TaintReplay.Proofs.ArrangedPrograms
import TaintReplay.Proofs.ProgramParts
import TaintReplay.Proofs.MemoHistories
import TaintReplay.Proofs.WrittenForms
import TaintReplay.Proofs.Crossings
import TaintReplay.Proofs.ReversedFlows
import TaintReplay.Proofs.Descents
import TaintReplay.Proofs.ClosedHierarchies
import TaintReplay.Proofs.StoredTypes
import TaintReplay.Proofs.SignatureGrammar
import TaintReplay.Proofs.ReadableSignatures
import TaintReplay.Proofs.FieldGrammar
import TaintReplay.Proofs.TypeTexts
import TaintReplay.Proofs.SupportedClasses
import TaintReplay.Proofs.InternedStacks
import TaintReplay.Proofs.PathOverlap
import TaintReplay.Proofs.CastCompatibility
import TaintReplay.Proofs.Mentions
