import TaintReplay.Engine.Session

/-!
# Looking up summaries

At a call the code that runs is that of the run-time class of the receiver, so
the summaries of all classes it may have are used. The classes declared by the
targets known for the call are tried first, then the static type of the
receiver; a call without receiver is looked up in the class its signature
names.

The method of a gap is looked up in the classes below the one that declares it
if the program has that method, and otherwise by its signature alone.
-/

namespace TaintReplay

/-- The methods that may run when a method is called: those with its
sub-signature in its class and below. -/
def Program.implementors (p : Program) (h : Hierarchy) (m : Method) : OrdSet MethodId :=
  OrdSet.ofList
    ((h.descendants m.className).filterMap fun cls => p.findMethodInClass? cls m.subSignature)

/-- The classes whose code may run at a call, by the targets known for it. -/
def Program.targetClasses (p : Program) (h : Hierarchy) (s : StmtId) : OrdSet String :=
  let methods := (p.callees s).filterMap p.method?
  (methods.map fun m => h.instanceClasses m.className).foldl OrdSet.union OrdSet.empty

/-- The class whose code runs at a call, by the static type of the receiver or
else by the signature called. -/
def Program.staticClass (p : Program) (s : Option StmtId) (callee : MethodSignature) : String :=
  let receiver := (s.bind p.call?).bind (·.receiver)
  ((receiver.bind p.local?).bind fun decl => decl.type.className?).getD callee.className

namespace Engine

variable {σ : Type}

/-- Looks a method up in several classes, once. -/
def lookup (e : EngineId) (classes : OrdSet String) (subSignature : String) :
    Run σ ClassSummaries := do
  let engine := (← get).engine e
  let key : LookupKey := ⟨classes, subSignature⟩
  Run.reportIf (engine.memo.get? key).isNone (.lookedUp subSignature classes.size)
  let (memo, found) :=
    engine.memo.compute key fun memo => (memo, some (engine.store.methodFlows classes subSignature))
  Run.modifyEngine e fun engine => { engine with memo }
  return found.getD ClassSummaries.empty

/-- Looks a method up in the classes that the targets known for a call declare.
There is nothing to be found if there are none. -/
def lookupTargets (e : EngineId) (targets : OrdSet String) (subSignature : String) :
    Run σ ClassSummaries :=
  if targets.isEmpty then return ClassSummaries.empty else lookup e targets subSignature

/-- The summaries that apply when a method is called, at a statement if one is
given. -/
def summariesFor (e : EngineId) (s : Option StmtId) (callee : MethodSignature) :
    Run σ ClassSummaries := do
  let session ← get
  let program := session.program
  let hierarchy := session.hierarchy
  let sub := callee.subSignature
  let targets := (s.map fun s => program.targetClasses hierarchy s).getD OrdSet.empty
  let found ← lookupTargets e targets sub
  if found.isEmpty then lookup e (hierarchy.instanceClasses (program.staticClass s callee)) sub
  else return found

/-- The flows of the method called in a gap, if the program has that method. -/
def flowsForMethod (e : EngineId) (m : Option Method) : Run σ FlowSet :=
  match m with
  | some m => (·.allFlows) <$> summariesFor e none m.signature
  | none => return OrdSet.empty

/-- The flows of the method called in a gap. -/
def flowsForGap (e : EngineId) (g : Gap) : Run σ FlowSet := do
  let session ← get
  let method := (session.program.findMethod? g.signature).bind session.program.method?
  let flows ← flowsForMethod e method
  if flows.isEmpty then
    match (session.engine e).store.flowsForSignature g.signature with
    | .ok flows => return flows
    | .error err =>
      Run.report (.lookupFailed g err)
      return OrdSet.empty
  else return flows

end Engine

end TaintReplay
