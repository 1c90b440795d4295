import TaintReplay.Engine.Error
import TaintReplay.Fact

/-!
# Crossing method boundaries

Outside a method the solver speaks of access paths that start at a local;
summaries speak of places at the boundary. At a call the locals are the
receiver, the arguments and the local for the result; inside a method they are
the receiver and parameter locals, and at a return the local returned.

Both directions are here: the taints an access path gives rise to at a call or
at an exit, and the access path a taint stands for at a call or at the start of
a method. A taint may stand for nothing at a call (the result is dropped, the
argument is a constant); if the call has no such place at all, the summary does
not fit the call and that is an error.

A path taken into a method is tainted with everything below it.
-/

namespace TaintReplay

/-! ## From access paths to taints -/

/-- The taint in the given role that an access path stands for. -/
def AccessPath.toTaint (path : AccessPath) (role : TaintRole) (gap : Option Gap) : Taint :=
  ⟨role, path.baseType.render,
    path.fields.map fun f => ⟨f.field.render, f.type.render⟩, path.subFields, gap⟩

/-- The roles of a local at a call. A local passed several times counts as the
first of these arguments. The result counts only if asked for. -/
def Stmt.rolesOnCall (s : Stmt) (l : LocalId) (withResult : Bool) : List TaintRole :=
  match s.call? with
  | none => []
  | some call =>
    (if call.receiver = some l then [.field] else []) ++
      ((call.arguments.idxOf? (.ofLocal l)).map fun i => .parameter (some i)).toList ++
      (if withResult ∧ s.result? = some l then [.returned] else [])

/-- The taints that an access path is to the method called by a statement. -/
def Program.taintsOnCall (p : Program) (path : AccessPath) (s : StmtId) (withResult : Bool) :
    OrdSet Taint :=
  match p.stmt? s with
  | none => OrdSet.empty
  | some stmt =>
    OrdSet.ofList ((stmt.rolesOnCall path.base withResult).map fun role => path.toTaint role none)

/-- The roles of a local at an exit of its method. -/
def Method.rolesOnReturn (m : Method) (s : Stmt) (l : LocalId) : List TaintRole :=
  (if m.receiver = some l then [.field] else []) ++
    ((m.parameterIndex? l).map fun i => .parameter (some i)).toList ++
    (if s.returned?.bind Value.local? = some l then [.returned] else [])

/-- The taints by which an access path leaves a called-back method at an exit,
seen from the gap it was called in. -/
def Program.taintsOnReturn (p : Program) (path : AccessPath) (s : StmtId) (gap : Option Gap) :
    OrdSet Taint :=
  match p.stmt? s, p.methodOf? s with
  | some stmt, some m =>
    OrdSet.ofList ((m.rolesOnReturn stmt path.base).map fun role => path.toTaint role gap)
  | _, _ => OrdSet.empty

/-! ## From taints to access paths -/

/-- The fields read so far, and the error that ended the reading. -/
structure FieldChain where
  fields : List PathField
  error : Option SignatureError

/-- Reads the field signatures of a path up to the first that is unreadable. -/
def readFields : List FieldStep → FieldChain
  | [] => ⟨[], none⟩
  | step :: steps =>
    match FieldSignature.parse step.field with
    | .error e => ⟨[], some e⟩
    | .ok field =>
      let rest := readFields steps
      ⟨⟨field, JavaType.parse step.type⟩ :: rest.fields, rest.error⟩

/-- The classes that declare the fields read. -/
def FieldChain.classes (c : FieldChain) : List String := c.fields.map (·.field.className)

/-- The local that a taint stands for at a call. -/
def Stmt.localOnCall (s : Stmt) (t : Taint) : Except AnalysisError (Option LocalId) :=
  match s.call? with
  | none => .error (.notACall s.id)
  | some call =>
    match t.role with
    | .returned => .ok s.result?
    | .parameter index =>
      match index.bind fun i => call.arguments[i]? with
      | some argument => .ok argument.local?
      | none => .error (.noSuchPlace t s.render)
    | .field | .gapBase =>
      match call.receiver with
      | some l => .ok (some l)
      | none => .error (.noSuchPlace t s.render)

/-- The local that a taint stands for inside a method. -/
def Method.localInside (m : Method) (t : Taint) : Except AnalysisError LocalId :=
  match t.role with
  | .returned => .error (.returnIntoMethod t)
  | .parameter index =>
    match index.bind fun i => m.parameters[i]? with
    | some l => .ok l
    | none => .error (.noSuchPlace t m.render)
  | .field | .gapBase =>
    match m.receiver with
    | some l => .ok l
    | none => .error (.noSuchPlace t m.render)

/-- The access path of a taint, given its local and its fields. -/
def Taint.toPath (t : Taint) (base : LocalId) (fields : List PathField) (subFields : Bool) :
    AccessPath :=
  ⟨base, JavaType.parse t.base, fields, subFields⟩

end TaintReplay
