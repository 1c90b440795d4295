import TaintReplay.JavaType
import TaintReplay.OrdMap
import TaintReplay.Program.Stmt

/-!
# Programs

A program is what the analysis sees of the analysed code: its methods with
their statements in order, its locals, and the targets of calls where these are
known better than from the signature called. Parts are created one by one and
nothing is removed. A part is named by its number, which is taken from a count of
the parts of its kind. An attempt that is refused (an unreadable or repeated
signature, a statement for an abstract method) ends in an error, and the program
is handed back with it.

Methods are found by the written form of their signature, in an index. Since only
signatures that were read are stored, that form determines the method.

The counts and the index say again what the lists of parts say. `Program` carries
the proofs that they agree with the lists, so every operation has to advance them
together.

## Main results

* `Program.findText?_eq`: what is found in the index is what a search of the methods finds.
-/

namespace TaintReplay

/-- A method of the program. -/
structure Method where
  id : MethodId
  signature : MethodSignature
  isStatic : Bool
  isAbstract : Bool
  /-- The local holding the receiver, unless the method is static. -/
  receiver : Option LocalId
  /-- The locals holding the parameters. -/
  parameters : List LocalId
  /-- The statements, in order. -/
  stmts : List StmtId
deriving DecidableEq

namespace Method

/-- The class declaring the method. -/
def className (m : Method) : String := m.signature.className

/-- The name of the method in its class. -/
def subSignature (m : Method) : String := m.signature.subSignature

/-- The written form of a method. -/
def render (m : Method) : String := m.signature.render

/-- The position of the parameter held by a local. -/
def parameterIndex? (m : Method) (l : LocalId) : Option Nat := m.parameters.idxOf? l

/-- A method after a statement was appended to the one of some number. -/
def withStmt (m : Method) (id : MethodId) (s : StmtId) : Method :=
  if m.id = id then { m with stmts := m.stmts ++ [s] } else m

theorem id_withStmt (m : Method) (id : MethodId) (s : StmtId) : (m.withStmt id s).id = m.id := by
  unfold withStmt
  split <;> rfl

theorem signature_withStmt (m : Method) (id : MethodId) (s : StmtId) :
    (m.withStmt id s).signature = m.signature := by
  unfold withStmt
  split <;> rfl

end Method

/-- The declaration of a local. -/
structure LocalDecl where
  name : String
  type : JavaType
  method : MethodId
deriving DecidableEq

/-- Why a part of the program cannot be created or has no body. -/
inductive ProgramError where
  | badSignature (e : SignatureError)
  | duplicateMethod (signature : MethodSignature)
  | noCode (signature : MethodSignature)
deriving DecidableEq

/-- The report of a refused creation. -/
def ProgramError.message : ProgramError → String
  | badSignature e => "summary error: " ++ e.message
  | duplicateMethod signature =>
    "internal error: method " ++ signature.render ++ " has already been added to the program"
  | noCode signature => "method " ++ signature.render ++ " has no body"

/-- How many parts of each kind there are. -/
structure Counts where
  methods : Nat
  stmts : Nat
  locals : Nat
deriving DecidableEq

/-- The analysed code. -/
structure Program where
  methods : List Method
  stmts : List Stmt
  locals : List LocalDecl
  /-- The numbers that were given last. -/
  counts : Counts
  /-- The methods by the written forms of their signatures. -/
  signatures : OrdMap String MethodId
  /-- Call targets known better than from the signature called. -/
  callTargets : OrdMap StmtId (OrdSet MethodId)
  /-- All parts are counted. -/
  counted : counts = ⟨methods.length, stmts.length, locals.length⟩
  /-- In the index there is the first method that is written like a text. -/
  indexed : ∀ text,
    signatures.find? text = (methods.find? fun m => m.signature.render == text).map (·.id)
deriving DecidableEq

namespace Program

/-- The program without methods. -/
def empty : Program where
  methods := []
  stmts := []
  locals := []
  counts := ⟨0, 0, 0⟩
  signatures := OrdMap.empty
  callTargets := OrdMap.empty
  counted := rfl
  indexed _ := rfl

instance : Inhabited Program := ⟨empty⟩

/-! ## Parts by name -/

/-- The item of a list with a number counted from one. -/
def nth? {α : Type} (items : List α) : Nat → Option α
  | 0 => none
  | n + 1 => items[n]?

/-- The method of a name. -/
def method? (p : Program) (m : MethodId) : Option Method := nth? p.methods m.number

/-- The statement of a name. -/
def stmt? (p : Program) (s : StmtId) : Option Stmt := nth? p.stmts s.number

/-- The declaration of a local. -/
def local? (p : Program) (l : LocalId) : Option LocalDecl := nth? p.locals l.number

/-- The method a statement belongs to. -/
def methodOf? (p : Program) (s : StmtId) : Option Method :=
  (p.stmt? s).bind fun stmt => p.method? stmt.method

/-- The call a statement makes. -/
def call? (p : Program) (s : StmtId) : Option Call := (p.stmt? s).bind Stmt.call?

/-- The method whose signature has a written form. -/
def findText? (p : Program) (text : String) : Option MethodId := p.signatures.find? text

/-- The index finds what a search of the methods finds. -/
theorem findText?_eq (p : Program) (text : String) :
    p.findText? text = (p.methods.find? fun m => m.signature.render == text).map (·.id) :=
  p.indexed text

/-! ## Parts with the next numbers -/

/-- Declares a local. -/
def declare (p : Program) (d : LocalDecl) : LocalId × Program :=
  (⟨p.counts.locals + 1⟩,
    { p with
      locals := p.locals ++ [d]
      counts := { p.counts with locals := p.counts.locals + 1 }
      counted := by simp [p.counted] })

/-- Declares locals one after the other. -/
def declareAll : Program → List LocalDecl → List LocalId × Program
  | p, [] => ([], p)
  | p, d :: ds =>
    let rest := (p.declare d).2.declareAll ds
    ((p.declare d).1 :: rest.1, rest.2)

theorem signatures_declareAll (p : Program) (ds : List LocalDecl) :
    (p.declareAll ds).2.signatures = p.signatures := by
  induction ds generalizing p with
  | nil => rfl
  | cons d ds ih => exact ih (p.declare d).2

/-- The number of the next method. -/
def nextMethodId (p : Program) : MethodId := ⟨p.counts.methods + 1⟩

/-- The receiver of a method, as it is declared. -/
def receiverDecls (id : MethodId) (signature : MethodSignature) (isStatic : Bool) : List LocalDecl :=
  if isStatic then [] else [⟨"this", .class signature.className, id⟩]

/-- The parameters of a method, as they are declared. -/
def parameterDecls (id : MethodId) (signature : MethodSignature) : List LocalDecl :=
  signature.parameters.mapIdx fun i type => ⟨"p" ++ toString i, JavaType.parse type, id⟩

/-- The next method, and the program with the locals it comes with. -/
def nextMethod (p : Program) (signature : MethodSignature) (isStatic isAbstract : Bool) :
    Method × Program :=
  let receiver := p.declareAll (receiverDecls p.nextMethodId signature isStatic)
  let parameters := receiver.2.declareAll (parameterDecls p.nextMethodId signature)
  (⟨p.nextMethodId, signature, isStatic, isAbstract, receiver.1.head?, parameters.1, []⟩,
    parameters.2)

/-- Adds a method, under a signature that no other is written like. -/
def pushMethod (p : Program) (m : Method) (new : p.findText? m.signature.render = none) : Program :=
  { p with
    methods := p.methods ++ [m]
    counts := { p.counts with methods := p.counts.methods + 1 }
    signatures := p.signatures.insert m.signature.render m.id
    counted := by simp [p.counted]
    indexed := fun text => by
      rw [findText?_eq, Option.map_eq_none_iff] at new
      rw [List.find?_append]
      by_cases htext : text = m.signature.render
      · subst htext
        rw [OrdMap.find?_insert_self, new]
        simp
      · have hother : (m.signature.render == text) = false := beq_eq_false_iff_ne.2 (Ne.symm htext)
        rw [OrdMap.find?_insert_of_ne htext, p.indexed]
        simp [hother] }

/-- Adds the next method. -/
def createMethod (p : Program) (signature : MethodSignature) (isStatic isAbstract : Bool)
    (new : p.findText? signature.render = none) : Program :=
  (p.nextMethod signature isStatic isAbstract).2.pushMethod
    (p.nextMethod signature isStatic isAbstract).1 (by
      rw [findText?, nextMethod, signatures_declareAll, signatures_declareAll]
      exact new)

/-- The number of the next statement. -/
def nextStmtId (p : Program) : StmtId := ⟨p.counts.stmts + 1⟩

/-- Appends a statement to the method of some number. -/
def pushStmt (p : Program) (m : MethodId) (action : Action) : Program :=
  { p with
    stmts := p.stmts ++ [⟨p.nextStmtId, m, action⟩]
    methods := p.methods.map (·.withStmt m p.nextStmtId)
    counts := { p.counts with stmts := p.counts.stmts + 1 }
    counted := by simp [p.counted]
    indexed := fun text => by
      rw [p.indexed, List.find?_map, Option.map_map]
      simp only [Function.comp_def, Method.signature_withStmt, Method.id_withStmt] }

/-! ## Building -/

/-- Adds a method with its receiver and parameter locals. -/
def addMethod (p : Program) (text : String) (isStatic isAbstract : Bool) :
    Except ProgramError MethodId × Program :=
  match MethodSignature.parse text with
  | .error e => (.error (.badSignature e), p)
  | .ok signature =>
    if new : p.findText? signature.render = none then
      (.ok p.nextMethodId, p.createMethod signature isStatic isAbstract new)
    else (.error (.duplicateMethod signature), p)

/-- Declares a local of a method. -/
def addLocal (p : Program) (m : MethodId) (name type : String) : LocalId × Program :=
  p.declare ⟨name, JavaType.parse type, m⟩

/-- Appends a statement to a method of the program. An abstract method has no
statements. -/
def addStmt (p : Program) (m : Method) (action : Action) : Except ProgramError StmtId × Program :=
  if m.isAbstract then (.error (.noCode m.signature), p)
  else (.ok p.nextStmtId, p.pushStmt m.id action)

/-- Adds a method to the targets known for a call. -/
def addCallTarget (p : Program) (s : StmtId) (m : MethodId) : Program :=
  { p with callTargets := p.callTargets.alter s fun old => (old.getD OrdSet.empty).insert m }

/-! ## Control flow -/

/-- The statements that can follow a statement. -/
def successors (p : Program) (s : StmtId) : List StmtId :=
  match p.methodOf? s with
  | none => []
  | some m => ((m.stmts.idxOf? s).bind fun i => m.stmts[i + 1]?).toList

/-- The statements a method starts with. -/
def startPoints (p : Program) (m : MethodId) : List StmtId :=
  ((p.method? m).bind fun method => method.stmts.head?).toList

/-- The targets of a call: those known for the statement, or else the method of
the signature called. -/
def callees (p : Program) (s : StmtId) : List MethodId :=
  match p.callTargets.find? s with
  | some targets => targets.toList
  | none => ((p.call? s).bind fun call => p.findText? call.callee.render).toList

/-- The method of a signature, given as a text. -/
def findMethod? (p : Program) (text : String) : Option MethodId :=
  match MethodSignature.parse text with
  | .ok signature => p.findText? signature.render
  | .error _ => none

/-- The method of a class with a sub-signature. -/
def findMethodInClass? (p : Program) (className subSignature : String) : Option MethodId :=
  p.findText? ("<" ++ className ++ ": " ++ subSignature ++ ">")

end Program

end TaintReplay
