import TaintReplay.Program.Ids
import TaintReplay.Signature.Method
import TaintReplay.Text.Quoted

/-!
# Statements

Only what matters at method boundaries is kept of a statement: calls with their
receiver, arguments and result, returns with the value returned, and nothing of
any other statement.
-/

namespace TaintReplay

/-- What can be passed or returned: a local or a constant. -/
inductive Value where
  | ofLocal (l : LocalId)
  | constant (text : String)
deriving DecidableEq

namespace Value

/-- The local that is passed, unless it is a constant. -/
def local? : Value → Option LocalId
  | ofLocal l => some l
  | constant _ => none

/-- The written form of a value. -/
def render : Value → String
  | ofLocal l => l.render
  | constant text => Text.quote text

end Value

/-- A call: the method named, the receiver of an instance call, the arguments. -/
structure Call where
  callee : MethodSignature
  receiver : Option LocalId
  arguments : List Value
deriving DecidableEq

/-- The written form of a call. -/
def Call.render (c : Call) : String :=
  ((c.receiver.map fun l => l.render ++ ".").getD "") ++ c.callee.render ++ "(" ++
    ", ".intercalate (c.arguments.map Value.render) ++ ")"

/-- What a statement does. -/
inductive Action where
  | invoke (result : Option LocalId) (call : Call)
  | ret (value : Option Value)
  | nop
deriving DecidableEq

/-- A statement and the method it belongs to. -/
structure Stmt where
  id : StmtId
  method : MethodId
  action : Action
deriving DecidableEq

namespace Stmt

/-- The call a statement makes. -/
def call? (s : Stmt) : Option Call :=
  match s.action with
  | .invoke _ call => some call
  | _ => none

/-- The local that takes the result of a call. -/
def result? (s : Stmt) : Option LocalId :=
  match s.action with
  | .invoke result _ => result
  | _ => none

/-- The value a statement returns. -/
def returned? (s : Stmt) : Option Value :=
  match s.action with
  | .ret value => value
  | _ => none

/-- The written form of a statement. -/
def render (s : Stmt) : String :=
  s.id.render ++ ": " ++
    match s.action with
    | .invoke (some result) call => result.render ++ " = " ++ call.render
    | .invoke none call => call.render
    | .ret (some value) => "return " ++ value.render
    | .ret none => "return"
    | .nop => "nop"

end Stmt

end TaintReplay
