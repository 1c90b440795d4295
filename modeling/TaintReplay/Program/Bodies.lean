import TaintReplay.Program.Basic

/-!
# Method bodies

The body of a method is loaded when the analysis first needs it. Which bodies
are loaded is kept apart from the program, which the analysis never changes,
together with the number of loads and of announced changes.
-/

namespace TaintReplay

/-- The loaded bodies and the counters of loads and changes. -/
structure Bodies where
  active : OrdSet MethodId
  loads : Nat
  changes : Nat
deriving DecidableEq

namespace Bodies

/-- No body is loaded. -/
def empty : Bodies := ⟨OrdSet.empty, 0, 0⟩

instance : Inhabited Bodies := ⟨empty⟩

/-- Whether the body of a method is loaded. -/
def isActive (b : Bodies) (m : MethodId) : Bool := decide (m ∈ b.active)

/-- Loads a body. An abstract method has none. -/
def load (b : Bodies) (m : Method) : Except ProgramError Bodies :=
  if m.isAbstract then .error (.noCode m.signature)
  else .ok { b with active := b.active.insert m.id, loads := b.loads + 1 }

/-- Announces that a method has changed. -/
def announceChange (b : Bodies) : Bodies := { b with changes := b.changes + 1 }

end Bodies

end TaintReplay
