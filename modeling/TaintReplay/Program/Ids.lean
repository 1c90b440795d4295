import TaintReplay.OrdSet

/-!
# Names of program parts

Methods, statements and locals are named by the order in which they were
created, counted from one in the whole program.
-/

namespace TaintReplay

/-- A method of the program. -/
@[ext]
structure MethodId where
  number : Nat
deriving DecidableEq

namespace MethodId

instance : Ord MethodId := ⟨compareOn number⟩

instance : Std.TransOrd MethodId := inferInstanceAs (Std.TransCmp (compareOn _))

instance : Std.LawfulEqOrd MethodId := lawfulEqCmp_compareOn MethodId.ext

/-- The written form of a name. -/
def render (i : MethodId) : String := "m" ++ toString i.number

instance : ToString MethodId := ⟨render⟩

end MethodId

/-- A statement of the program. -/
@[ext]
structure StmtId where
  number : Nat
deriving DecidableEq

namespace StmtId

instance : Ord StmtId := ⟨compareOn number⟩

instance : Std.TransOrd StmtId := inferInstanceAs (Std.TransCmp (compareOn _))

instance : Std.LawfulEqOrd StmtId := lawfulEqCmp_compareOn StmtId.ext

/-- The written form of a name. -/
def render (i : StmtId) : String := "s" ++ toString i.number

instance : ToString StmtId := ⟨render⟩

end StmtId

/-- A local of the program. -/
@[ext]
structure LocalId where
  number : Nat
deriving DecidableEq

namespace LocalId

instance : Ord LocalId := ⟨compareOn number⟩

instance : Std.TransOrd LocalId := inferInstanceAs (Std.TransCmp (compareOn _))

instance : Std.LawfulEqOrd LocalId := lawfulEqCmp_compareOn LocalId.ext

/-- The written form of a name. -/
def render (i : LocalId) : String := "$l" ++ toString i.number

instance : ToString LocalId := ⟨render⟩

end LocalId

end TaintReplay
