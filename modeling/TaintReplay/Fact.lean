import TaintReplay.JavaType
import TaintReplay.Program.Ids
import TaintReplay.Signature.Field

/-!
# Access paths, facts and edges

The solver reasons about *facts*: an access path is tainted at a statement. An
access path names a local, the type it is seen at, and a chain of fields, and
says whether everything below is tainted too.

A fact remembers the statement at which it was last derived. The statement is
a note for reports and takes no part in comparisons: two facts with the same
path are the same fact. Putting a fact into a set keeps the one already there.
-/

namespace TaintReplay

/-- One field of an access path and the type of what it holds. -/
structure PathField where
  field : FieldSignature
  type : JavaType
deriving DecidableEq

namespace PathField

/-- Ordered by field, then by type. -/
def order : PathField → PathField → Ordering := compareLex (compareOn field) (compareOn type)

instance : Ord PathField := ⟨order⟩

instance : Std.TransOrd PathField := inferInstanceAs (Std.TransCmp (compareLex _ _))

instance : Std.LawfulEqOrd PathField where
  compare_self := Std.ReflCmp.compare_self
  eq_of_compare {a b} h := by
    replace h : order a b = .eq := h
    simp only [order, compareLex_eq_eq, compareOn, Std.LawfulEqOrd.compare_eq_iff_eq] at h
    cases a
    cases b
    simp_all

end PathField

/-- A local, seen at a type, and a chain of fields below it. -/
structure AccessPath where
  base : LocalId
  baseType : JavaType
  fields : List PathField
  /-- Everything below the last field is tainted too. -/
  subFields : Bool
deriving DecidableEq

namespace AccessPath

/-- Ordered by local, type, fields and reach. -/
def order : AccessPath → AccessPath → Ordering :=
  compareLex (compareOn base) <| compareLex (compareOn baseType) <|
    compareLex (compareOn fields) (compareOn subFields)

instance : Ord AccessPath := ⟨order⟩

instance : Std.TransOrd AccessPath := inferInstanceAs (Std.TransCmp (compareLex _ _))

instance : Std.LawfulEqOrd AccessPath where
  compare_self := Std.ReflCmp.compare_self
  eq_of_compare {a b} h := by
    replace h : order a b = .eq := h
    simp only [order, compareLex_eq_eq, compareOn, Std.LawfulEqOrd.compare_eq_iff_eq] at h
    cases a
    cases b
    simp_all

/-- Whether the path is a local without fields. -/
def isPlain (p : AccessPath) : Bool := p.fields.isEmpty

/-- The written form of a path: fields by their names alone. -/
def render (p : AccessPath) : String :=
  p.base.render ++ "(" ++ p.baseType.render ++ ")" ++
    String.join (p.fields.map fun f => "." ++ f.field.name) ++ (if p.subFields then ".*" else "")

instance : ToString AccessPath := ⟨render⟩

end AccessPath

/-- A tainted access path. -/
structure Fact where
  path : AccessPath
  /-- The statement the fact was last derived at. -/
  origin : Option StmtId

namespace Fact

/-- Facts are compared by their paths alone. -/
instance : BEq Fact := ⟨fun a b => a.path == b.path⟩

instance : Ord Fact := ⟨compareOn path⟩

instance : Std.TransOrd Fact := inferInstanceAs (Std.TransCmp (compareOn _))

instance : Std.LawfulBEqOrd Fact where
  compare_eq_iff_beq {a b} :=
    show compare a.path b.path = .eq ↔ (a.path == b.path) = true from
      Std.LawfulBEqCmp.compare_eq_iff_beq

/-- The fact that a path is tainted from the start of a method. -/
def ofPath (path : AccessPath) : Fact := ⟨path, none⟩

/-- The fact about a path derived at a statement. -/
def derivedAt (path : AccessPath) (s : StmtId) : Fact := ⟨path, some s⟩

/-- The written form of a fact. -/
def render (f : Fact) : String := f.path.render

end Fact

/-- A step of the solver: in the context of one fact, another holds at a
statement. -/
structure PathEdge where
  context : Fact
  target : StmtId
  fact : Fact

/-- The written form of an edge. -/
def PathEdge.render (e : PathEdge) : String :=
  "<" ++ e.context.render ++ "> -> <" ++ e.target.render ++ ", " ++ e.fact.render ++ ">"

end TaintReplay
