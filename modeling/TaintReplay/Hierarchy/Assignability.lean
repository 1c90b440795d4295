import TaintReplay.Hierarchy.Walk

/-!
# Assignability and casts

A value of one type can be stored in a variable of another when the types are
equal, when the class of the one is a subtype of the class of the other, or by
the rules for arrays: an array is an object, cloneable and serializable, and
arrays of references are assignable as their elements are. Every class is
assignable to the root class, whether the hierarchy says so or not.

Two types are *cast compatible* when a value may have both. Either of them
being the root class settles the question without a look at the hierarchy.
-/

namespace TaintReplay.Hierarchy

/-- Whether a value of the first type can be stored in a variable of the
second. -/
def canStore (h : Hierarchy) : JavaType → JavaType → Bool
  | .class child, .class parent =>
    child == parent || parent == JavaType.objectName || h.isSubtype child parent
  | .array _, .class parent =>
    parent == JavaType.objectName || JavaType.arrayInterfaces.contains parent
  | .array child, .array parent =>
    child == parent || (child.isReference && parent.isReference && h.canStore child parent)
  | child, parent => child == parent

/-- Whether a value may have both types. -/
def castCompatible (h : Hierarchy) (base check : JavaType) : Bool :=
  if base.isObject then check.isReference
  else if check.isObject then base.isReference
  else base == check || h.canStore base check || h.canStore check base

end TaintReplay.Hierarchy
