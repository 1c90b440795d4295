import TaintReplay.Graph
import TaintReplay.Hierarchy.Basic

/-!
# Ancestors and descendants

Upwards every link counts: the ancestors of a type are all that a chain of
links leads to. Downwards a walk follows the links a Java type can have: from
an interface to the classes that implement it and the interfaces that extend
it, from a class to the classes that extend it.
-/

namespace TaintReplay.Hierarchy

/-- Enough steps for any walk along the links from one type. -/
def walkBound (h : Hierarchy) : Nat := h.links.length + 1

/-! ## Upwards -/

/-- The ancestors of a known type, itself included, each once. An unknown type
has none. -/
def ancestors (h : Hierarchy) (name : String) : List String :=
  if h.contains name then Graph.visit h.parents h.walkBound [name] [] else []

/-- Whether a type is, extends or implements another, directly or not. -/
def isSubtype (h : Hierarchy) (child parent : String) : Bool :=
  child == parent || (h.ancestors child).contains parent

/-! ## Downwards -/

/-- Puts a name into an increasing list, after those equal to it. -/
def insertName (name : String) : List String → List String
  | [] => [name]
  | n :: ns => if (compare name n).isLT then name :: n :: ns else n :: insertName name ns

/-- The types with a link of the given kind to a type, either the interfaces
or the others, by increasing name and once for each link. -/
def children (h : Hierarchy) (name : String) (kind : LinkKind) (interfaces : Bool) : List String :=
  let linked := h.links.filter fun l => l.parent == name && l.kind == kind
  let names := (linked.map (·.child)).filter fun child => h.isInterface child == interfaces
  names.foldl (fun sorted n => insertName n sorted) []

/-- The classes that extend a type. -/
def subclasses (h : Hierarchy) (name : String) : List String := h.children name .extension false

/-- The classes that implement a type. -/
def implementers (h : Hierarchy) (name : String) : List String :=
  h.children name .implementation false

/-- The interfaces that extend a type. -/
def subinterfaces (h : Hierarchy) (name : String) : List String := h.children name .extension true

/-- The types directly below a type that a value of it may have. -/
def below (h : Hierarchy) (name : String) : List String :=
  if h.isInterface name then h.implementers name ++ h.subinterfaces name else h.subclasses name

/-- A type and all that is below it, each once. -/
def descendants (h : Hierarchy) (name : String) : List String :=
  Graph.visit h.below h.walkBound [name] []

/-- The classes that the run-time type of a value may be, given its static
type: interfaces have no instances of their own. -/
def instanceClasses (h : Hierarchy) (name : String) : OrdSet String :=
  OrdSet.ofList ((h.descendants name).filter fun n => !h.isInterface n)

end TaintReplay.Hierarchy
