import TaintReplay.OrdSet
import TaintReplay.Text.Blank

/-!
# Java types

A type is `void`, one of the eight primitive types, a class (by name) or an
array. Type names are read from text: blanks around the name and before each
pair of brackets do not count, and any text that is neither a primitive name
nor ends in `[]` is a class name.

Types are ordered by number of dimensions first: an array is above every type
that is not one, and two arrays compare as their elements do. The order is
therefore that of the triple *(dimensions, rank of the innermost type, its
class name)*, which is how it is defined.
-/

namespace TaintReplay

open Text

/-- The primitive types, in increasing order. -/
inductive Primitive where
  | boolean
  | byte
  | char
  | short
  | int
  | long
  | float
  | double
deriving DecidableEq

namespace Primitive

/-- The name of a primitive type. -/
def render : Primitive → String
  | boolean => "boolean"
  | byte => "byte"
  | char => "char"
  | short => "short"
  | int => "int"
  | long => "long"
  | float => "float"
  | double => "double"

/-- The place of a primitive type in their order, counted from one. -/
def rank : Primitive → Nat
  | boolean => 1
  | byte => 2
  | char => 3
  | short => 4
  | int => 5
  | long => 6
  | float => 7
  | double => 8

end Primitive

/-- The type of a value, or of the result of a method. -/
inductive JavaType where
  | void
  | primitive (p : Primitive)
  | class (name : String)
  | array (element : JavaType)
deriving DecidableEq

namespace JavaType

/-- The root of the class hierarchy. -/
def objectName : String := "java.lang.Object"

/-- The class of character strings. -/
def stringName : String := "java.lang.String"

/-- The two interfaces that every array implements. -/
def arrayInterfaces : List String := ["java.lang.Cloneable", "java.io.Serializable"]

/-! ## Text -/

/-- The written form of a type. -/
def render : JavaType → String
  | void => "void"
  | primitive p => p.render
  | .class name => name
  | array element => element.render ++ "[]"

instance : ToString JavaType := ⟨render⟩

/-- The type named by a text without blanks around it and without brackets at
its end. -/
def ofName : String → JavaType
  | "void" => void
  | "boolean" => primitive .boolean
  | "byte" => primitive .byte
  | "char" => primitive .char
  | "short" => primitive .short
  | "int" => primitive .int
  | "long" => primitive .long
  | "float" => primitive .float
  | "double" => primitive .double
  | name => .class name

/-- Reads the dimensions of a type from the right end of its text, given in
reverse: the number of bracket pairs and what stands before them. -/
def readDimensions : List Char → Nat × List Char
  | ']' :: '[' :: cs => let (n, rest) := readDimensions cs; (n + 1, rest)
  | c :: cs => if isBlank c then readDimensions cs else (0, c :: cs)
  | [] => (0, [])

/-- The array type of a number of dimensions over an element type. -/
def arrayOf : Nat → JavaType → JavaType
  | 0, t => t
  | n + 1, t => array (arrayOf n t)

/-- Reads a type. Every text is the name of a type. -/
def parse (text : String) : JavaType :=
  let (dimensions, rest) := readDimensions text.toList.reverse
  arrayOf dimensions (ofName (String.ofList (rest.reverse.dropWhile isBlank)))

/-! ## Order -/

/-- The number of dimensions of an array, zero for the other types. -/
def dimensions : JavaType → Nat
  | array element => element.dimensions + 1
  | _ => 0

/-- The place of the innermost type among the kinds of types. -/
def rank : JavaType → Nat
  | void => 0
  | primitive p => p.rank
  | .class _ => 9
  | array element => element.rank

/-- The class name of the innermost type, if it is a class. -/
def innermostName : JavaType → String
  | .class name => name
  | array element => element.innermostName
  | _ => ""

/-- Types are ordered by dimensions, then by kind, then by class name. -/
def order : JavaType → JavaType → Ordering :=
  compareLex (compareOn dimensions) <| compareLex (compareOn rank) (compareOn innermostName)

instance : Ord JavaType := ⟨order⟩

instance : Std.TransOrd JavaType := inferInstanceAs (Std.TransCmp (compareLex _ _))

/-- A type is determined by the triple it is ordered by. -/
theorem eq_of_dimensions_of_rank_of_innermostName {t u : JavaType}
    (hd : t.dimensions = u.dimensions) (hr : t.rank = u.rank)
    (hn : t.innermostName = u.innermostName) : t = u := by
  induction t generalizing u with
  | void =>
    cases u with
    | void => rfl
    | primitive p => cases p <;> simp [rank, Primitive.rank] at hr
    | «class» name => simp [rank] at hr
    | array e => simp [dimensions] at hd
  | primitive p =>
    cases u with
    | void => cases p <;> simp [rank, Primitive.rank] at hr
    | primitive q => cases p <;> cases q <;> simp_all [rank, Primitive.rank]
    | «class» name => cases p <;> simp [rank, Primitive.rank] at hr
    | array e => simp [dimensions] at hd
  | «class» name =>
    cases u with
    | void => simp [rank] at hr
    | primitive p => cases p <;> simp [rank, Primitive.rank] at hr
    | «class» name' => simpa [innermostName] using hn
    | array e => simp [dimensions] at hd
  | array e ih =>
    cases u with
    | void => simp [dimensions] at hd
    | primitive p => simp [dimensions] at hd
    | «class» name => simp [dimensions] at hd
    | array e' =>
      congr 1
      exact ih (by simpa [dimensions] using hd) (by simpa [rank] using hr)
        (by simpa [innermostName] using hn)

instance : Std.LawfulEqOrd JavaType where
  compare_self := Std.ReflCmp.compare_self
  eq_of_compare {t u} h := by
    replace h : order t u = .eq := h
    simp only [order, compareLex_eq_eq, compareOn, Std.LawfulEqOrd.compare_eq_iff_eq] at h
    exact eq_of_dimensions_of_rank_of_innermostName h.1 h.2.1 h.2.2

/-! ## Kinds of types -/

/-- Whether values of the type are primitive; there are no values of `void`. -/
def isPrimitive : JavaType → Bool
  | primitive _ => true
  | _ => false

/-- Whether values of the type are references. -/
def isReference : JavaType → Bool
  | .class _ => true
  | array _ => true
  | _ => false

/-- Whether the type is the root of the class hierarchy. -/
def isObject (t : JavaType) : Bool := t == .class objectName

/-- The name of a class type. -/
def className? : JavaType → Option String
  | .class name => some name
  | _ => none

/-- The element type of an array. -/
def element? : JavaType → Option JavaType
  | array element => some element
  | _ => none

/-- The types nested in an array, from its element inwards. -/
def elements : JavaType → List JavaType
  | array element => element :: element.elements
  | _ => []

/-- Whether two variables of the type may hold the same mutable object. Primitive
values are copied and strings cannot be changed; of all other types, `void`
included, nothing is known. -/
def canAlias : JavaType → Bool
  | primitive _ => false
  | .class name => name != stringName
  | _ => true

end JavaType

end TaintReplay
