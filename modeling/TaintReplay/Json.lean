/-!
# JSON values

Summaries and options are exchanged as JSON. This module has the values and the
readers that the formats of this library are built from; texts are read and
written elsewhere.

A structured value is read by the names of its members. Members that the format
does not know are ignored. A structure may also be given positionally, as the
list of its members' values in the order the format declares them: a shorter
list leaves the last members out, a longer one is refused.

Whole numbers are kept apart from all others because only they are ever
accepted, and only within the range of unsigned 64-bit words.
-/

namespace TaintReplay

/-- A JSON value. -/
inductive Json where
  | null
  | bool (b : Bool)
  | int (n : Int)
  /-- The number `digits / 10 ^ places`, written with a fraction or exponent. -/
  | decimal (digits : Int) (places : Nat)
  | str (s : String)
  | arr (items : List Json)
  | obj (members : List (String × Json))
deriving Inhabited

namespace Json

/-- One more than the largest index a summary can state. -/
def wordBound : Nat := UInt64.size

/-! ## Simple values -/

/-- Reads a string. -/
def toStr? : Json → Option String
  | str s => some s
  | _ => none

/-- Reads a truth value. -/
def toBool? : Json → Option Bool
  | bool b => some b
  | _ => none

/-- Reads a whole number from zero to below the word bound. -/
def toWord? : Json → Option Nat
  | int (.ofNat n) => if n < wordBound then some n else none
  | _ => none

/-- Reads `null` as the absence of a value. -/
def toOption? {α : Type} (read : Json → Option α) : Json → Option (Option α)
  | null => some none
  | v => (read v).map some

/-- Reads every item of a list. -/
def toList? {α : Type} (read : Json → Option α) : Json → Option (List α)
  | arr items => items.mapM read
  | _ => none

/-! ## Structures -/

/-- The members of a structure with the given member names, in either form. -/
def members? (names : List String) : Json → Option (List (String × Json))
  | obj members => some members
  | arr items => if items.length ≤ names.length then some (names.zip items) else none
  | _ => none

/-- The value of a member. -/
def member? (members : List (String × Json)) (name : String) : Option Json := members.lookup name

/-- Reads a member that has to be there. -/
def required? {α : Type} (members : List (String × Json)) (name : String)
    (read : Json → Option α) : Option α :=
  (member? members name).bind read

/-- Reads a member that has a default. -/
def optional? {α : Type} (members : List (String × Json)) (name : String) (default : α)
    (read : Json → Option α) : Option α :=
  match member? members name with
  | none => some default
  | some v => read v

end Json

end TaintReplay
