import TaintReplay.OrdSet
import TaintReplay.Signature.Error
import TaintReplay.Text.Blank
import TaintReplay.Text.Scan

/-!
# Method signatures

A method is named by the text `<class: return name(parameters)>`. Reading
allows blanks around the whole, any non-empty run of blanks after the colon
and between return type and name, and blanks around each parameter. Writing
produces one blank in the first two places and none in the last, so the
written form of a signature that was read is canonical.

The *sub-signature* is the written form without the class: it names the method
among those of a class, and is the key under which flows are stored.
-/

namespace TaintReplay

open Text

/-- The class, return type, name and parameter types of a method. -/
structure MethodSignature where
  className : String
  returnType : String
  name : String
  parameters : List String
deriving DecidableEq, Inhabited

namespace MethodSignature

/-- Signatures are ordered by class, return type, name and parameters. -/
def order : MethodSignature → MethodSignature → Ordering :=
  compareLex (compareOn className) <| compareLex (compareOn returnType) <|
    compareLex (compareOn name) (compareOn parameters)

instance : Ord MethodSignature := ⟨order⟩

instance : Std.TransOrd MethodSignature := inferInstanceAs (Std.TransCmp (compareLex _ _))

instance : Std.LawfulEqOrd MethodSignature where
  compare_self := Std.ReflCmp.compare_self
  eq_of_compare {a b} h := by
    replace h : order a b = .eq := h
    simp only [order, compareLex_eq_eq, compareOn, Std.LawfulEqOrd.compare_eq_iff_eq] at h
    cases a
    cases b
    simp_all

/-- The name of the method among those of its class: return type, name and
parameter types. -/
def subSignature (m : MethodSignature) : String :=
  m.returnType ++ " " ++ m.name ++ "(" ++ ",".intercalate m.parameters ++ ")"

/-- The written form of a signature. -/
def render (m : MethodSignature) : String :=
  "<" ++ m.className ++ ": " ++ m.subSignature ++ ">"

instance : ToString MethodSignature := ⟨render⟩

/-- The parameter types of a list between parentheses. A blank list has none;
otherwise commas separate them and the blanks around each are dropped. -/
def readParameters (cs : List Char) : List String :=
  match trimChars cs with
  | [] => []
  | cs => (splitAt ',' cs).map fun part => String.ofList (trimChars part)

/-- Reads a signature that has no blanks around it. -/
def read? (cs : List Char) : Option MethodSignature := do
  let cs ← expect '<' cs
  let (cls, cs) ← takeRun (fun c => c != ':' && !isBlank c) cs
  let cs ← expect ':' cs
  let (_, cs) ← takeRun isBlank cs
  let (ret, cs) ← takeRun (fun c => !isBlank c) cs
  let (_, cs) ← takeRun isBlank cs
  let (name, cs) ← takeRun (fun c => c != '(' && !isBlank c) cs
  let cs ← expect '(' cs
  let params := cs.takeWhile (· != ')')
  if cs.dropWhile (· != ')') = [')', '>'] then
    some ⟨String.ofList cls, String.ofList ret, String.ofList name, readParameters params⟩
  else none

/-- Reads a signature. The error carries the text as it was given. -/
def parse (text : String) : Except SignatureError MethodSignature :=
  match read? (trimChars text.toList) with
  | some m => .ok m
  | none => .error (.invalidMethod text)

end MethodSignature

end TaintReplay
