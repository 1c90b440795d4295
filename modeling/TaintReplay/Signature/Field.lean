import TaintReplay.OrdSet
import TaintReplay.Signature.Error
import TaintReplay.Text.Blank
import TaintReplay.Text.Scan

/-!
# Field signatures

A field is named by the text `<class: type name>`, read and written with the
same freedom of blanks as method signatures. Neither part holds a blank, so
the decomposition is forced.
-/

namespace TaintReplay

open Text

/-- The declaring class, type and name of a field. -/
structure FieldSignature where
  className : String
  type : String
  name : String
deriving DecidableEq, Inhabited

namespace FieldSignature

/-- Signatures are ordered by class, type and name. -/
def order : FieldSignature → FieldSignature → Ordering :=
  compareLex (compareOn className) <| compareLex (compareOn type) (compareOn name)

instance : Ord FieldSignature := ⟨order⟩

instance : Std.TransOrd FieldSignature := inferInstanceAs (Std.TransCmp (compareLex _ _))

instance : Std.LawfulEqOrd FieldSignature where
  compare_self := Std.ReflCmp.compare_self
  eq_of_compare {a b} h := by
    replace h : order a b = .eq := h
    simp only [order, compareLex_eq_eq, compareOn, Std.LawfulEqOrd.compare_eq_iff_eq] at h
    cases a
    cases b
    simp_all

/-- The written form of a signature. -/
def render (f : FieldSignature) : String :=
  "<" ++ f.className ++ ": " ++ f.type ++ " " ++ f.name ++ ">"

instance : ToString FieldSignature := ⟨render⟩

/-- Reads a signature that has no blanks around it. -/
def read? (cs : List Char) : Option FieldSignature := do
  let cs ← expect '<' cs
  let (cls, cs) ← takeRun (fun c => c != ':' && !isBlank c) cs
  let cs ← expect ':' cs
  let (_, cs) ← takeRun isBlank cs
  let (type, cs) ← takeRun (fun c => !isBlank c) cs
  let (_, cs) ← takeRun isBlank cs
  let (name, cs) ← takeRun (fun c => c != '>' && !isBlank c) cs
  if cs = ['>'] then some ⟨String.ofList cls, String.ofList type, String.ofList name⟩ else none

/-- Reads a signature. The error carries the text as it was given. -/
def parse (text : String) : Except SignatureError FieldSignature :=
  match read? (trimChars text.toList) with
  | some f => .ok f
  | none => .error (.invalidField text)

end FieldSignature

end TaintReplay
