import TaintReplay.Text.Printable

/-!
# Literal texts

Constants of the analysed program are shown between quotes. Quotes and
backslashes inside are preceded by a backslash, the usual control characters
have a letter, and a character that does not show itself is given by its code
in hexadecimal, as `\u` followed by the digits in braces.
-/

namespace TaintReplay.Text

/-- The hexadecimal digits of a number, in lower case and without padding. -/
def hexDigits (n : Nat) : String := String.ofList (Nat.toDigits 16 n)

/-- How a character is shown inside quotes. -/
def escapeChar (c : Char) : String :=
  if c = '"' then "\\\""
  else if c = '\\' then "\\\\"
  else if c = '\n' then "\\n"
  else if c = '\r' then "\\r"
  else if c = '\t' then "\\t"
  else if c = '\x00' then "\\0"
  else if isShown c then String.singleton c
  else "\\u\x7b" ++ hexDigits c.toNat ++ "\x7d"

/-- A text between quotes. -/
def quote (s : String) : String := "\"" ++ String.join (s.toList.map escapeChar) ++ "\""

end TaintReplay.Text
