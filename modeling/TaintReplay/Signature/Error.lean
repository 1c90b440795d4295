/-!
# Unreadable signatures
-/

namespace TaintReplay

/-- A text that is not a signature of the expected kind. -/
inductive SignatureError where
  | invalidMethod (text : String)
  | invalidField (text : String)
deriving DecidableEq

namespace SignatureError

/-- The report of an unreadable signature quotes the whole text. -/
def message : SignatureError → String
  | invalidMethod text => "invalid method signature: " ++ text
  | invalidField text => "invalid field signature: " ++ text

end SignatureError

end TaintReplay
