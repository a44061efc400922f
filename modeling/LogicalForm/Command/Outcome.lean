import LogicalForm.Text.Basic

/-!
# Outcomes

How the run of a program ends: with what it printed, with a message, or with its arguments refused.
-/

namespace LogicalForm
set_option autoImplicit false

inductive Outcome where
  | done (output : String)
  | failed (message : String)
  | refused
  deriving DecidableEq, Repr

namespace Outcome

def exitCode : Outcome → Nat
  | done _ => 0
  | failed _ => 1
  | refused => 2

def output : Outcome → String
  | done output => output
  | _ => ""

/-- The first line that is shown of a message. A line feed always follows the message, so a carriage
return at the end of its first line is never part of that line. -/
def errorLine? : Outcome → Option String
  | failed message => some (Text.firstLine ("Error: " ++ message ++ "\n"))
  | _ => none

end Outcome

end LogicalForm
