import LogicalForm.Form.Basic
import LogicalForm.Term

/-!
# Special conditions

Beside its triples a query may order one variable by date and keep the first, or hold one variable to
a year. The variable is the pivot of the condition.
-/

namespace LogicalForm
set_option autoImplicit false

inductive Condition where
  | none
  | superlative (direction : Direction) (pivot : Term) (relation : String)
  | range (pivot : Term) (relation : String) (year : String)
  deriving DecidableEq, Repr, Inhabited

namespace Condition

def pivot? : Condition → Option Term
  | none => Option.none
  | superlative _ pivot _ | range pivot _ _ => some pivot

def wrap : Condition → Form → Form
  | none, clause => clause
  | superlative direction _ relation, clause => .extreme direction clause relation
  | range _ relation year, clause => .and (.join relation (.atom year)) clause

/-- The condition acts on the clause of its pivot and leaves every other clause as it is. -/
def apply (condition : Condition) (v : Term) (clause : Form) : Form :=
  if condition.pivot? = some v then condition.wrap clause else clause

end Condition

end LogicalForm
