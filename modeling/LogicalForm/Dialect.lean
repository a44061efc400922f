import LogicalForm.Term

/-!
# Dialects

The spellings that the template of a query leaves open: which variable is asked for, how names are
marked, and what is written in place of a form that cannot be built.
-/

namespace LogicalForm
set_option autoImplicit false

structure Dialect where
  answerVariable : String := "?x"
  auxiliaryVariable : String := "?sk0"
  namespaceMark : String := "ns:"
  /-- The last part of the relation that stands for a pair of time bounds. -/
  timeMacroSuffix : String := "time_macro"
  manualMarker : String := "#MANUAL SPARQL"
  dateDatatype : String := "http://www.w3.org/2001/XMLSchema#date"
  sentinel : String := "null"
  deriving DecidableEq, Repr, Inhabited

namespace Dialect

def term (d : Dialect) (word : String) : Term := Term.read d.namespaceMark word

def answerTerm (d : Dialect) : Term := d.term d.answerVariable

def localName (d : Dialect) (word : String) : String :=
  (Text.after? d.namespaceMark word).getD word

end Dialect

end LogicalForm
