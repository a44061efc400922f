/-!
# Log entries

What is worth telling about a run is data: a level and a text, in the order in which it happened.
-/

namespace LogicalForm
set_option autoImplicit false

inductive Level where
  | trace
  | debug
  | info
  | warn
  deriving DecidableEq, Repr

def Level.name : Level → String
  | trace => "TRACE"
  | debug => "DEBUG"
  | info => "INFO"
  | warn => "WARN"

structure LogEntry where
  level : Level
  text : String
  deriving DecidableEq, Repr

end LogicalForm
