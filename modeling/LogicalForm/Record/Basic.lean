import LogicalForm.Batch

/-!
# Records

A batch is given as one record per line, and each record that is converted is written on a line of its
own. How a record is written is a matter of the codec.
-/

namespace LogicalForm
set_option autoImplicit false

structure Record where
  id : String
  query : Query
  deriving DecidableEq, Repr

/-- How a line is read as a record, and how a converted record is written, which takes one line. -/
structure Record.Codec where
  decode : String → Option Record
  encode : String → String → String
  whole : ∀ id expression, '\n' ∉ (encode id expression).toList

end LogicalForm
