import LogicalForm.Condition
import LogicalForm.Query.Block
import LogicalForm.Triple.Line

/-!
# Superlatives

A superlative binds the auxiliary variable in one line of its block and orders by it after the block:

    ?y ns:r.from ?sk0 .
    }
    ORDER BY DESC(xsd:datetime(?sk0))
    LIMIT 1

The line that binds it becomes the condition; the other lines are the body.
-/

namespace LogicalForm
set_option autoImplicit false

structure Reduced where
  body : List String
  condition : Condition
  deriving DecidableEq, Repr

namespace Superlative

def descendingMark : String := "DESC("

def direction (orderLine : String) : Direction :=
  if Text.contains descendingMark orderLine then .max else .min

def condition (d : Dialect) (direction : Direction) (line : String) : Except Rejection Condition := do
  let triple ← Triple.ofLine d line
  if triple.object ≠ d.term d.auxiliaryVariable then
    .error (.structural (.unbound line d.auxiliaryVariable))
  else if !triple.subject.isVar then .error (.structural (.constantSubject line))
  else .ok (.superlative direction triple.subject triple.relation.name)

/-- Takes the lines of the block apart from their end: the line that orders, the closing brace, and
before them exactly one line with the auxiliary variable. -/
def reduce (d : Dialect) (lines : List String) : Except Rejection Reduced :=
  match lines.reverse with
  | orderLine :: close :: before =>
    if close ≠ Block.closeLine then .error (.structural .unclosed)
    else if !Text.contains d.auxiliaryVariable orderLine then
      .error (.structural (.ordering orderLine d.auxiliaryVariable))
    else
      let inner := before.reverse
      match inner.filter (Text.contains d.auxiliaryVariable) with
      | [line] => do
        let condition ← condition d (direction orderLine) line
        .ok ⟨inner.filter (!Text.contains d.auxiliaryVariable ·), condition⟩
      | candidates => .error (.ambiguous candidates.length)
  | _ => .error (.structural .unclosed)

end Superlative

end LogicalForm
