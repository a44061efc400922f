import LogicalForm.Query.Range

/-!
# Reduced queries

A query that follows the template is reduced to the lines of its triples and at most one special
condition. A pair of filters may stand before the triples; it is left out.
-/

namespace LogicalForm
set_option autoImplicit false

namespace Reduced

def filterMark : String := "FILTER"

/-- Leaves out the pair of filters at the front. -/
def dropFilters : List String → Except Mismatch (List String)
  | [] => .error .emptyBody
  | first :: rest =>
    if Text.startsWith filterMark first then
      match rest with
      | _ :: line :: more => .ok (line :: more)
      | _ => .error .guardsOnly
    else .ok (first :: rest)

def startsTriple (d : Dialect) (line : String) : Bool :=
  Text.startsWith "?" line || Text.startsWith d.namespaceMark line

def checkLines (d : Dialect) (lines : List String) : Except Mismatch (List String) :=
  match lines.find? (!startsTriple d ·) with
  | some line => .error (.bodyLine line)
  | none => .ok lines

def split (d : Dialect) (block : Block) : Except Rejection Reduced :=
  match block.shape with
  | .plain => .ok ⟨block.lines, .none⟩
  | .superlative => Superlative.reduce d block.lines
  | .range => (Range.reduce d block.lines).mapError .structural

def ofBlock (d : Dialect) (block : Block) : Except Rejection Reduced := do
  let parts ← split d block
  let triples ← ((dropFilters parts.body).bind (checkLines d)).mapError .structural
  .ok ⟨triples, parts.condition⟩

def ofText (d : Dialect) (text : String) : Except Rejection Reduced := do
  let block ← Block.ofText d text
  ofBlock d block

end Reduced

def Range.timeMacro? (d : Dialect) (text : String) : Except Rejection (Option Range.TimeMacro) := do
  let block ← Block.ofText d text
  match block.shape with
  | .range => ((Range.timeMacro d block.lines).map some).mapError .structural
  | _ => .ok none

end LogicalForm
