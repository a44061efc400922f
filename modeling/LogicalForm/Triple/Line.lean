import LogicalForm.Dialect
import LogicalForm.Rejection

/-!
# Triple lines

A triple is written as three words and a full stop that stands apart from them. The relation has to
be a name of the namespace; its two ends may be any terms.
-/

namespace LogicalForm.Triple
set_option autoImplicit false

/-- What stands before a final full stop that follows a blank. -/
def unterminated? (line : String) : Option String :=
  match line.toList.reverse with
  | '.' :: c :: rest => if Text.isBlank c then some (String.ofList (c :: rest).reverse) else none
  | _ => none

def ofWords (d : Dialect) (line : String) : List String → Except LineFault Triple
  | [subject, relation, object] =>
    match d.term relation with
    | .entity name => .ok ⟨d.term subject, .entity name, d.term object⟩
    | found => .error (.relation found line)
  | _ => .error (.wordCount line)

def ofLine (d : Dialect) (line : String) : Except Rejection Triple :=
  let line := Text.trim line
  match unterminated? line with
  | none => .error (.line (.unterminated line))
  | some body => (ofWords d line (Text.words body)).mapError .line

def ofLines (d : Dialect) (lines : List String) : Except Rejection (List Triple) :=
  lines.mapM (ofLine d)

end LogicalForm.Triple
