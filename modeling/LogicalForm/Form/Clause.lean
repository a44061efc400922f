import LogicalForm.Anchor
import LogicalForm.Condition

/-!
# Clauses

The form of a query is built from the last anchor to the first. The clause of a term joins, for each of
its triples, the relation with the clause of the opposite end; later triples become left operands of a
conjunction. The special condition acts on the clause of its pivot. The clause of the first anchor is
the form of the whole.
-/

namespace LogicalForm
set_option autoImplicit false

abbrev Clauses := List (Term × Form)

namespace Clauses

/-- What stands for a term inside another clause: its own clause, or an atom if it is no variable. -/
def operand (known : Clauses) (t : Term) : Except Inconsistency Form :=
  match known.lookup t with
  | some clause => .ok clause
  | none => if t.isVar then .error (.premature t) else .ok (.atom t.name)

def ofTriple (known : Clauses) (v : Term) (t : Triple) : Except Inconsistency Form :=
  if t.subject = v then (known.operand t.object).map (.join t.relation.name)
  else if t.object = v then (known.operand t.subject).map (.inverse t.relation.name)
  else .error (.foreign t v)

/-- The first triple is the seed, and every further one stands left of what there is. -/
def ofAnchor (known : Clauses) (anchor : Anchor) : Except Inconsistency Form :=
  match anchor.triples with
  | [] => .error (.bare anchor.term)
  | first :: rest => do
    let seed ← known.ofTriple anchor.term first
    rest.foldlM (fun clause t => (known.ofTriple anchor.term t).map (.and · clause)) seed

def ofAnchors (condition : Condition) : List Anchor → Except Inconsistency Clauses
  | [] => .ok []
  | anchor :: rest => do
    let known ← ofAnchors condition rest
    let clause ← known.ofAnchor anchor
    .ok ((anchor.term, condition.apply anchor.term clause) :: known)

end Clauses

def Condition.lostPivot? (condition : Condition) (anchors : List Anchor) : Option Term :=
  condition.pivot?.filter fun pivot => !anchors.any (·.term == pivot)

def Form.ofAnchors (condition : Condition) (anchors : List Anchor) : Except Rejection Form :=
  match anchors with
  | [] => .error (.inconsistent .empty)
  | first :: _ => do
    let clauses ← (Clauses.ofAnchors condition anchors).mapError .inconsistent
    match condition.lostPivot? anchors with
    | some pivot => .error (.disconnected (.pivot pivot first.term))
    | none =>
      match clauses.lookup first.term with
      | some form => .ok form
      | none => .error (.inconsistent (.clauseless first.term))

end LogicalForm
