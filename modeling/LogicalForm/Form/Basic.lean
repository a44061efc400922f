/-!
# Logical forms

A logical form denotes a set: an atom a single thing, a join all things related to a member of its
argument, a conjunction what both operands share, and an extreme the members of its body with the
greatest or least value of a relation.
-/

namespace LogicalForm
set_option autoImplicit false

inductive Direction where
  | max
  | min
  deriving DecidableEq, Repr, Inhabited

def Direction.operator : Direction → String
  | max => "ARGMAX"
  | min => "ARGMIN"

inductive Form where
  | atom (name : String)
  | join (relation : String) (argument : Form)
  /-- The join along the relation read backwards. -/
  | inverse (relation : String) (argument : Form)
  | and (left right : Form)
  | extreme (direction : Direction) (body : Form) (relation : String)
  deriving DecidableEq, Repr, Inhabited

namespace Form

def size : Form → Nat
  | atom _ => 1
  | join _ argument | inverse _ argument => argument.size + 1
  | and left right => left.size + right.size + 1
  | extreme _ body _ => body.size + 1

def render : Form → String
  | atom name => name
  | join relation argument => "(JOIN " ++ relation ++ " " ++ argument.render ++ ")"
  | inverse relation argument => "(JOIN (R " ++ relation ++ ") " ++ argument.render ++ ")"
  | and left right => "(AND " ++ left.render ++ " " ++ right.render ++ ")"
  | extreme direction body relation =>
    "(" ++ direction.operator ++ " " ++ body.render ++ " " ++ relation ++ ")"

end Form

end LogicalForm
