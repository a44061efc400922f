import LogicalForm.Text.Basic

/-!
# Terms

A term is a variable, a name of the namespace that the query speaks about, or any other word. The
mark `?` of a variable and the mark of the namespace are not part of the stored name.
-/

namespace LogicalForm
set_option autoImplicit false

inductive Term where
  | var (name : String)
  | entity (name : String)
  | literal (name : String)
  deriving DecidableEq, Repr, Inhabited

namespace Term

/-- Reads a word: first the mark of a variable is tried, then that of the namespace. -/
def read (namespaceMark word : String) : Term :=
  match Text.after? "?" word with
  | some name => var name
  | none =>
    match Text.after? namespaceMark word with
    | some name => entity name
    | none => literal word

def name : Term → String
  | var name | entity name | literal name => name

def isVar : Term → Bool
  | var _ => true
  | _ => false

/-- How messages show a term: a variable with its mark, all else by its name. -/
def text : Term → String
  | var name => "?" ++ name
  | entity name | literal name => name

def rank : Term → Nat
  | var _ => 0
  | entity _ => 1
  | literal _ => 2

def le (s t : Term) : Bool :=
  s.rank < t.rank || (s.rank == t.rank && decide (s.name ≤ t.name))

def sortDistinct (terms : List Term) : List Term := (terms.mergeSort le).eraseReps

end Term

end LogicalForm
