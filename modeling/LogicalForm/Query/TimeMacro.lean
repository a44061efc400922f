import LogicalForm.Query.Reduced
import LogicalForm.Tally

/-!
# Counting time macros

Which time macros the queries of a collection have, and how many queries have each of them.
-/

namespace LogicalForm.Range.TimeMacro
set_option autoImplicit false

def parts (m : TimeMacro) : String × String × String := (m.domain, m.startSuffix, m.endSuffix)

theorem parts_inj {m n : TimeMacro} (h : m.parts = n.parts) : m = n := by
  cases m
  cases n
  cases h
  rfl

def ranking : Ranking TimeMacro := (Ranking.text.pair (Ranking.text.pair Ranking.text)).byKey parts parts_inj

/-- The time macro of a text. One that departs from the template has none. -/
def ofText? (d : Dialect) (text : String) : Option TimeMacro :=
  match Range.timeMacro? d text with
  | .ok found => found
  | .error _ => none

def tally (d : Dialect) (texts : List String) : Tally ranking :=
  texts.foldl (fun tally text => tally.note (ofText? d text)) .empty

def counts (d : Dialect) (texts : List String) : List (TimeMacro × Nat) := (tally d texts).entries

def line (m : TimeMacro) (count : Nat) : String :=
  m.domain ++ "\t" ++ m.startSuffix ++ "\t" ++ m.endSuffix ++ "\t" ++ toString count ++ "\n"

def listing (d : Dialect) (texts : List String) : String :=
  String.join ((counts d texts).map fun (m, count) => line m count)

end LogicalForm.Range.TimeMacro
