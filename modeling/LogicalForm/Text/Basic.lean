import LogicalForm.Text.Blank
import LogicalForm.Text.Pieces

/-!
# Reading texts

The few questions that the readers of this library ask of a text: its words, its lines, what it starts
with, what it contains. Each is answered on the list of its characters.
-/

namespace LogicalForm.Text
set_option autoImplicit false

def strip (cs : List Char) : List Char :=
  ((cs.dropWhile isBlank).reverse.dropWhile isBlank).reverse

def trim (s : String) : String := String.ofList (strip s.toList)

/-- The longest runs of characters that are not blank, in order. -/
def words (s : String) : List String :=
  ((pieces isBlank s.toList).filter (!·.isEmpty)).map String.ofList

def lines (s : String) : List String := (lineRuns '\r' '\n' s.toList).map String.ofList

def firstLine (s : String) : String := (lines s).headD ""

/-- The lines of a text without the blanks around them, empty lines left out. Lines end at a line
feed; a carriage return before it is blank. -/
def contentLines (s : String) : List String :=
  (((pieces (· == '\n') s.toList).map strip).filter (!·.isEmpty)).map String.ofList

def segments (s : String) : List String :=
  (pieces (· == '.') s.toList).map String.ofList

def startsWith (start s : String) : Bool := start.toList.isPrefixOf s.toList

def after? (start s : String) : Option String :=
  (start.toList.isPrefixOf? s.toList).map String.ofList

def contains (part s : String) : Bool := occurs part.toList s.toList

def cutAt? (c : Char) (s : String) : Option (String × String) :=
  (cut? (· == c) s.toList).map fun parts => (String.ofList parts.1, String.ofList parts.2)

end LogicalForm.Text
