import LogicalForm.Dialect
import LogicalForm.Rejection

/-!
# The block of a query

Every query follows one template: lines that declare names, a header that selects the answer
variable, and a block that ends either with its closing brace or with a limit after it.

    PREFIX ns: <...>
    SELECT DISTINCT ?x
    WHERE {
    (lines of the block)
    }

The lines of the block and the way it ends decide the shape of the query.
-/

namespace LogicalForm
set_option autoImplicit false

inductive Ending where
  | brace
  | limit
  deriving DecidableEq, Repr

/-- The lines after the one that opens the block and before the last one. -/
structure Block where
  lines : List String
  ending : Ending
  deriving DecidableEq, Repr

inductive Shape where
  | plain
  | superlative
  | range
  deriving DecidableEq, Repr

def Shape.name : Shape → String
  | plain => "Plain"
  | superlative => "Superlative"
  | range => "Range"

namespace Block

def declarationMark : String := "PREFIX"

def selectMark : String := "SELECT DISTINCT"

def openLine : String := "WHERE \x7b"

def closeLine : String := "\x7d"

def limitLine : String := "LIMIT 1"

/-- A filter on strings may stand nowhere in the block. -/
def stringFilterMark : String := "FILTER (str"

def guardMark : String := "FILTER(NOT EXISTS \x7b?"

def templateLines (d : Dialect) (text : String) : Except Mismatch (List String) :=
  match Text.contentLines text with
  | [] => .error .emptyQuery
  | first :: rest => if first = d.manualMarker then .error .manual else .ok (first :: rest)

def selects (d : Dialect) (line : String) : Bool :=
  match Text.after? selectMark line with
  | some rest => Text.words rest == [d.answerVariable]
  | none => false

def afterHeader (d : Dialect) (lines : List String) : Except Mismatch (List String) :=
  match lines.dropWhile (Text.startsWith declarationMark) with
  | [] => .error .prefixesOnly
  | header :: rest => if selects d header then .ok rest else .error (.header d.answerVariable header)

def afterOpening : List String → Except Mismatch (List String)
  | [] => .error .opening
  | line :: rest => if line = openLine then .ok rest else .error .opening

def ending? (line : String) : Option Ending :=
  if line = closeLine then some .brace else if line = limitLine then some .limit else none

def ofOpened (lines : List String) : Except Mismatch Block :=
  match lines.reverse with
  | [] => .error .ending
  | last :: before =>
    match ending? last with
    | some ending => .ok ⟨before.reverse, ending⟩
    | none => .error .ending

def ofTemplate (d : Dialect) (text : String) : Except Mismatch Block := do
  let lines ← templateLines d text
  let rest ← afterHeader d lines
  let opened ← afterOpening rest
  ofOpened opened

def ofText (d : Dialect) (text : String) : Except Rejection Block := do
  let block ← (ofTemplate d text).mapError .structural
  if block.lines.any (Text.contains stringFilterMark) then .error .stringFilter else .ok block

/-- A limit makes a superlative; a time bound three lines before the closing brace makes a range. -/
def shape (block : Block) : Shape :=
  match block.ending with
  | .limit => .superlative
  | .brace => if block.lines.reverse[2]?.any (Text.startsWith guardMark) then .range else .plain

end Block

end LogicalForm
