import LogicalForm.Query.Superlative

/-!
# Ranges

A range holds one variable to a year by two time bounds, three lines each, at the end of the block:

    FILTER(NOT EXISTS {?y ns:a.b.from ?sk0} ||
    EXISTS {?y ns:a.b.from ?sk1 .
    FILTER(xsd:datetime(?sk1) <= "2009-12-31"^^xsd:dateTime) })
    FILTER(NOT EXISTS {?y ns:a.b.to ?sk2} ||
    EXISTS {?y ns:a.b.to ?sk3 .
    FILTER(xsd:datetime(?sk3) >= "2009-01-01"^^xsd:dateTime) })

The first line of a bound gives the variable and the relation, the third one the date. The second
repeats the first and is not read.
-/

namespace LogicalForm.Range
set_option autoImplicit false

structure Bound where
  guardLine : String
  dateLine : String
  deriving DecidableEq, Repr

structure Guard where
  pivot : String
  relation : String
  deriving DecidableEq, Repr

/-- The variable of both bounds as it is written, their relations without the mark of the namespace,
and the two segments that the relations start with. -/
structure Bounds where
  pivot : String
  start : String
  stop : String
  domain : String
  deriving DecidableEq, Repr

/-- A pair of relations that bound a time: what they share, and how each of them ends. -/
structure TimeMacro where
  domain : String
  startSuffix : String
  endSuffix : String
  deriving DecidableEq, Repr, Inhabited

def bounds? (lines : List String) : Option (List String × Bound × Bound) :=
  match lines.reverse with
  | stopDate :: _ :: stopGuard :: startDate :: _ :: startGuard :: before =>
    some (before.reverse, ⟨startGuard, startDate⟩, ⟨stopGuard, stopDate⟩)
  | _ => none

def braced? (line : String) : Option String :=
  ((Text.cutAt? '\x7b' line).bind fun parts => Text.cutAt? '\x7d' parts.2).map Prod.fst

def Guard.ofLine (line : String) : Except Mismatch Guard :=
  if !Text.startsWith Block.guardMark line then .error (.notGuard line)
  else
    match braced? line with
    | none => .error (.unbalanced line)
    | some pattern =>
      match Text.words pattern with
      | pivot :: relation :: _ => .ok ⟨pivot, relation⟩
      | _ => .error (.noRelation line)

def domain (relation : String) : Except Mismatch String :=
  match Text.segments relation with
  | first :: second :: _ :: _ => .ok (first ++ "." ++ second)
  | _ => .error (.shortRelation relation)

def lastSegment (relation : String) : String :=
  ((Text.segments relation).getLast?).getD relation

def readBounds (d : Dialect) (start stop : Bound) : Except Mismatch Bounds := do
  let first ← Guard.ofLine start.guardLine
  let second ← Guard.ofLine stop.guardLine
  if first.pivot ≠ second.pivot then .error (.pivots first.pivot second.pivot)
  else
    let startRelation := d.localName first.relation
    let stopRelation := d.localName second.relation
    let startDomain ← domain startRelation
    let stopDomain ← domain stopRelation
    if startDomain ≠ stopDomain then .error (.relations startRelation stopRelation)
    else .ok ⟨first.pivot, startRelation, stopRelation, startDomain⟩

def quoted (line : String) : Except Mismatch String :=
  match (Text.cutAt? '"' line).bind fun parts => Text.cutAt? '"' parts.2 with
  | some (date, _) => .ok date
  | none => .error (.undated line)

def year (date : String) : Except Mismatch String :=
  let digits := date.toList.take 4
  if digits.length = 4 ∧ digits.all Char.isDigit = true then .ok (String.ofList digits)
  else .error (.noYear date)

def Bound.year (bound : Bound) : Except Mismatch String :=
  (quoted bound.dateLine).bind Range.year

def commonYear (start stop : Bound) : Except Mismatch String := do
  let first ← start.year
  let second ← stop.year
  if first ≠ second then .error (.years first second) else .ok first

def condition (d : Dialect) (bounds : Bounds) (year : String) : Except Mismatch Condition :=
  let pivot := d.term bounds.pivot
  if !pivot.isVar then .error (.constantPivot bounds.pivot)
  else
    .ok (.range pivot (bounds.domain ++ "." ++ d.timeMacroSuffix) (year ++ "^^" ++ d.dateDatatype))

def reduce (d : Dialect) (lines : List String) : Except Mismatch Reduced :=
  match bounds? lines with
  | none => .error .truncated
  | some (body, start, stop) => do
    let bounds ← readBounds d start stop
    let year ← commonYear start stop
    let condition ← condition d bounds year
    .ok ⟨body, condition⟩

/-- The relations of the two bounds; the dates are not read. -/
def timeMacro (d : Dialect) (lines : List String) : Except Mismatch TimeMacro :=
  match bounds? lines with
  | none => .error .truncated
  | some (_, start, stop) => do
    let bounds ← readBounds d start stop
    .ok ⟨bounds.domain, lastSegment bounds.start, lastSegment bounds.stop⟩

end LogicalForm.Range
