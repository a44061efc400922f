import LogicalForm.Triple.Basic

/-!
# Rejections

Why a query has no logical form. Every cause carries what its message shows; the wording is in
`message` alone.
-/

namespace LogicalForm
set_option autoImplicit false

inductive Mismatch where
  | emptyQuery
  | manual
  | prefixesOnly
  | header (answer found : String)
  | opening
  | ending
  | unclosed
  | ordering (line auxiliary : String)
  | unbound (line auxiliary : String)
  | constantSubject (line : String)
  | truncated
  | notGuard (line : String)
  | unbalanced (line : String)
  | noRelation (line : String)
  | pivots (first second : String)
  | shortRelation (relation : String)
  | relations (first second : String)
  | undated (line : String)
  | noYear (date : String)
  | years (first second : String)
  | constantPivot (word : String)
  | emptyBody
  | guardsOnly
  | bodyLine (line : String)
  deriving DecidableEq, Repr

inductive LineFault where
  | unterminated (line : String)
  | wordCount (line : String)
  | relation (found : Term) (line : String)
  deriving DecidableEq, Repr

inductive Disconnection where
  | unanchored (v : Term)
  | unreachable (triples : List Triple)
  | pivot (pivot root : Term)
  deriving DecidableEq, Repr

/-- A list of anchors from which no form can be built. -/
inductive Inconsistency where
  | empty
  | bare (v : Term)
  | premature (v : Term)
  | foreign (triple : Triple) (v : Term)
  | clauseless (root : Term)
  deriving DecidableEq, Repr

inductive Rejection where
  | structural (cause : Mismatch)
  | stringFilter
  | line (cause : LineFault)
  | ambiguous (candidates : Nat)
  | disconnected (cause : Disconnection)
  | inconsistent (cause : Inconsistency)
  deriving DecidableEq, Repr

inductive Kind where
  | structuralMismatch
  | unsupportedFilter
  | malformedTriple
  | ambiguousSpecialClause
  | disconnectedGraph
  | internalInconsistency
  deriving DecidableEq, Repr

namespace Mismatch

def message : Mismatch → String
  | emptyQuery => "empty query"
  | manual => "manually authored query"
  | prefixesOnly => "query consists of prefixes only"
  | header answer found => s!"expected 'SELECT DISTINCT {answer}' but found '{found}'"
  | opening => "expected 'WHERE \x7b' after the select clause"
  | ending => "expected '\x7d' or 'LIMIT 1' as the last line"
  | unclosed => "expected the block to close before the ordering clause"
  | ordering line auxiliary => s!"ordering clause '{line}' does not refer to {auxiliary}"
  | unbound line auxiliary => s!"'{line}' does not bind {auxiliary} as its object"
  | constantSubject line => s!"'{line}' does not order a variable"
  | truncated => "range clause is truncated"
  | notGuard line => s!"expected a range guard but found '{line}'"
  | unbalanced line => s!"unbalanced range guard '{line}'"
  | noRelation line => s!"range guard '{line}' has no relation"
  | pivots first second => s!"range bounds refer to different variables {first} and {second}"
  | shortRelation relation => s!"relation {relation} has no domain and type"
  | relations first second => s!"range relations {first} and {second} do not share a prefix"
  | undated line => s!"no date literal in '{line}'"
  | noYear date => s!"'{date}' does not start with a year"
  | years first second => s!"range spans the years {first} and {second}"
  | constantPivot word => s!"range guard does not constrain a variable: {word}"
  | emptyBody => "empty body"
  | guardsOnly => "guard pair is not followed by a triple pattern"
  | bodyLine line => s!"body line '{line}' does not start with a variable or a qualified name"

end Mismatch

namespace LineFault

def message : LineFault → String
  | unterminated line => s!"missing terminator in '{line}'"
  | wordCount line => s!"expected three tokens in '{line}'"
  | relation found line => s!"'{found.text}' is not a relation name in '{line}'"

end LineFault

namespace Disconnection

def message : Disconnection → String
  | unanchored v => s!"{v.text} is not anchored by any triplet"
  | unreachable triples => "unreachable triplets " ++ ", ".intercalate (triples.map Triple.text)
  | pivot p root => s!"{p.text} of the special condition is not reachable from {root.text}"

end Disconnection

namespace Inconsistency

def message : Inconsistency → String
  | empty => "empty resolution order"
  | bare v => s!"{v.text} has no triplets"
  | premature v => s!"{v.text} is referenced before its clause is synthesized"
  | foreign triple v => s!"{triple.text} is not incident to {v.text}"
  | clauseless root => s!"no clause for {root.text}"

end Inconsistency

namespace Kind

def all : List Kind :=
  [structuralMismatch, unsupportedFilter, malformedTriple, ambiguousSpecialClause,
    disconnectedGraph, internalInconsistency]

def name : Kind → String
  | structuralMismatch => "StructuralMismatch"
  | unsupportedFilter => "UnsupportedFilter"
  | malformedTriple => "MalformedTriple"
  | ambiguousSpecialClause => "AmbiguousSpecialClause"
  | disconnectedGraph => "DisconnectedGraph"
  | internalInconsistency => "InternalInconsistency"

end Kind

namespace Rejection

def kind : Rejection → Kind
  | structural _ => .structuralMismatch
  | stringFilter => .unsupportedFilter
  | line _ => .malformedTriple
  | ambiguous _ => .ambiguousSpecialClause
  | disconnected _ => .disconnectedGraph
  | inconsistent _ => .internalInconsistency

def message : Rejection → String
  | structural cause => "Structural mismatch: " ++ cause.message
  | stringFilter => "Unsupported filter guard"
  | line cause => "Malformed triple: " ++ cause.message
  | ambiguous candidates =>
    s!"Expected exactly one line binding the ordering variable, found {candidates}"
  | disconnected cause => "Disconnected graph: " ++ cause.message
  | inconsistent cause => "Internal inconsistency: " ++ cause.message

end Rejection

end LogicalForm
