import LogicalForm.Form.Clause
import LogicalForm.Log
import LogicalForm.Query.Basic
import LogicalForm.Query.Reduced
import LogicalForm.Rate

/-!
# Conversion

A query is reduced, its lines are read as triples, the triples are anchored from the answer variable,
and the anchors make the form. Every step can reject the query, and the first that does so ends the
conversion. What happened on the way is told by events.
-/

namespace LogicalForm
set_option autoImplicit false

inductive Event where
  | classified (shape : Shape)
  | anchored (term : Term) (triples : Nat)
  | ordered (terms triples : Nat)
  | synthesized (nodes : Nat)
  | rejected (topic : Option String) (cause : Rejection)
  | converted (rate : Rate)
  deriving DecidableEq, Repr

namespace Event

def entry : Event → LogEntry
  | classified shape => ⟨.trace, s!"Classified query as {shape.name}"⟩
  | anchored term triples => ⟨.trace, s!"Resolved {term.text} with {triples} triplet(s)"⟩
  | ordered terms triples =>
    ⟨.trace, s!"Resolved {terms} variable(s) over {triples} triplet(s)"⟩
  | synthesized nodes => ⟨.trace, s!"Synthesized {nodes} node(s)"⟩
  | rejected topic cause =>
    let name := topic.getD "unknown topic"
    ⟨.debug, s!"Rejected query on {name} ({cause.kind.name}): {cause.message}"⟩
  | converted rate =>
    ⟨.info, s!"Converted {rate.part} of {rate.whole} queries ({rate.text})"⟩

end Event

/-- The shape is told as soon as the block is read, whether or not its lines hold together. -/
def Reduced.events (d : Dialect) (text : String) : List Event :=
  match Block.ofText d text with
  | .ok block => [.classified block.shape]
  | .error _ => []

/-- Every anchor is told when it is found, also in a search that is stopped later. -/
def Survey.events (survey : Survey) : List Event :=
  survey.anchors.map fun anchor => .anchored anchor.term anchor.triples.length

structure Traced (α : Type) where
  events : List Event
  outcome : Except Rejection α

namespace Traced

variable {α β : Type}

def andThen (step : Traced α) (next : α → Traced β) : Traced β :=
  match step.outcome with
  | .ok value => ⟨step.events ++ (next value).events, (next value).outcome⟩
  | .error cause => ⟨step.events, .error cause⟩

end Traced

namespace Query

def convertTriples (d : Dialect) (condition : Condition) (triples : List Triple) : Traced Form :=
  let survey := Survey.ofRoot d.answerTerm triples
  let search : Traced (List Anchor) := ⟨survey.events, survey.result⟩
  search.andThen fun anchors =>
    let told : Event := .ordered anchors.length (Anchor.tripleCount anchors)
    match Form.ofAnchors condition anchors with
    | .ok form => ⟨[told, .synthesized form.size], .ok form⟩
    | .error cause => ⟨[told], .error cause⟩

def convert (d : Dialect) (q : Query) : Traced Form :=
  let reduction : Traced Reduced := ⟨Reduced.events d q.text, Reduced.ofText d q.text⟩
  reduction.andThen fun reduced =>
    let reading : Traced (List Triple) := ⟨[], Triple.ofLines d reduced.body⟩
    reading.andThen (convertTriples d reduced.condition)

def attempt (d : Dialect) (q : Query) : Traced Form :=
  let conversion := q.convert d
  match conversion.outcome with
  | .ok _ => conversion
  | .error cause =>
    ⟨conversion.events ++ [.rejected (q.topic? d.namespaceMark) cause], conversion.outcome⟩

end Query

def renderOr (sentinel : String) : Except Rejection Form → String
  | .ok form => form.render
  | .error _ => sentinel

def Query.render (d : Dialect) (q : Query) : String := renderOr d.sentinel (q.attempt d).outcome

end LogicalForm
