import LogicalForm.Validation.Basic

/-!
# Recorded endpoints

An endpoint whose replies are known in advance, for validating without one that is live. The query of
a written form is the form behind a fixed start, unless it is recorded as having none.
-/

namespace LogicalForm
set_option autoImplicit false

structure Playback where
  queryStart : String
  noQuery : List (String × ExecutionFault)
  /-- The recorded queries with their replies; the first record of a query counts. -/
  replies : List (String × Reply)

namespace Playback

def queryOf (p : Playback) (expression : String) : Except ExecutionFault String :=
  match p.noQuery.lookup expression with
  | some fault => .error fault
  | none => .ok (p.queryStart ++ expression)

def ask (p : Playback) (query : String) : Reply :=
  (p.replies.lookup query).getD ⟨⟨0⟩, .error (.endpoint s!"unknown query {query}")⟩

def validator (p : Playback) (limit : Span) (sentinel : String) : Validator :=
  ⟨p.queryOf, p.ask, limit, sentinel⟩

end Playback

end LogicalForm
