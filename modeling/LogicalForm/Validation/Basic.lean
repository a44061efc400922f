import LogicalForm.Log
import LogicalForm.Rate
import LogicalForm.Validation.Span

/-!
# Validation

A written form is valid if running it gives the expected answers, as sets. To run it, it is turned
back into a query, and the query is put to an endpoint that has to reply within a limit. A form that
cannot be run has no answers. The sentinel is never valid and never run.
-/

namespace LogicalForm
set_option autoImplicit false

inductive ExecutionFault where
  | timedOut (limit : Span)
  | endpoint (complaint : String)
  | noQuery (complaint : String)
  deriving DecidableEq, Repr

def ExecutionFault.message : ExecutionFault → String
  | timedOut limit => s!"Query execution timed out after {limit.text}"
  | endpoint complaint => s!"Endpoint error: {complaint}"
  | noQuery complaint => s!"Inverse compilation failed: {complaint}"

/-- What an endpoint makes of a query: how long it takes, and its answers or why there are none. -/
structure Reply where
  delay : Span
  answers : Except ExecutionFault (List String)

structure Validator where
  queryOf : String → Except ExecutionFault String
  ask : String → Reply
  limit : Span := Span.ofSeconds 10
  sentinel : String

structure Candidate where
  id : String
  expression : String
  gold : List String
  deriving DecidableEq, Repr

inductive ValidationEvent where
  | yielded (expression : String) (answers : Nat)
  | failed (expression : String) (fault : ExecutionFault)
  | dropped (id : String)
  | kept (rate : Rate)
  deriving DecidableEq, Repr

def ValidationEvent.entry : ValidationEvent → LogEntry
  | yielded expression answers => ⟨.trace, s!"{expression} yielded {answers} answer(s)"⟩
  | failed expression fault => ⟨.warn, s!"Could not execute {expression}: {fault.message}"⟩
  | dropped id => ⟨.debug, s!"Dropping {id} after validation"⟩
  | kept rate => ⟨.info, s!"Kept {rate.part} of {rate.whole} records ({rate.text})"⟩

def sameMembers (xs ys : List String) : Bool := xs.all ys.contains && ys.all xs.contains

theorem sameMembers_eq_true_iff {xs ys : List String} :
    sameMembers xs ys = true ↔ ∀ a, a ∈ xs ↔ a ∈ ys := by
  simp only [sameMembers, Bool.and_eq_true, List.all_eq_true, List.contains_iff_mem]
  exact ⟨fun h a => ⟨h.1 a, h.2 a⟩, fun h => ⟨fun a => (h a).1, fun a => (h a).2⟩⟩

namespace Validator

/-- Runs a written form. A reply that takes exactly the limit still counts. -/
def execute (v : Validator) (expression : String) : Except ExecutionFault (List String) :=
  match v.queryOf expression with
  | .error fault => .error fault
  | .ok query =>
    let reply := v.ask query
    if v.limit.nanoseconds < reply.delay.nanoseconds then .error (.timedOut v.limit) else reply.answers

def answers (v : Validator) (expression : String) : List String :=
  match v.execute expression with
  | .ok answers => answers
  | .error _ => []

def executionEvent (v : Validator) (expression : String) : ValidationEvent :=
  match v.execute expression with
  | .ok answers => .yielded expression answers.length
  | .error fault => .failed expression fault

def runs (v : Validator) (expression : String) : Bool := expression != v.sentinel

def accepts (v : Validator) (expression : String) (gold : List String) : Bool :=
  v.runs expression && sameMembers (v.answers expression) gold

def validationEvents (v : Validator) (expression : String) : List ValidationEvent :=
  if v.runs expression then [v.executionEvent expression] else []

def keep (v : Validator) (candidates : List Candidate) : List Candidate :=
  candidates.filter fun c => v.accepts c.expression c.gold

def keptRate (v : Validator) (candidates : List Candidate) : Rate :=
  ⟨(v.keep candidates).length, candidates.length⟩

def candidateEvents (v : Validator) (c : Candidate) : List ValidationEvent :=
  v.validationEvents c.expression ++ if v.accepts c.expression c.gold then [] else [.dropped c.id]

def keepEvents (v : Validator) (candidates : List Candidate) : List ValidationEvent :=
  candidates.flatMap v.candidateEvents ++ [.kept (v.keptRate candidates)]

end Validator

end LogicalForm
