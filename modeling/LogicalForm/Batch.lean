import LogicalForm.Conversion
import LogicalForm.Tally

/-!
# Batches

A batch converts its queries one by one. A rejected query affects no other; it is counted under its
kind, and the share of converted queries is told at the end.
-/

namespace LogicalForm
set_option autoImplicit false

def Kind.rank (kind : Kind) : Nat := all.idxOf kind

theorem Kind.rank_inj {kind other : Kind} (h : kind.rank = other.rank) : kind = other := by
  revert h
  cases kind <;> cases other <;> decide

def Kind.ranking : Ranking Kind := Ranking.number.byKey rank rank_inj

structure Batch where
  outcomes : List (Except Rejection Form)
  tally : Tally Kind.ranking

namespace Batch

def isConverted : Except Rejection Form → Bool
  | .ok _ => true
  | .error _ => false

def total (batch : Batch) : Nat := batch.outcomes.length

def converted (batch : Batch) : Nat := (batch.outcomes.filter isConverted).length

def rate (batch : Batch) : Rate := ⟨batch.converted, batch.total⟩

def rejections (batch : Batch) : List (Kind × Nat) := batch.tally.entries

def rendered (sentinel : String) (batch : Batch) : List String :=
  batch.outcomes.map (renderOr sentinel)

/-- A batch part way through: what became of the queries so far, and what was told of them. -/
structure Progress where
  outcomes : Array (Except Rejection Form) := #[]
  tally : Tally Kind.ranking := .empty
  events : Array Event := #[]

/-- Converts one more query. A rejection is told and counted. -/
def Progress.next (d : Dialect) (p : Progress) (q : Query) : Progress :=
  let conversion := q.convert d
  let outcomes := p.outcomes.push conversion.outcome
  let events := p.events ++ conversion.events
  match conversion.outcome with
  | .ok _ => ⟨outcomes, p.tally, events⟩
  | .error cause =>
    ⟨outcomes, p.tally.add cause.kind, events.push (.rejected (q.topic? d.namespaceMark) cause)⟩

def run (d : Dialect) (queries : List Query) : Progress := queries.foldl (Progress.next d) {}

def Progress.batch (p : Progress) : Batch := ⟨p.outcomes.toList, p.tally⟩

def ofQueries (d : Dialect) (queries : List Query) : Batch := (run d queries).batch

def events (d : Dialect) (queries : List Query) : List Event :=
  let p := run d queries
  p.events.toList ++ [.converted p.batch.rate]

end Batch

end LogicalForm
