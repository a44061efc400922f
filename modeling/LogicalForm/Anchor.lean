import LogicalForm.Rejection

/-!
# Anchors

The triples of a query are shared out over its variables, breadth-first from the answer variable: each
variable takes the triples that it touches and no variable before it has taken, and the variables at
their opposite ends wait their turn. A variable and its triples make an anchor.
-/

namespace LogicalForm
set_option autoImplicit false

structure Anchor where
  term : Term
  triples : List Triple
  deriving DecidableEq, Repr, Inhabited

structure Survey where
  anchors : List Anchor
  fault : Option Disconnection
  deriving DecidableEq, Repr

namespace Anchor

def tripleCount (anchors : List Anchor) : Nat := (anchors.flatMap triples).length

def taken (v : Term) (pool : List Triple) : List Triple := pool.filter (·.touches v)

def left (v : Term) (pool : List Triple) : List Triple := pool.filter (!·.touches v)

theorem length_left_lt {v : Term} {pool : List Triple} (h : taken v pool ≠ []) :
    (left v pool).length < pool.length := by
  obtain ⟨t, ht⟩ := List.exists_mem_of_ne_nil _ h
  have hTouch := List.mem_filter.mp ht
  refine List.length_filter_lt_length_iff_exists.mpr ⟨t, hTouch.1, ?_⟩
  simpa using hTouch.2

def discovered (v : Term) : List Term → List Triple → List Term
  | _, [] => []
  | seen, t :: ts =>
    match t.opposite? v with
    | some other =>
      if other.isVar && !seen.contains other then other :: discovered v (other :: seen) ts
      else discovered v seen ts
    | none => discovered v seen ts

end Anchor

namespace Survey

/-- One turn per waiting term. A term that finds no triple left stops the search, and so do triples
that are left when nobody waits. Every turn takes triples out of the pool. -/
def run (pool : List Triple) (seen : List Term) : List Term → Survey
  | [] => ⟨[], if pool = [] then none else some (.unreachable pool)⟩
  | v :: waiting =>
    if _h : Anchor.taken v pool = [] then ⟨[], some (.unanchored v)⟩
    else
      let found := Anchor.discovered v seen (Anchor.taken v pool)
      let rest := run (Anchor.left v pool) (seen ++ found) (waiting ++ found)
      ⟨⟨v, Anchor.taken v pool⟩ :: rest.anchors, rest.fault⟩
termination_by pool.length
decreasing_by exact Anchor.length_left_lt ‹_›

def ofRoot (root : Term) (triples : List Triple) : Survey := run triples [root] [root]

def result (survey : Survey) : Except Rejection (List Anchor) :=
  match survey.fault with
  | none => .ok survey.anchors
  | some fault => .error (.disconnected fault)

end Survey

def Anchor.ofTriples (root : Term) (triples : List Triple) : Except Rejection (List Anchor) :=
  (Survey.ofRoot root triples).result

end LogicalForm
