import LogicalForm.Term

/-!
# Triples

A triple pattern: a relation between a subject and an object. A term touches a triple at either end,
and the opposite end is where a search goes on from there.
-/

namespace LogicalForm
set_option autoImplicit false

structure Triple where
  subject : Term
  relation : Term
  object : Term
  deriving DecidableEq, Repr, Inhabited

namespace Triple

def text (t : Triple) : String :=
  "(" ++ t.subject.text ++ " " ++ t.relation.text ++ " " ++ t.object.text ++ ")"

def touches (t : Triple) (v : Term) : Bool := t.subject == v || t.object == v

/-- The end of the triple that is not `v`. In a triple from `v` to itself it is `v`. -/
def opposite? (t : Triple) (v : Term) : Option Term :=
  if t.subject = v then some t.object
  else if t.object = v then some t.subject
  else none

theorem touches_eq_true_iff {t : Triple} {v : Term} :
    t.touches v = true ↔ t.subject = v ∨ t.object = v := by
  simp [touches]

theorem isSome_opposite? (t : Triple) (v : Term) : (t.opposite? v).isSome = t.touches v := by
  rw [opposite?, touches]
  by_cases hSubject : t.subject = v <;> by_cases hObject : t.object = v <;> simp [hSubject, hObject]

end Triple

end LogicalForm
