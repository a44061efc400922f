import LogicalForm.Json.Token
import LogicalForm.Record.Basic

/-!
# Records in JSON

A record is an object with an `id`, a `query` and perhaps a `topic_entity`, or an array of the same in
this order. Other fields of an object are passed over, but a known field may not be repeated. A
converted record is written as an object again.
-/

namespace LogicalForm
set_option autoImplicit false

namespace Record

open Json (Token)

structure Fields where
  id : Option String := none
  query : Option String := none
  topic : Option (Option String) := none

def string? : Token → Option String
  | .string us => Json.decode? us
  | _ => none

def topic? : Token → Option (Option String)
  | .null => some none
  | token => (string? token).map some

def idKey : String := "id"

def queryKey : String := "query"

def topicKey : String := "topic_entity"

def value? (fields : Fields) (key : String) (tokens : List Token) : Option (Fields × List Token) :=
  if key = idKey then
    match fields.id, tokens with
    | none, token :: rest => (string? token).map fun id => (⟨some id, fields.query, fields.topic⟩, rest)
    | _, _ => none
  else if key = queryKey then
    match fields.query, tokens with
    | none, token :: rest => (string? token).map fun query => (⟨fields.id, some query, fields.topic⟩, rest)
    | _, _ => none
  else if key = topicKey then
    match fields.topic, tokens with
    | none, token :: rest => (topic? token).map fun topic => (⟨fields.id, fields.query, some topic⟩, rest)
    | _, _ => none
  else (Json.skip? [.value] tokens).map fun rest => (fields, rest)

theorem length_of_value? {fields fields' : Fields} {key : String} {tokens rest : List Token}
    (h : value? fields key tokens = some (fields', rest)) : rest.length ≤ tokens.length := by
  unfold value? at h
  split at h
  · split at h
    · obtain ⟨_, _, hEq⟩ := Option.map_eq_some_iff.mp h
      cases hEq
      exact Nat.le_succ _
    · cases h
  · split at h
    · split at h
      · obtain ⟨_, _, hEq⟩ := Option.map_eq_some_iff.mp h
        cases hEq
        exact Nat.le_succ _
      · cases h
    · split at h
      · split at h
        · obtain ⟨_, _, hEq⟩ := Option.map_eq_some_iff.mp h
          cases hEq
          exact Nat.le_succ _
        · cases h
      · obtain ⟨_, hSkip, hEq⟩ := Option.map_eq_some_iff.mp h
        cases hEq
        exact Json.length_of_skip? hSkip

def member? (fields : Fields) : List Token → Option (Fields × List Token)
  | .string key :: .colon :: tokens => (Json.decode? key).bind fun key => value? fields key tokens
  | _ => none

theorem length_of_member? {fields fields' : Fields} {tokens rest : List Token}
    (h : member? fields tokens = some (fields', rest)) : rest.length < tokens.length := by
  unfold member? at h
  split at h
  · obtain ⟨key, _, hValue⟩ := Option.bind_eq_some_iff.mp h
    have hLess := length_of_value? hValue
    simp only [List.length_cons]
    omega
  · cases h

/-- The fields of an object, after its opening brace or a comma, up to the end of the line. -/
def members? (fields : Fields) (tokens : List Token) : Option Fields :=
  match _h : member? fields tokens with
  | some (fields, [.closeObject]) => some fields
  | some (fields, .comma :: rest) => members? fields rest
  | _ => none
termination_by tokens.length
decreasing_by
  have hLess := length_of_member? ‹member? _ tokens = some _›
  simp only [List.length_cons] at hLess
  omega

def ofFields (fields : Fields) : Option Record := do
  some ⟨← fields.id, ⟨← fields.query, fields.topic.join⟩⟩

def ofTokens : List Token → Option Record
  | .openObject :: tokens => (members? {} tokens).bind ofFields
  | [.openArray, id, .comma, query, .closeArray] => do
    some ⟨← string? id, ⟨← string? query, none⟩⟩
  | [.openArray, id, .comma, query, .comma, topic, .closeArray] => do
    some ⟨← string? id, ⟨← string? query, ← topic? topic⟩⟩
  | _ => none

def ofLine? (line : String) : Option Record := (Json.tokens [] line.toList).bind ofTokens

def object (id expression : String) : String :=
  "\x7b\"id\":" ++ Json.quote id ++ ",\"expression\":" ++ Json.quote expression ++ "\x7d"

theorem isPrintable_object (id expression : String) : Json.IsPrintable (object id expression) := by
  simp only [object, Json.isPrintable_append, Json.isPrintable_quote, and_true]
  decide

def json : Codec where
  decode := ofLine?
  encode := object
  whole id expression hMem := by cases isPrintable_object id expression '\n' hMem

end Record

end LogicalForm
