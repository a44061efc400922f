import LogicalForm.Text.Basic

/-!
# Queries

A query is a text, with the entity that its question is about where that is known.
-/

namespace LogicalForm
set_option autoImplicit false

structure Query where
  text : String
  topicEntity : Option String := none
  deriving DecidableEq, Repr, Inhabited

namespace Query

/-- The first word of the namespace whose name starts with `m.`, as the names of entities do. -/
def mentioned? (namespaceMark text : String) : Option String :=
  ((Text.words text).filterMap (Text.after? namespaceMark)).find? (Text.startsWith "m.")

def topic? (namespaceMark : String) (q : Query) : Option String :=
  q.topicEntity <|> mentioned? namespaceMark q.text

end Query

end LogicalForm
