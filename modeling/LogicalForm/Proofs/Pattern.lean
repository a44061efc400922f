import LogicalForm.Proofs.Text
import LogicalForm.Query.Reduced

/-!
# Triples as they are written

A triple is written as a line of three words. The line is read back as the triple that the words spell, and
nothing else can be made of it: it starts as a triple does and not as a time bound.
-/

namespace LogicalForm
set_option autoImplicit false

theorem Dialect.term_var (d : Dialect) (name : String) : d.term ("?" ++ name) = .var name := by
  rw [term, Term.read, Text.after?_eq_some_iff.mpr rfl]

/-- The words that a dialect leaves open, such that they can be told apart. -/
structure Naming where
  answer : String
  mark : String
  answer_isWord : Text.IsWord answer
  mark_isWord : Text.IsWord mark
  mark_apart : Text.startsWith "?" mark = false

namespace Naming

def dialect (n : Naming) : Dialect := { answerVariable := n.answer, namespaceMark := n.mark }

variable (n : Naming)

def header : String := "SELECT DISTINCT " ++ n.answer

theorem isLine_header : Text.IsLine n.header := by
  show Text.IsLine ("SELECT DISTINCT" ++ " " ++ n.answer)
  exact Text.IsLine.append (by decide) (by decide) n.answer_isWord.isLine

theorem not_declares_header : Text.startsWith Block.declarationMark n.header = false := by
  show Text.startsWith "PREFIX" ("SELECT DISTINCT " ++ n.answer) = false
  rw [Text.startsWith, String.toList_append]
  rfl

theorem selects_header : Block.selects n.dialect n.header = true := by
  have hAfter : Text.after? Block.selectMark n.header = some (" " ++ n.answer) := by
    rw [Text.after?_eq_some_iff, ← String.append_assoc]
    rfl
  rw [Block.selects, hAfter]
  simp only [Text.words_blank_append, Text.words_of_isWord n.answer_isWord]
  exact beq_self_eq_true [n.answer]

theorem mark_toList : ∃ c cs, n.mark.toList = c :: cs ∧ c ≠ '?' := by
  obtain ⟨c, cs, hList⟩ := List.exists_cons_of_ne_nil n.mark_isWord.1
  refine ⟨c, cs, hList, ?_⟩
  rintro rfl
  have hApart := n.mark_apart
  rw [← Bool.not_eq_true, Text.startsWith_iff_head? '?' rfl, hList] at hApart
  exact hApart rfl

theorem term_mark (name : String) : n.dialect.term (n.mark ++ name) = .entity name := by
  have hApart : Text.after? "?" (n.mark ++ name) = none := by
    rw [Text.after?_eq_none_iff, ← Bool.not_eq_true, Text.startsWith_iff_head? '?' rfl]
    obtain ⟨c, cs, hList, hc⟩ := n.mark_toList
    rw [String.toList_append, hList]
    simpa using hc
  rw [Dialect.term, Term.read, hApart]
  simp only [dialect, Text.after?_eq_some_iff.mpr rfl]

/-- How a term is written. -/
inductive Spells : String → Term → Prop where
  | var (name : String) : Spells ("?" ++ name) (.var name)
  | entity (name : String) : Spells (n.mark ++ name) (.entity name)
  | literal {word : String} (hVar : Text.startsWith "?" word = false)
      (hEntity : Text.startsWith n.mark word = false) : Spells word (.literal word)

theorem spells_term (word : String) : n.Spells word (n.dialect.term word) := by
  rw [Dialect.term, Term.read]
  split
  · rename_i name hName
    rw [Text.after?_eq_some_iff.mp hName]
    exact .var name
  · rename_i hVar
    split
    · rename_i name hName
      rw [Text.after?_eq_some_iff.mp hName]
      exact .entity name
    · rename_i hEntity
      exact .literal (Text.after?_eq_none_iff.mp hVar) (Text.after?_eq_none_iff.mp hEntity)

theorem localName_mark (name : String) : n.dialect.localName (n.mark ++ name) = name := by
  simp only [Dialect.localName, dialect, Text.after?_eq_some_iff.mpr rfl, Option.getD_some]

end Naming

theorem Triple.unterminated?_append (body : String) : unterminated? (body ++ " .") = some (body ++ " ") := by
  have hReverse : (body ++ " .").toList.reverse = '.' :: ' ' :: body.toList.reverse := by
    rw [String.toList_append, List.reverse_append]
    rfl
  have hBlank : Text.isBlank ' ' = true := by decide
  simp only [unterminated?, hReverse, hBlank, if_true, Option.some.injEq, ← String.toList_inj]
  simp

/-- A triple of words. Its relation has the mark of the namespace, its subject that or the one of variables. -/
structure Pattern (n : Naming) where
  subject : String
  name : String
  object : String
  subject_isWord : Text.IsWord subject
  relation_isWord : Text.IsWord (n.mark ++ name)
  object_isWord : Text.IsWord object
  subject_starts : Text.startsWith "?" subject = true ∨ Text.startsWith n.mark subject = true

namespace Pattern

variable {n : Naming} (p : Pattern n)

def line : String := p.subject ++ " " ++ (n.mark ++ p.name) ++ " " ++ p.object ++ " ."

def triple : Triple := ⟨n.dialect.term p.subject, .entity p.name, n.dialect.term p.object⟩

/-- The words of the pattern write the terms of the triple. -/
def Spells (t : Triple) : Prop :=
  n.Spells p.subject t.subject ∧ n.Spells (n.mark ++ p.name) t.relation ∧ n.Spells p.object t.object

theorem spells_triple : p.Spells p.triple := ⟨n.spells_term p.subject, .entity p.name, n.spells_term p.object⟩

theorem contains_object_line : Text.contains p.object p.line = true :=
  Text.contains_eq_true_iff.mpr ⟨p.subject ++ " " ++ (n.mark ++ p.name) ++ " ", " .", rfl⟩

theorem isLine_line : Text.IsLine p.line := by
  have hMiddle : '\n' ∉ (" " ++ (n.mark ++ p.name) ++ " " ++ p.object ++ " ").toList := by
    have hRelation := p.relation_isWord.whole
    rw [String.toList_append, List.mem_append, not_or] at hRelation
    simp [hRelation, p.object_isWord.whole]
  have hLine := p.subject_isWord.isLine.append hMiddle (by decide : Text.IsLine ".")
  simpa only [line, String.append_assoc, String.reduceAppend] using hLine

theorem words_line (last : String) :
    Text.words (p.subject ++ " " ++ (n.mark ++ p.name) ++ " " ++ p.object ++ " " ++ last) =
      p.subject :: (n.mark ++ p.name) :: p.object :: Text.words last := by
  have hParts : p.subject ++ " " ++ (n.mark ++ p.name) ++ " " ++ p.object ++ " " ++ last =
      p.subject ++ " " ++ (n.mark ++ p.name ++ " " ++ (p.object ++ " " ++ last)) := by
    simp only [String.append_assoc]
  rw [hParts, Text.words_append_blank p.subject_isWord, Text.words_append_blank p.relation_isWord,
    Text.words_append_blank p.object_isWord]

theorem ofLine_line : Triple.ofLine n.dialect p.line = .ok p.triple := by
  have hWords := p.words_line ""
  rw [String.append_empty, Text.words_empty] at hWords
  simp only [Triple.ofLine, p.isLine_line.trimmed]
  rw [line, Triple.unterminated?_append]
  simp only [hWords, Triple.ofWords, n.term_mark]
  rfl

theorem ofLines_line (ps : List (Pattern n)) :
    Triple.ofLines n.dialect (ps.map line) = .ok (ps.map triple) := by
  rw [Triple.ofLines]
  induction ps with
  | nil => rfl
  | cons p ps ih => rw [List.map_cons, List.mapM_cons, ofLine_line, ih]; rfl

theorem startsTriple_line : Reduced.startsTriple n.dialect p.line = true := by
  have hStart : ∀ {start : String}, Text.startsWith start p.subject = true →
      Text.startsWith start p.line = true := by
    intro start h
    simp only [line, String.append_assoc]
    exact Text.startsWith_append_of_startsWith h _
  rw [Reduced.startsTriple, Bool.or_eq_true]
  exact p.subject_starts.imp hStart hStart

/-- A triple is not taken for a time bound. The first two words of a bound start with different letters, so they
are not a subject and a relation of one namespace. -/
theorem not_guard_line : Text.startsWith Block.guardMark p.line = false := by
  rw [← Bool.not_eq_true]
  intro h
  obtain ⟨rest, hRest⟩ := Text.startsWith_eq_true_iff.mp h
  have hParts : Block.guardMark ++ rest = "FILTER(NOT" ++ " " ++ ("EXISTS" ++ " " ++ ("\x7b?" ++ rest)) := by
    simp only [Block.guardMark, ← String.append_assoc, String.reduceAppend]
  have hWords := p.words_line "."
  have hLine : p.line = p.subject ++ " " ++ (n.mark ++ p.name) ++ " " ++ p.object ++ " " ++ "." := by
    simp only [line, String.append_assoc, String.reduceAppend]
  rw [← hLine, hRest, hParts, Text.words_append_blank (by decide), Text.words_append_blank (by decide)] at hWords
  obtain ⟨hSubject, hMore⟩ := List.cons.inj hWords
  obtain ⟨hRelation, _⟩ := List.cons.inj hMore
  obtain ⟨c, cs, hMark, _⟩ := n.mark_toList
  have hE : 'E' = c := by
    have hHead := congrArg (fun s => s.toList.head?) hRelation
    simp only [String.toList_append, hMark] at hHead
    exact Option.some.inj hHead
  have hStarts := p.subject_starts
  rw [← hSubject, Text.startsWith, Text.startsWith, hMark, ← hE] at hStarts
  rcases hStarts with hVar | hMarked
  · cases hVar
  · cases hMarked

end Pattern

end LogicalForm
