import LogicalForm.Suite.Report
import Mathlib.Data.List.Basic

/-!
# What a report says

A report is written result by result, and its counts run along with its lines. Each result adds its own line and counts
once, so at the end the counts are those of the results. A date stands at the start of a line and nowhere else.
-/

namespace LogicalForm.Report
set_option autoImplicit false

/-- What follows the date on the line of a result. -/
def entry (result : CaseResult) : String :=
  match result.failure with
  | none => "\t" ++ result.name ++ "\tpassed\n"
  | some text => "\t" ++ result.name ++ "\tfailed\t" ++ flatten text ++ "\n"

theorem line_eq_entry (dated : DatedResult) : line dated = dated.date.text ++ entry dated.result := by
  rw [line, entry]
  cases dated.result.failure <;> simp [String.append_assoc]

def closing (results : List DatedResult) : String :=
  toString (results.countP (·.result.failure.isNone)) ++ " of " ++ toString results.length ++ " cases passed"

/-- The draft has the lines of the results and their counts. -/
structure Draft.Reports (draft : Draft) (results : List DatedResult) : Prop where
  lines : draft.lines = String.join (results.map line)
  passed : draft.passed = results.countP (·.result.failure.isNone)
  total : draft.total = results.length

theorem Draft.Reports.next {draft : Draft} {results : List DatedResult} (h : draft.Reports results)
    (dated : DatedResult) : (draft.next dated).Reports (results ++ [dated]) := by
  constructor
  · rw [Draft.next, h.lines, List.map_append, List.map_singleton, String.join_append, String.join_cons,
      String.join_nil, String.append_empty]
  · rw [Draft.next, h.passed, List.countP_append, List.countP_singleton]
    split <;> rfl
  · rw [Draft.next, h.total, List.length_append, List.length_singleton]

theorem Draft.Reports.foldl {draft : Draft} {results : List DatedResult} (h : draft.Reports results)
    (more : List DatedResult) : (more.foldl Draft.next draft).Reports (results ++ more) := by
  induction more generalizing draft results with
  | nil => rwa [List.append_nil]
  | cons dated more ih =>
    have hNext := ih (h.next dated)
    rwa [List.append_assoc] at hNext

theorem text_eq (results : List DatedResult) :
    text results = String.join (results.map line) ++ (closing results ++ "\n") := by
  have hEmpty : Draft.Reports {} [] := ⟨rfl, rfl, rfl⟩
  have hDraft := hEmpty.foldl results
  rw [List.nil_append] at hDraft
  have hClosing : closing results ++ "\n" = toString (results.countP (·.result.failure.isNone)) ++ " of " ++
      toString results.length ++ (" cases passed" ++ "\n") := String.append_assoc
  simp only [text, hDraft.lines, hDraft.passed, hDraft.total]
  rw [hClosing]
  rfl

/-- The dates of a report stand at the start of its lines, and the last line has none. -/
theorem exists_text_eq (results : List CaseResult) :
    ∃ closing, ∀ clock : Nat → Stamp, text (results.mapIdx fun i result => ⟨result, clock i⟩) =
      String.join (results.mapIdx fun i result => (clock i).text ++ entry result) ++ closing := by
  refine ⟨toString (results.countP (·.failure.isNone)) ++ " of " ++ toString results.length ++ " cases passed" ++ "\n",
    fun clock => ?_⟩
  have hResults : (results.mapIdx fun i result => (⟨result, clock i⟩ : DatedResult)).map DatedResult.result =
      results := List.ext_getElem (by simp) (by simp)
  have hPassed : (results.mapIdx fun i result => (⟨result, clock i⟩ : DatedResult)).countP
      (·.result.failure.isNone) = results.countP (·.failure.isNone) := by
    conv_rhs => rw [← hResults, List.countP_map]
    rfl
  have hLines : (results.mapIdx fun i result => (⟨result, clock i⟩ : DatedResult)).map line =
      results.mapIdx fun i result => (clock i).text ++ entry result :=
    List.ext_getElem (by simp) (by simp [line_eq_entry])
  rw [text_eq, hLines, closing, hPassed, List.length_mapIdx]

end LogicalForm.Report
