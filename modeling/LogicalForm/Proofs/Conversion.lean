import LogicalForm.Conversion
import LogicalForm.Proofs.Acceptance
import LogicalForm.Proofs.Template
import LogicalForm.Proofs.Validation

/-!
# What a conversion hands on

The outcome of a conversion is that of its four steps, whatever is told on the way. A form that comes out of
them is never a bare name, so it is written in parentheses. That is how a reader of the written outcomes tells
a form from a rejection: a sentinel that does not open a parenthesis is not the text of any form, and a
validator that knows the sentinel runs the forms and nothing else.
-/

namespace LogicalForm
set_option autoImplicit false

section Outcome

theorem Traced.outcome_andThen {α β : Type} (step : Traced α) (next : α → Traced β) :
    (step.andThen next).outcome = step.outcome >>= fun value => (next value).outcome := by
  rw [andThen]
  cases step.outcome <;> rfl

namespace Query

variable (d : Dialect)

theorem outcome_convertTriples (condition : Condition) (triples : List Triple) :
    (convertTriples d condition triples).outcome =
      Anchor.ofTriples d.answerTerm triples >>= Form.ofAnchors condition := by
  rw [convertTriples, Traced.outcome_andThen]
  apply bind_congr
  intro anchors
  split
  · rename_i form hForm
    exact hForm.symm
  · rename_i cause hForm
    exact hForm.symm

theorem convert_eq_ok_iff {q : Query} {form : Form} :
    (q.convert d).outcome = .ok form ↔ ∃ reduced triples anchors, Reduced.ofText d q.text = .ok reduced ∧
      Triple.ofLines d reduced.body = .ok triples ∧ Anchor.ofTriples d.answerTerm triples = .ok anchors ∧
      Form.ofAnchors reduced.condition anchors = .ok form := by
  simp only [convert, Traced.outcome_andThen, outcome_convertTriples, bind_eq_ok, exists_and_left]

theorem outcome_attempt (q : Query) : (q.attempt d).outcome = (q.convert d).outcome := by
  rw [attempt]
  split <;> rfl

/-- What is written for a query that has a form. -/
def rendering? (q : Query) : Option String := (q.convert d).outcome.toOption.map Form.render

theorem render_eq_getD (q : Query) : q.render d = (q.rendering? d).getD d.sentinel := by
  rw [render, outcome_attempt, rendering?]
  cases (q.convert d).outcome <;> rfl

theorem rendering?_eq_none_iff (q : Query) :
    q.rendering? d = none ↔ ∃ cause, (q.convert d).outcome = .error cause := by
  rw [rendering?]
  cases (q.convert d).outcome <;> simp [Except.toOption]

theorem rendering?_eq_some_iff (q : Query) (text : String) :
    q.rendering? d = some text ↔ ∃ form, (q.convert d).outcome = .ok form ∧ form.render = text := by
  rw [rendering?]
  cases (q.convert d).outcome <;> simp [Except.toOption]

end Query

end Outcome

section Parentheses

namespace Form

/-- A form with an operator at its top. -/
def IsCompound : Form → Prop
  | atom _ => False
  | join _ _ | inverse _ _ | and _ _ | extreme _ _ _ => True

theorem isCompound_clause (t : Triple) (v : Term) (operand : Form) : (t.clause v operand).IsCompound := by
  rw [Triple.clause]
  split <;> trivial

theorem isCompound_conjoin {seed : Form} (h : seed.IsCompound) (parts : List Form) :
    (conjoin seed parts).IsCompound := by
  induction parts generalizing seed with
  | nil => exact h
  | cons part parts ih =>
    have hAnd : (and part seed).IsCompound := trivial
    exact ih hAnd

theorem isCompound_apply {form : Form} (h : form.IsCompound) (condition : Condition) (v : Term) :
    (condition.apply v form).IsCompound := by
  rw [Condition.apply]
  split
  · cases condition with
    | none => exact h
    | superlative direction pivot relation | range pivot relation year => trivial
  · exact h

theorem isCompound_of_ofAnchor {known : Clauses} {anchor : Anchor} {form : Form}
    (h : known.ofAnchor anchor = .ok form) : form.IsCompound := by
  obtain ⟨seed, parts, rfl, hParts⟩ := Clauses.ofAnchor_eq_ok_iff.mp h
  obtain ⟨t, _, hSeed, _, _⟩ := List.forall₂_cons_right_iff.mp hParts
  obtain ⟨w, operand, _, _, rfl⟩ := Clauses.ofTriple_eq_ok_iff.mp hSeed
  exact isCompound_conjoin (isCompound_clause t anchor.term operand) parts

theorem isCompound_of_ofAnchors {condition : Condition} {anchors : List Anchor} {form : Form}
    (h : ofAnchors condition anchors = .ok form) : form.IsCompound := by
  obtain ⟨_, v, known, hTable⟩ := ofAnchors_eq_ok_iff.mp h
  cases anchors with
  | nil => cases hTable
  | cons anchor rest =>
    obtain ⟨later, clause, _, hClause, hEntry⟩ := Clauses.ofAnchors_cons_eq_ok_iff.mp hTable
    cases hEntry
    exact isCompound_apply (isCompound_of_ofAnchor hClause) condition anchor.term

theorem IsCompound.render_eq {form : Form} (h : form.IsCompound) : ∃ inner, form.render = "(" ++ inner ++ ")" := by
  cases form with
  | atom name => cases h
  | join relation argument =>
    exact ⟨"JOIN " ++ relation ++ " " ++ argument.render, by simp [render, ← String.append_assoc]⟩
  | inverse relation argument =>
    exact ⟨"JOIN (R " ++ relation ++ ") " ++ argument.render, by simp [render, ← String.append_assoc]⟩
  | and left right =>
    exact ⟨"AND " ++ left.render ++ " " ++ right.render, by simp [render, ← String.append_assoc]⟩
  | extreme direction body relation =>
    exact ⟨direction.operator ++ " " ++ body.render ++ " " ++ relation, by simp [render, ← String.append_assoc]⟩

end Form

theorem Query.isCompound_of_convert {d : Dialect} {q : Query} {form : Form}
    (h : (q.convert d).outcome = .ok form) : form.IsCompound := by
  obtain ⟨reduced, triples, anchors, _, _, _, hForm⟩ := (convert_eq_ok_iff d).mp h
  exact Form.isCompound_of_ofAnchors hForm

theorem Query.rendering?_ne_some {d : Dialect} {text : String} (hText : Text.startsWith "(" text = false)
    (q : Query) : q.rendering? d ≠ some text := by
  intro h
  obtain ⟨form, hForm, rfl⟩ := (q.rendering?_eq_some_iff d text).mp h
  obtain ⟨inner, hInner⟩ := (isCompound_of_convert hForm).render_eq
  rw [hInner, String.append_assoc, Text.startsWith_append] at hText
  cases hText

end Parentheses

section Sentinel

variable {d : Dialect} (hSentinel : Text.startsWith "(" d.sentinel = false)
include hSentinel

theorem Query.render_ne_sentinel_iff (q : Query) : q.render d ≠ d.sentinel ↔ (q.rendering? d).isSome = true := by
  rw [render_eq_getD]
  cases hRendering : q.rendering? d with
  | none => simp
  | some text =>
    refine iff_of_true ?_ rfl
    rintro rfl
    exact rendering?_ne_some hSentinel q hRendering

theorem Query.filter_render (queries : List Query) :
    (queries.map (render d)).filter (· != d.sentinel) = queries.filterMap (rendering? d) := by
  induction queries with
  | nil => rfl
  | cons q queries ih =>
    rw [List.map_cons, List.filter_cons, ih, List.filterMap_cons]
    simp only [bne_iff_ne, render_ne_sentinel_iff hSentinel]
    rw [render_eq_getD]
    cases rendering? d q <;> rfl

end Sentinel

/-- The written form that an event tells to have been run. -/
def ValidationEvent.executed? : ValidationEvent → Option String
  | yielded expression _ | failed expression _ => some expression
  | dropped _ | kept _ => none

/-- The events that tell how a form was run. -/
def ValidationEvent.executions (events : List ValidationEvent) : List ValidationEvent :=
  events.filter (·.executed?.isSome)

namespace Validator

open ValidationEvent (executions)

variable (v : Validator)

theorem executed?_executionEvent (expression : String) :
    (v.executionEvent expression).executed? = some expression := by
  rw [executionEvent]
  split <;> rfl

theorem executions_candidateEvents (c : Candidate) :
    executions (v.candidateEvents c) = ([c.expression].filter v.runs).map v.executionEvent := by
  have hDropped : executions (if v.accepts c.expression c.gold then [] else [.dropped c.id]) = [] := by
    split <;> rfl
  have hRun : executions (v.validationEvents c.expression) = ([c.expression].filter v.runs).map v.executionEvent := by
    rw [validationEvents]
    cases hRuns : v.runs c.expression with
    | true => simp [executions, hRuns, executed?_executionEvent]
    | false => simp [executions, hRuns]
  rw [executions] at hDropped hRun ⊢
  rw [candidateEvents, List.filter_append, hRun, hDropped, List.append_nil]

/-- Each text that is run has its event, in the order of the candidates. -/
theorem executions_keepEvents (candidates : List Candidate) :
    executions (v.keepEvents candidates) =
      ((candidates.map Candidate.expression).filter v.runs).map v.executionEvent := by
  have hAll : executions (candidates.flatMap v.candidateEvents) =
      ((candidates.map Candidate.expression).filter v.runs).map v.executionEvent := by
    induction candidates with
    | nil => rfl
    | cons c candidates ih =>
      have hFirst := v.executions_candidateEvents c
      rw [executions] at ih hFirst ⊢
      rw [List.flatMap_cons, List.filter_append, ih, hFirst, ← List.map_append, ← List.filter_append]
      rfl
  rw [executions] at hAll ⊢
  rw [keepEvents, List.filter_append, hAll]
  exact List.append_nil _

theorem executed_keepEvents (candidates : List Candidate) :
    (v.keepEvents candidates).filterMap ValidationEvent.executed? =
      (candidates.map Candidate.expression).filter v.runs := by
  have hSame : (executions (v.keepEvents candidates)).filterMap ValidationEvent.executed? =
      (v.keepEvents candidates).filterMap ValidationEvent.executed? := by
    rw [executions, List.filterMap_filter]
    refine List.filterMap_congr fun event _ => ?_
    cases event.executed? <;> rfl
  rw [← hSame, executions_keepEvents, List.filterMap_map]
  simp only [Function.comp_def, executed?_executionEvent, List.filterMap_some]

theorem forall₂_tells_keepEvents (candidates : List Candidate) :
    List.Forall₂ v.Tells ((candidates.map Candidate.expression).filter v.runs)
      (executions (v.keepEvents candidates)) := by
  rw [executions_keepEvents, List.forall₂_map_right_iff, List.forall₂_same]
  exact fun expression _ => v.tells_executionEvent expression

/-- Nothing is asked about a text that is not run, so another way to make queries that agrees on the texts that
are run gives the same events and keeps the same candidates. -/
theorem keepEvents_congr {queryOf : String → Except ExecutionFault String} {candidates : List Candidate}
    (h : ∀ expression ∈ (candidates.map Candidate.expression).filter v.runs,
      queryOf expression = v.queryOf expression) :
    { v with queryOf }.keepEvents candidates = v.keepEvents candidates ∧
      { v with queryOf }.keep candidates = v.keep candidates := by
  have hExecute : ∀ c ∈ candidates, v.runs c.expression = true →
      { v with queryOf }.execute c.expression = v.execute c.expression := by
    intro c hc hRuns
    have hSame := h c.expression (List.mem_filter.mpr ⟨List.mem_map_of_mem hc, hRuns⟩)
    simp only [execute, hSame]
  have hAccepts : ∀ c ∈ candidates,
      { v with queryOf }.accepts c.expression c.gold = v.accepts c.expression c.gold := by
    intro c hc
    show (v.runs c.expression && _) = (v.runs c.expression && _)
    cases hRuns : v.runs c.expression with
    | true => simp only [answers, hExecute c hc hRuns]
    | false => rfl
  have hEvents : ∀ c ∈ candidates, { v with queryOf }.candidateEvents c = v.candidateEvents c := by
    intro c hc
    rw [candidateEvents, candidateEvents, hAccepts c hc]
    congr 1
    show (if v.runs c.expression then _ else _) = if v.runs c.expression then _ else _
    cases hRuns : v.runs c.expression with
    | true => simp only [executionEvent, hExecute c hc hRuns]
    | false => rfl
  have hKeep : { v with queryOf }.keep candidates = v.keep candidates := List.filter_congr hAccepts
  refine ⟨?_, hKeep⟩
  rw [keepEvents, keepEvents, keptRate, keptRate, hKeep, List.flatMap_congr hEvents]

end Validator

/-- The sentinel tells the rejections. Whatever the dialect, a form is written in parentheses. So a sentinel that
does not open one stands for rejections only, and a validator with that sentinel runs exactly the forms of the
queries that have one: its events tell of them in their order, each of what came of asking for its query, a form is kept
by the answers to that query, and the query of no other text matters. -/
theorem Query.render_eq_sentinel_iff (d : Dialect) :
    (∀ (q : Query) (form : Form), (q.convert d).outcome = .ok form → ∃ inner, form.render = "(" ++ inner ++ ")") ∧
    (Text.startsWith "(" d.sentinel = false →
      (∀ q : Query, q.render d = d.sentinel ↔ ∃ cause, (q.convert d).outcome = .error cause) ∧
      ∀ v : Validator, v.sentinel = d.sentinel → ∀ (queries : List Query) (candidates : List Candidate),
        candidates.map Candidate.expression = queries.map (render d) →
        (v.keepEvents candidates).filterMap ValidationEvent.executed? = queries.filterMap (rendering? d) ∧
        List.Forall₂ v.Tells (queries.filterMap (rendering? d)) (ValidationEvent.executions (v.keepEvents candidates)) ∧
        (∀ c ∈ candidates, c ∈ v.keep candidates ↔ c.expression ∈ queries.filterMap (rendering? d) ∧
          ∃ answers, v.Finds c.expression answers ∧ ∀ a, a ∈ answers ↔ a ∈ c.gold) ∧
        ∀ queryOf : String → Except ExecutionFault String,
          (∀ expression ∈ queries.filterMap (rendering? d), queryOf expression = v.queryOf expression) →
          { v with queryOf }.keepEvents candidates = v.keepEvents candidates ∧
            { v with queryOf }.keep candidates = v.keep candidates) := by
  refine ⟨fun q form h => (isCompound_of_convert h).render_eq, fun hSentinel => ⟨fun q => ?_, ?_⟩⟩
  · rw [← rendering?_eq_none_iff, ← Option.not_isSome_iff_eq_none, ← render_ne_sentinel_iff hSentinel, not_not]
  · intro v hSame queries candidates hWritten
    have hRuns : (candidates.map Candidate.expression).filter v.runs = queries.filterMap (rendering? d) := by
      rw [hWritten, ← filter_render hSentinel, ← hSame]
      rfl
    rw [v.executed_keepEvents, ← hRuns]
    refine ⟨rfl, v.forall₂_tells_keepEvents candidates, fun c hc => ?_,
      fun queryOf hQueryOf => v.keepEvents_congr hQueryOf⟩
    have hRun : c.expression ∈ (candidates.map Candidate.expression).filter v.runs ↔ c.expression ≠ v.sentinel := by
      rw [List.mem_filter, and_iff_right (List.mem_map_of_mem hc), Validator.runs, bne_iff_ne]
    rw [Validator.mem_keep_iff, and_iff_right hc, hRun]
    rfl

/-- One query that has a form and one that is empty: only the form is run, and that it is refused a query is told. -/
theorem Query.render_eq_sentinel_iff_null :
    let query : Query := { text := Text.unlines ["SELECT DISTINCT ?x", "WHERE \x7b", "?x ns:r ns:e .", "\x7d"] }
    let empty : Query := { text := "" }
    let v : Validator := ⟨fun _ => .error (.noQuery "no"), fun _ => ⟨⟨0⟩, .ok []⟩, ⟨1⟩, "null"⟩
    let candidates : List Candidate := [⟨"a", "(JOIN r e)", []⟩, ⟨"b", "null", []⟩]
    query.render {} = "(JOIN r e)" ∧ empty.render {} = "null" ∧
      (v.keepEvents candidates).filterMap ValidationEvent.executed? = ["(JOIN r e)"] ∧
      v.Tells "(JOIN r e)" (.failed "(JOIN r e)" (.noQuery "no")) ∧
      ⟨"a", "(JOIN r e)", []⟩ ∈ v.keep candidates := by
  intro query empty v candidates
  have hYields : Reading.Yields {} ⟨[], "SELECT DISTINCT ?x", ["?x ns:r ns:e ."], ["\x7d"], ["?x ns:r ns:e ."]⟩
      ⟨["?x ns:r ns:e ."], .none⟩ :=
    ⟨Reduced.isHead_select, by decide, rfl, ⟨rfl, by decide⟩, rfl, by decide⟩
  have hForm : (query.convert {}).outcome = .ok (.join "r" (.atom "e")) := by
    refine (convert_eq_ok_iff {}).mpr ⟨_, [⟨.var "x", .entity "r", .entity "e"⟩],
      [⟨.var "x", [⟨.var "x", .entity "r", .entity "e"⟩]⟩], hYields.ofText_unlines (by decide) rfl, rfl, ?_, rfl⟩
    cbv
  have hRendering : query.rendering? {} = some "(JOIN r e)" :=
    (query.rendering?_eq_some_iff {} _).mpr ⟨_, hForm, by decide⟩
  have hEmpty : empty.rendering? {} = none := (empty.rendering?_eq_none_iff {}).mpr ⟨.structural .emptyQuery, rfl⟩
  have hQuery : query.render {} = "(JOIN r e)" := by rw [render_eq_getD, hRendering]; rfl
  obtain ⟨hRejected, hValidator⟩ := (render_eq_sentinel_iff {}).2 (by decide)
  have hNull := (hRejected empty).mpr ((empty.rendering?_eq_none_iff {}).mp hEmpty)
  have hWritten : [query, empty].map (render {}) = ["(JOIN r e)", "null"] := by
    rw [List.map_cons, List.map_singleton, hQuery, hNull]
  have hForms : [query, empty].filterMap (rendering? {}) = ["(JOIN r e)"] := by simp [hRendering, hEmpty]
  obtain ⟨hExecuted, hTells, hKept, _⟩ := hValidator v rfl [query, empty] candidates hWritten.symm
  rw [hForms] at hExecuted hTells hKept
  refine ⟨hQuery, hNull, hExecuted, ?_, ?_⟩
  · obtain ⟨event, _, hEvent, _, hEvents⟩ := List.forall₂_cons_left_iff.mp hTells
    have hFailed : event = .failed "(JOIN r e)" (.noQuery "no") := (List.cons.inj hEvents).1.symm
    rwa [hFailed] at hEvent
  · refine (hKept _ List.mem_cons_self).mpr ⟨List.mem_cons_self, [], Or.inr ⟨.noQuery rfl, rfl⟩, ?_⟩
    exact fun a => Iff.rfl

end LogicalForm
