import LogicalForm.Validation.Playback
import Mathlib.Data.List.Forall2
import Mathlib.Data.List.Basic

/-!
# Which candidates are kept

A candidate is confirmed if it is not the sentinel and what its form is answered has the members of its gold answers.
A form that has no query, is answered too late or is refused has no answers. Candidates are judged one by one, by
nothing but their own text and gold answers: which are kept is a matter of members, not of order or repetition, and no
candidate has a part in what becomes of another.
-/

namespace LogicalForm
set_option autoImplicit false

inductive SameAnswers : Except ExecutionFault (List String) → Except ExecutionFault (List String) → Prop
  | fault (fault : ExecutionFault) : SameAnswers (.error fault) (.error fault)
  | members {xs ys : List String} (hMembers : ∀ a, a ∈ xs ↔ a ∈ ys) : SameAnswers (.ok xs) (.ok ys)

/-- The same candidate up to the order and repetition of its gold answers. -/
structure Candidate.Alike (c c' : Candidate) : Prop where
  id : c.id = c'.id
  expression : c.expression = c'.expression
  gold : ∀ a, a ∈ c.gold ↔ a ∈ c'.gold

namespace Validator

/-- The form has a query that is answered in time. -/
def Returns (v : Validator) (expression : String) (answers : List String) : Prop :=
  ∃ query, v.queryOf expression = .ok query ∧ (v.ask query).delay.nanoseconds ≤ v.limit.nanoseconds ∧
    (v.ask query).answers = .ok answers

/-- The three ways in which a form cannot be run. -/
inductive Fails (v : Validator) (expression : String) : Prop
  | noQuery {fault : ExecutionFault} (hNone : v.queryOf expression = .error fault)
  | late {query : String} (hQuery : v.queryOf expression = .ok query)
      (hLate : v.limit.nanoseconds < (v.ask query).delay.nanoseconds)
  | refused {query : String} {fault : ExecutionFault} (hQuery : v.queryOf expression = .ok query)
      (hRefused : (v.ask query).answers = .error fault)

/-- What is told of a form that is run. Its query is asked for first, and a fault there or in the reply is passed on. -/
inductive Tells (v : Validator) (expression : String) : ValidationEvent → Prop
  | noQuery {fault : ExecutionFault} (hNone : v.queryOf expression = .error fault) :
    Tells v expression (.failed expression fault)
  | late {query : String} (hQuery : v.queryOf expression = .ok query)
      (hLate : v.limit.nanoseconds < (v.ask query).delay.nanoseconds) :
    Tells v expression (.failed expression (.timedOut v.limit))
  | refused {query : String} {fault : ExecutionFault} (hQuery : v.queryOf expression = .ok query)
      (hTime : (v.ask query).delay.nanoseconds ≤ v.limit.nanoseconds)
      (hRefused : (v.ask query).answers = .error fault) :
    Tells v expression (.failed expression fault)
  | answered {answers : List String} (hReturns : v.Returns expression answers) :
    Tells v expression (.yielded expression answers.length)

/-- What a form is found to be answered: nothing, if it cannot be run. -/
def Finds (v : Validator) (expression : String) (answers : List String) : Prop :=
  v.Returns expression answers ∨ v.Fails expression ∧ answers = []

/-- The form is found to be answered as it should. -/
def Confirms (v : Validator) (c : Candidate) : Prop :=
  c.expression ≠ v.sentinel ∧ ∃ answers, v.Finds c.expression answers ∧ ∀ a, a ∈ answers ↔ a ∈ c.gold

/-- The same validator up to the order and repetition of the answers that it is given. -/
structure Alike (v v' : Validator) : Prop where
  sentinel : v.sentinel = v'.sentinel
  limit : v.limit = v'.limit
  queryOf : v.queryOf = v'.queryOf
  delay : ∀ query, (v.ask query).delay = (v'.ask query).delay
  answers : ∀ query, SameAnswers (v.ask query).answers (v'.ask query).answers

def AgreesOn (v v' : Validator) (expression : String) : Prop :=
  v'.queryOf expression = v.queryOf expression ∧
    ∀ query, v.queryOf expression = .ok query → v'.ask query = v.ask query

variable {v v' : Validator} {expression : String} {c : Candidate} {cs : List Candidate}

section Execution

theorem execute_of_returns {answers : List String} (h : v.Returns expression answers) :
    v.execute expression = .ok answers := by
  obtain ⟨query, hQuery, hTime, hAnswers⟩ := h
  simp only [execute, hQuery, hAnswers, if_neg (Nat.not_lt.mpr hTime)]

theorem exists_fault_of_fails (h : v.Fails expression) : ∃ fault, v.execute expression = .error fault := by
  rw [execute]
  cases h with
  | noQuery hNone =>
    rw [hNone]
    exact ⟨_, rfl⟩
  | late hQuery hLate =>
    simp only [hQuery, if_pos hLate]
    exact ⟨_, rfl⟩
  | refused hQuery hRefused =>
    -- A refusal that comes too late is not heard any more.
    simp only [hQuery, hRefused]
    split <;> exact ⟨_, rfl⟩

theorem returns_or_fails (v : Validator) (expression : String) :
    (∃ answers, v.Returns expression answers) ∨ v.Fails expression := by
  cases hQuery : v.queryOf expression with
  | error fault => exact Or.inr (.noQuery hQuery)
  | ok query =>
    by_cases hLate : v.limit.nanoseconds < (v.ask query).delay.nanoseconds
    · exact Or.inr (.late hQuery hLate)
    · cases hAnswers : (v.ask query).answers with
      | error fault => exact Or.inr (.refused hQuery hAnswers)
      | ok answers => exact Or.inl ⟨answers, query, hQuery, Nat.not_lt.mp hLate, hAnswers⟩

theorem tells_executionEvent (v : Validator) (expression : String) :
    v.Tells expression (v.executionEvent expression) := by
  rw [executionEvent, execute]
  cases hQuery : v.queryOf expression with
  | error fault => exact .noQuery hQuery
  | ok query =>
    by_cases hLate : v.limit.nanoseconds < (v.ask query).delay.nanoseconds
    · simp only [if_pos hLate]
      exact .late hQuery hLate
    · simp only [if_neg hLate]
      have hTime := Nat.not_lt.mp hLate
      cases hAnswers : (v.ask query).answers with
      | error fault => exact .refused hQuery hTime hAnswers
      | ok answers => exact .answered ⟨query, hQuery, hTime, hAnswers⟩

theorem answers_of_returns {answers : List String} (h : v.Returns expression answers) :
    v.answers expression = answers := by
  rw [Validator.answers, execute_of_returns h]

theorem answers_of_fails (h : v.Fails expression) : v.answers expression = [] := by
  obtain ⟨fault, hFault⟩ := exists_fault_of_fails h
  rw [Validator.answers, hFault]

/-- Every form is found to be answered in one way. -/
theorem finds_iff {answers : List String} : v.Finds expression answers ↔ v.answers expression = answers := by
  constructor
  · rintro (hReturns | ⟨hFails, rfl⟩)
    · exact answers_of_returns hReturns
    · exact answers_of_fails hFails
  · rintro rfl
    rcases v.returns_or_fails expression with ⟨answers, hReturns⟩ | hFails
    · rw [answers_of_returns hReturns]
      exact Or.inl hReturns
    · exact Or.inr ⟨hFails, answers_of_fails hFails⟩

theorem accepts_iff_confirms : v.accepts c.expression c.gold = true ↔ v.Confirms c := by
  simp only [accepts, runs, Bool.and_eq_true, bne_iff_ne, sameMembers_eq_true_iff, Confirms, finds_iff,
    exists_eq_left']

theorem confirms_of_fails (hRuns : c.expression ≠ v.sentinel) (hFails : v.Fails c.expression) :
    v.Confirms c ↔ c.gold = [] := by
  have hNone : v.answers c.expression = [] := answers_of_fails hFails
  simp only [Confirms, finds_iff, hRuns, hNone, ne_eq, not_false_iff, true_and, exists_eq_left', List.not_mem_nil,
    false_iff, List.eq_nil_iff_forall_not_mem]

end Execution

section Keeping

theorem keep_append (cs ds : List Candidate) : v.keep (cs ++ ds) = v.keep cs ++ v.keep ds := List.filter_append cs ds

theorem keep_cons (c : Candidate) (cs : List Candidate) : v.keep (c :: cs) = v.keep [c] ++ v.keep cs :=
  keep_append [c] cs

theorem mem_keep_iff : c ∈ v.keep cs ↔ c ∈ cs ∧ v.Confirms c := by
  rw [keep, List.mem_filter, accepts_iff_confirms]

theorem count_keep_of_confirms (h : v.Confirms c) : (v.keep cs).count c = cs.count c :=
  List.count_filter (accepts_iff_confirms.mpr h)

theorem keep_of_confirms (h : v.Confirms c) : v.keep [c] = [c] :=
  List.filter_cons_of_pos (accepts_iff_confirms.mpr h)

theorem keep_of_not_confirms (h : ¬ v.Confirms c) : v.keep [c] = [] :=
  List.filter_cons_of_neg (mt accepts_iff_confirms.mp h)

theorem eq_keep_iff {kept : List Candidate} :
    kept = v.keep cs ↔ kept.Sublist cs ∧ (∀ c ∈ kept, v.Confirms c) ∧
      ∀ c, v.Confirms c → kept.count c = cs.count c := by
  constructor
  · rintro rfl
    exact ⟨List.filter_sublist, fun c hc => (mem_keep_iff.mp hc).2, fun c hc => count_keep_of_confirms hc⟩
  · rintro ⟨hSublist, hConfirmed, hCount⟩
    have hKept : kept.Sublist (v.keep cs) := by
      have hAll : v.keep kept = kept :=
        List.filter_eq_self.mpr fun c hc => accepts_iff_confirms.mpr (hConfirmed c hc)
      rw [← hAll]
      exact hSublist.filter _
    have hPerm : kept.Perm (v.keep cs) := by
      rw [List.perm_iff_count]
      intro c
      by_cases hc : v.Confirms c
      · rw [hCount c hc, count_keep_of_confirms hc]
      · rw [List.count_eq_zero.mpr fun hMem => hc (hConfirmed c hMem),
          List.count_eq_zero.mpr fun hMem => hc (mem_keep_iff.mp hMem).2]
    exact hKept.eq_of_length hPerm.length_eq

end Keeping

section Members

namespace Alike

variable (h : v.Alike v')
include h

theorem mem_answers (expression a : String) : a ∈ v.answers expression ↔ a ∈ v'.answers expression := by
  rcases v.returns_or_fails expression with ⟨answers, hReturns⟩ | hFails
  · obtain ⟨query, hQuery, hTime, hAnswers⟩ := id hReturns
    have hSame := h.answers query
    rw [hAnswers] at hSame
    cases hReply : (v'.ask query).answers with
    | error fault =>
      rw [hReply] at hSame
      cases hSame
    | ok answers' =>
      rw [hReply] at hSame
      cases hSame with
      | members hMembers =>
        have hReturns' : v'.Returns expression answers' :=
          ⟨query, by rw [← h.queryOf, hQuery], by rwa [← h.delay, ← h.limit], hReply⟩
        rw [answers_of_returns hReturns, answers_of_returns hReturns', hMembers]
  · have hFails' : v'.Fails expression := by
      cases hFails with
      | noQuery hNone => exact .noQuery (by rw [← h.queryOf, hNone])
      | late hQuery hLate =>
        rw [h.limit, h.delay] at hLate
        exact .late (by rw [← h.queryOf, hQuery]) hLate
      | @refused query fault hQuery hRefused =>
        have hSame := h.answers query
        rw [hRefused] at hSame
        cases hReply : (v'.ask query).answers with
        | error other => exact .refused (by rw [← h.queryOf, hQuery]) hReply
        | ok answers =>
          rw [hReply] at hSame
          cases hSame
    rw [answers_of_fails hFails, answers_of_fails hFails']

theorem confirms_iff {c c' : Candidate} (hc : c.Alike c') : v.Confirms c ↔ v'.Confirms c' := by
  simp only [Confirms, finds_iff, exists_eq_left', h.mem_answers, hc.expression, hc.gold, h.sentinel]

theorem forall₂_keep {cs cs' : List Candidate} (hcs : List.Forall₂ Candidate.Alike cs cs') :
    List.Forall₂ Candidate.Alike (v.keep cs) (v'.keep cs') := by
  induction hcs with
  | nil => exact .nil
  | @cons c c' cs cs' hc _ ih =>
    rw [keep_cons, keep_cons c']
    refine List.rel_append ?_ ih
    by_cases hConfirms : v.Confirms c
    · rw [keep_of_confirms hConfirms, keep_of_confirms ((h.confirms_iff hc).mp hConfirms)]
      exact .cons hc .nil
    · rw [keep_of_not_confirms hConfirms, keep_of_not_confirms (mt (h.confirms_iff hc).mpr hConfirms)]
      exact .nil

end Alike

end Members

section Isolation

theorem AgreesOn.answers_eq (h : v.AgreesOn v' expression) (hLimit : v'.limit = v.limit) :
    v'.answers expression = v.answers expression := by
  obtain ⟨hQuery, hAsk⟩ := h
  rw [answers, answers, execute, execute, hQuery]
  cases hFound : v.queryOf expression with
  | error fault => rfl
  | ok query => simp only [hAsk query hFound, hLimit]

theorem keep_of_agreesOn (hSentinel : v'.sentinel = v.sentinel) (hLimit : v'.limit = v.limit)
    (h : ∀ c ∈ cs, v.AgreesOn v' c.expression) : v'.keep cs = v.keep cs := by
  apply List.filter_congr
  intro c hc
  rw [accepts, accepts, (h c hc).answers_eq hLimit, runs, runs, hSentinel]

end Isolation

/-- Candidates are kept by the members of their answers, each for itself. The kept ones are the confirmed ones, in
their order and as often as they occur; one that cannot be run is kept exactly if it should have no answers; the rate
is of all candidates. Order and repetition of answers, gold or found, make no difference. A candidate that is taken
out, put in place of another, or treated otherwise than before has no effect on the candidates before and after it. -/
theorem keep_confirmed (v : Validator) (cs : List Candidate) :
    (∀ kept, kept = v.keep cs ↔ kept.Sublist cs ∧ (∀ c ∈ kept, v.Confirms c) ∧
      ∀ c, v.Confirms c → kept.count c = cs.count c) ∧
    (∀ c ∈ cs, c.expression ≠ v.sentinel → v.Fails c.expression → (c ∈ v.keep cs ↔ c.gold = [])) ∧
    v.keptRate cs = ⟨(v.keep cs).length, cs.length⟩ ∧
    (∀ v' cs', v.Alike v' → List.Forall₂ Candidate.Alike cs cs' →
      List.Forall₂ Candidate.Alike (v.keep cs) (v'.keep cs')) ∧
    ∀ before c after, cs = before ++ c :: after →
      v.keep cs = v.keep before ++ v.keep [c] ++ v.keep after ∧
      v.keep (before ++ after) = v.keep before ++ v.keep after ∧
      ∀ v' c', v'.sentinel = v.sentinel → v'.limit = v.limit →
        (∀ other ∈ before ++ after, v.AgreesOn v' other.expression) →
        v'.keep (before ++ c' :: after) = v.keep before ++ v'.keep [c'] ++ v.keep after := by
  refine ⟨fun kept => eq_keep_iff, ?_, rfl, fun v' cs' hv hcs => hv.forall₂_keep hcs, ?_⟩
  · intro c hc hRuns hFails
    rw [mem_keep_iff, confirms_of_fails hRuns hFails, and_iff_right hc]
  · rintro before c after rfl
    refine ⟨?_, keep_append before after, ?_⟩
    · rw [keep_append, keep_cons, List.append_assoc]
    · intro v' c' hSentinel hLimit hOthers
      obtain ⟨hBefore, hAfter⟩ := List.forall_mem_append.mp hOthers
      rw [keep_append, keep_cons, keep_of_agreesOn hSentinel hLimit hBefore, keep_of_agreesOn hSentinel hLimit hAfter,
        List.append_assoc]

/-- Answers in another order and with a repetition, a form without a query, and a late reply: the second is kept since
it should have no answers. A reply in time to the last one brings it back and changes nothing else. -/
theorem keep_confirmed_late :
    let playback : Playback :=
      ⟨"Q ", [("b", .noQuery "no")], [("Q a", ⟨⟨0⟩, .ok ["m", "n", "m"]⟩), ("Q c", ⟨⟨2⟩, .ok ["m"]⟩)]⟩
    let inTime : Playback :=
      { playback with replies := [("Q a", ⟨⟨0⟩, .ok ["m", "n", "m"]⟩), ("Q c", ⟨⟨1⟩, .ok ["m"]⟩)] }
    let a : Candidate := ⟨"1", "a", ["n", "m"]⟩
    let b : Candidate := ⟨"2", "b", []⟩
    let c : Candidate := ⟨"3", "c", ["m"]⟩
    let v := playback.validator ⟨1⟩ "null"
    let v' := inTime.validator ⟨1⟩ "null"
    v.Fails b.expression ∧ b ∈ v.keep [a, b, c] ∧ v.Fails c.expression ∧ c ∉ v.keep [a, b, c] ∧
      v'.keep [a, b, c] = v.keep [a, b] ++ [c] := by
  intro playback inTime a b c v v'
  obtain ⟨_, hFailing, _, _, hOthers⟩ := keep_confirmed v [a, b, c]
  have hb : v.Fails b.expression := .noQuery rfl
  have hc : v.Fails c.expression := .late rfl (by decide)
  refine ⟨hb, (hFailing b (by decide) (by decide) hb).mpr rfl, hc,
    mt (hFailing c (by decide) (by decide) hc).mp (by decide), ?_⟩
  have hAgree : ∀ other ∈ [a, b] ++ [], v.AgreesOn v' other.expression := by
    intro other hOther
    rcases List.mem_cons.mp hOther with rfl | hOther
    · exact ⟨rfl, fun query hQuery => by cases hQuery; rfl⟩
    · rw [List.mem_singleton.mp hOther]
      exact ⟨rfl, fun query hQuery => by cases hQuery⟩
  exact (hOthers [a, b] c [] rfl).2.2 v' c rfl rfl hAgree

end Validator

end LogicalForm
