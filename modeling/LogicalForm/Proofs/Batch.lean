import LogicalForm.Batch
import LogicalForm.Proofs.Conversion
import LogicalForm.Proofs.Tally

/-!
# A batch is its queries, one by one

A batch keeps three accounts of its queries while it runs: the outcomes, the counts of their kinds, and the
events. Each query adds its own share to all three and nothing else, so they stay in step, and a batch of two
lists of queries is the two batches put together.
-/

namespace LogicalForm
set_option autoImplicit false

/-- Whether the outcome is a rejection that is counted under the kind. -/
def Kind.holds (kind : Kind) : Except Rejection Form → Bool
  | .ok _ => false
  | .error cause => cause.kind == kind

/-- The kind under which an outcome is counted. -/
def Kind.ofOutcome? : Except Rejection Form → Option Kind
  | .ok _ => none
  | .error cause => some cause.kind

section Kinds

variable (outcomes : List (Except Rejection Form))

theorem Kind.count_ofOutcome? (kind : Kind) :
    (outcomes.filterMap ofOutcome?).count kind = outcomes.countP kind.holds := by
  rw [List.count_filterMap]
  refine List.countP_congr fun outcome _ => ?_
  cases outcome <;> simp [ofOutcome?, holds]

theorem Kind.length_ofOutcome? :
    (outcomes.filterMap ofOutcome?).length = outcomes.countP (!Batch.isConverted ·) := by
  rw [List.length_filterMap_eq_countP]
  refine List.countP_congr fun outcome _ => ?_
  cases outcome <;> simp [ofOutcome?, Batch.isConverted]

end Kinds

section Told

/-- What sums up a batch; all other events are about one query. -/
def Event.IsSummary : Event → Prop
  | .converted _ => True
  | _ => False

theorem Event.isSummary_iff {e : Event} : e.IsSummary ↔ e.entry.level = .info := by
  cases e <;> simp [IsSummary, entry]

theorem Traced.forall_events_andThen {α β : Type} {P : Event → Prop} {step : Traced α} {next : α → Traced β}
    (hStep : ∀ e ∈ step.events, P e) (hNext : ∀ value, ∀ e ∈ (next value).events, P e) :
    ∀ e ∈ (step.andThen next).events, P e := by
  rw [andThen]
  split
  · rename_i value _
    exact List.forall_mem_append.mpr ⟨hStep, hNext value⟩
  · exact hStep

namespace Query

variable (d : Dialect)

theorem not_isSummary_of_mem_convert (q : Query) : ∀ e ∈ (q.convert d).events, ¬ e.IsSummary := by
  rw [convert]
  apply Traced.forall_events_andThen
  · intro e he
    simp only [Reduced.events] at he
    split at he
    · rw [List.mem_singleton.mp he]
      exact id
    · cases he
  · intro reduced
    apply Traced.forall_events_andThen
    · intro e he
      cases he
    · intro triples
      rw [convertTriples]
      apply Traced.forall_events_andThen
      · intro e he
        obtain ⟨anchor, _, rfl⟩ := List.mem_map.mp he
        exact id
      · intro anchors
        split <;> simp [Event.IsSummary]

theorem events_attempt_of_ok {q : Query} {form : Form} (h : (q.convert d).outcome = .ok form) :
    (q.attempt d).events = (q.convert d).events := by
  rw [attempt]
  simp only [h]

theorem events_attempt_of_error {q : Query} {cause : Rejection} (h : (q.convert d).outcome = .error cause) :
    (q.attempt d).events = (q.convert d).events ++ [.rejected (q.topic? d.namespaceMark) cause] := by
  rw [attempt]
  simp only [h]

theorem level_of_mem_attempt (q : Query) : ∀ e ∈ (q.attempt d).events, e.entry.level ≠ .info := by
  intro e he hLevel
  have hConvert := q.not_isSummary_of_mem_convert d
  rw [← Event.isSummary_iff] at hLevel
  cases hOutcome : (q.convert d).outcome with
  | ok form =>
    rw [events_attempt_of_ok d hOutcome] at he
    exact hConvert e he hLevel
  | error cause =>
    rw [events_attempt_of_error d hOutcome] at he
    rcases List.mem_append.mp he with he | he
    · exact hConvert e he hLevel
    · rw [List.mem_singleton.mp he] at hLevel
      exact hLevel

end Query

end Told

namespace Batch

variable (d : Dialect)

namespace Progress

/-- The two accounts of the outcomes agree. -/
def InStep (p : Progress) : Prop := p.tally.Counts (p.outcomes.toList.filterMap Kind.ofOutcome?)

theorem outcomes_next (p : Progress) (q : Query) :
    (p.next d q).outcomes.toList = p.outcomes.toList ++ [(q.convert d).outcome] := by
  rw [next]
  split <;> exact Array.toList_push

theorem events_next (p : Progress) (q : Query) :
    (p.next d q).events.toList = p.events.toList ++ (q.attempt d).events := by
  rw [next]
  split
  · rename_i form hOutcome
    rw [Query.events_attempt_of_ok d hOutcome]
    exact Array.toList_appendList
  · rename_i cause hOutcome
    rw [Query.events_attempt_of_error d hOutcome, Array.toList_push, ← List.append_assoc]
    exact congrArg (· ++ [_]) Array.toList_appendList

theorem InStep.next {p : Progress} (h : p.InStep) (q : Query) : (p.next d q).InStep := by
  rw [InStep, outcomes_next, List.filterMap_append, Progress.next]
  split
  · rename_i form hOutcome
    rw [hOutcome]
    exact (List.append_nil _).symm ▸ h
  · rename_i cause hOutcome
    rw [hOutcome]
    exact h.add cause.kind

/-- From any point on, the queries that follow add their outcomes and events in order, and the counts keep up. -/
theorem foldl_next (p : Progress) (queries : List Query) :
    (queries.foldl (next d) p).outcomes.toList =
        p.outcomes.toList ++ queries.map (fun q => (q.convert d).outcome) ∧
      (queries.foldl (next d) p).events.toList =
        p.events.toList ++ queries.flatMap (fun q => (q.attempt d).events) ∧
      (p.InStep → (queries.foldl (next d) p).InStep) := by
  induction queries generalizing p with
  | nil => simp
  | cons q queries ih =>
    obtain ⟨hOutcomes, hEvents, hCounts⟩ := ih (p.next d q)
    rw [List.foldl_cons]
    refine ⟨?_, ?_, fun h => hCounts (h.next d q)⟩
    · rw [hOutcomes, outcomes_next, List.append_assoc]
      rfl
    · rw [hEvents, events_next, List.append_assoc, List.flatMap_cons]

end Progress

variable (queries : List Query)

theorem outcomes_ofQueries : (ofQueries d queries).outcomes = queries.map fun q => (q.convert d).outcome :=
  (Progress.foldl_next d {} queries).1

theorem events_eq : events d queries =
    queries.flatMap (fun q => (q.attempt d).events) ++ [.converted (ofQueries d queries).rate] := by
  rw [events, run, (Progress.foldl_next d {} queries).2.1]
  rfl

theorem counts_ofQueries :
    (ofQueries d queries).tally.Counts ((ofQueries d queries).outcomes.filterMap Kind.ofOutcome?) :=
  (Progress.foldl_next d {} queries).2.2 .empty

theorem rendered_ofQueries : (ofQueries d queries).rendered d.sentinel = queries.map (Query.render d) := by
  rw [rendered, outcomes_ofQueries, List.map_map]
  apply List.map_congr_left
  intro q _
  rw [Query.render, Query.outcome_attempt]
  rfl

theorem converted_add_rejected (batch : Batch) :
    batch.converted + batch.outcomes.countP (!isConverted ·) = batch.total := by
  rw [converted, ← List.countP_eq_length_filter, total, List.length_eq_countP_add_countP isConverted]
  simp

/-- A batch is its queries, one by one. The outcomes, the written forms and what is told are those of each query
by itself, in order; every kind is counted as often as it occurs, and not listed if it does not; and a last
entry, the only one of its level, tells how many of how many queries were converted. So two lists of queries in
one batch give what their two batches give. -/
theorem ofQueries_one_by_one :
    let batch := ofQueries d queries
    batch.outcomes = queries.map (fun q => (q.convert d).outcome) ∧
    batch.rendered d.sentinel = queries.map (Query.render d) ∧
    batch.rejections.Pairwise (·.1.rank < ·.1.rank) ∧
    (∀ kind, batch.rejections.lookup kind =
      if batch.outcomes.countP kind.holds = 0 then none else some (batch.outcomes.countP kind.holds)) ∧
    batch.converted + (batch.rejections.map Prod.snd).sum = batch.total ∧
    (events d queries).map Event.entry = queries.flatMap (fun q => (q.attempt d).events.map Event.entry) ++
      [⟨.info, s!"Converted {batch.converted} of {batch.total} queries ({batch.rate.text})"⟩] ∧
    (queries.flatMap fun q => (q.attempt d).events.map Event.entry).filter (·.level = .info) = [] ∧
    ∀ more : List Query,
      (ofQueries d (queries ++ more)).outcomes = batch.outcomes ++ (ofQueries d more).outcomes ∧
      (ofQueries d (queries ++ more)).total = batch.total + (ofQueries d more).total ∧
      (ofQueries d (queries ++ more)).converted = batch.converted + (ofQueries d more).converted ∧
      (∀ kind, ((ofQueries d (queries ++ more)).rejections.lookup kind).getD 0 =
        (batch.rejections.lookup kind).getD 0 + ((ofQueries d more).rejections.lookup kind).getD 0) ∧
      (events d (queries ++ more)).dropLast = (events d queries).dropLast ++ (events d more).dropLast := by
  intro batch
  have hCounts := counts_ofQueries d queries
  refine ⟨outcomes_ofQueries d queries, rendered_ofQueries d queries, batch.tally.ordered.imp of_decide_eq_true,
    fun kind => ?_, ?_, ?_, ?_, fun more => ?_⟩
  · rw [rejections, hCounts.lookup, Kind.count_ofOutcome?]
  · rw [rejections, hCounts.sum, Kind.length_ofOutcome?, converted_add_rejected]
  · rw [events_eq, List.map_append, List.map_flatMap]
    rfl
  · rw [List.filter_eq_nil_iff]
    intro entry hEntry
    obtain ⟨q, _, hEntry⟩ := List.mem_flatMap.mp hEntry
    obtain ⟨e, he, rfl⟩ := List.mem_map.mp hEntry
    simpa using q.level_of_mem_attempt d e he
  · have hOutcomes : (ofQueries d (queries ++ more)).outcomes = batch.outcomes ++ (ofQueries d more).outcomes := by
      simp only [batch, outcomes_ofQueries, List.map_append]
    refine ⟨hOutcomes, ?_, ?_, fun kind => ?_, ?_⟩
    · rw [total, hOutcomes, List.length_append]
      rfl
    · rw [converted, hOutcomes, List.filter_append, List.length_append]
      rfl
    · simp only [rejections, (counts_ofQueries d _).getD_lookup, hOutcomes, List.filterMap_append, List.count_append,
        batch]
    · simp only [events_eq, List.dropLast_concat, List.flatMap_append]

end Batch

end LogicalForm
