import LogicalForm.Proofs.Acceptance

/-!
# The form read from its root

The table of clauses is filled from the last anchor to the first. The same form is what the root asks for
when it is read from the top: the clause of a term is made of one part per triple of its anchor, and a part
has in it the clause of the variable at the far end, or the name of a constant. Reading downwards ends
because the far end of a triple has its turn after the term that holds it.
-/

namespace LogicalForm
set_option autoImplicit false

namespace Form

/-- What stands for the far end of a triple: the clause of a variable, the name of anything else. -/
def standIn (clause : Term → Form) (w : Term) : Form := if w.isVar then clause w else .atom w.name

def part (clause : Term → Form) (v : Term) (t : Triple) : Form :=
  if t.subject = v then .join t.relation.name (standIn clause t.object)
  else .inverse t.relation.name (standIn clause t.subject)

/-- The clause of `v` with the condition in it, if `v` is its pivot: the first or last of the clause by a
relation, or the clause held to a year. -/
def conditioned (condition : Condition) (v : Term) (form : Form) : Form :=
  match condition with
  | .none => form
  | .superlative direction pivot relation => if v = pivot then .extreme direction form relation else form
  | .range pivot relation year => if v = pivot then .and (.join relation (.atom year)) form else form

/-- The clause of an anchor's term, if `clause` gives the clauses of all other variables. -/
def ofEntry (condition : Condition) (clause : Term → Form) (anchor : Anchor) : Form :=
  match anchor.triples with
  | [] => .atom anchor.term.name
  | first :: rest =>
    conditioned condition anchor.term
      (conjoin (part clause anchor.term first) (rest.map (part clause anchor.term)))

/-- The clause of a term, read downwards from its anchor through the anchors after it. -/
def topDown (condition : Condition) : List Anchor → Term → Form
  | [], v => .atom v.name
  | anchor :: rest, v =>
    if v = anchor.term then ofEntry condition (fun w => topDown condition rest w) anchor
    else topDown condition rest v

variable {condition : Condition}

theorem apply_eq_conditioned (v : Term) (form : Form) : condition.apply v form = conditioned condition v form := by
  cases condition with
  | none => rfl
  | superlative direction pivot relation =>
    simp only [Condition.apply, Condition.pivot?, Condition.wrap, conditioned, Option.some.injEq, eq_comm]
  | range pivot relation year =>
    simp only [Condition.apply, Condition.pivot?, Condition.wrap, conditioned, Option.some.injEq, eq_comm]

theorem topDown_cons_self (anchor : Anchor) (rest : List Anchor) :
    topDown condition (anchor :: rest) anchor.term = ofEntry condition (topDown condition rest) anchor := by
  rw [topDown, if_pos rfl]

theorem topDown_cons_of_ne {anchor : Anchor} {v : Term} (h : v ≠ anchor.term) (rest : List Anchor) :
    topDown condition (anchor :: rest) v = topDown condition rest v := by
  rw [topDown, if_neg h]

theorem part_eq_clause {clause : Term → Form} {v w : Term} {t : Triple} (h : t.opposite? v = some w) :
    part clause v t = t.clause v (standIn clause w) := by
  rw [part, Triple.clause]
  rcases Triple.opposite?_eq_some_iff.mp h with ⟨hSubject, hObject⟩ | ⟨hNot, _, hSubject⟩
  · rw [if_pos hSubject, if_pos hSubject, hObject]
  · rw [if_neg hNot, if_neg hNot, hSubject]

theorem ofEntry_congr {f g : Term → Form} {anchor : Anchor}
    (h : ∀ t ∈ anchor.triples, ∃ w, t.opposite? anchor.term = some w ∧ (w.isVar = true → f w = g w)) :
    ofEntry condition f anchor = ofEntry condition g anchor := by
  have hPart : ∀ t ∈ anchor.triples, part f anchor.term t = part g anchor.term t := by
    intro t ht
    obtain ⟨w, hFar, hSame⟩ := h t ht
    rw [part_eq_clause hFar, part_eq_clause hFar, standIn, standIn]
    cases hVar : w.isVar with
    | true => rw [hSame hVar]
    | false => rfl
  rw [ofEntry, ofEntry]
  cases hTriples : anchor.triples with
  | nil => rfl
  | cons first rest =>
    rw [hTriples] at hPart
    obtain ⟨hFirst, hRest⟩ := List.forall_mem_cons.mp hPart
    simp only [hFirst, List.map_congr_left hRest]

/-- On supported anchors with distinct terms the recursion is closed: the clause of every anchor is made of
clauses of the same list. -/
theorem topDown_eq_ofEntry {anchors : List Anchor} (hSupported : Anchor.Supported anchors)
    (hNodup : (anchors.map Anchor.term).Nodup) {anchor : Anchor} (hAnchor : anchor ∈ anchors) :
    topDown condition anchors anchor.term = ofEntry condition (topDown condition anchors) anchor := by
  induction anchors with
  | nil => cases hAnchor
  | cons first rest ih =>
    obtain ⟨_, hFirst, hRest⟩ := hSupported
    obtain ⟨hNew, hNodup⟩ := List.nodup_cons.mp hNodup
    have hLater : ∀ w ∈ rest.map Anchor.term,
        topDown condition (first :: rest) w = topDown condition rest w := by
      intro w hw
      apply topDown_cons_of_ne
      rintro rfl
      exact hNew hw
    rcases List.mem_cons.mp hAnchor with rfl | hAnchor
    · rw [topDown_cons_self]
      apply ofEntry_congr
      intro t ht
      obtain ⟨w, hFar, hAfter⟩ := hFirst t ht
      exact ⟨w, hFar, fun hVar => (hLater w (hAfter hVar)).symm⟩
    · rw [hLater _ (List.mem_map_of_mem hAnchor), ih hRest hNodup hAnchor]
      obtain ⟨before, after, hSplit⟩ := List.append_of_mem hAnchor
      apply ofEntry_congr
      intro t ht
      obtain ⟨w, hFar, hAfter⟩ := (Anchor.supported_iff_split.mp hRest before anchor after hSplit).2 t ht
      refine ⟨w, hFar, fun hVar => (hLater w ?_).symm⟩
      rw [hSplit, List.map_append, List.map_cons]
      exact List.mem_append_right _ (List.mem_cons_of_mem _ (hAfter hVar))

end Form

namespace Clauses

variable {condition : Condition} {known : Clauses} {clause : Term → Form}

/-- A table agrees with a reading if its keys are variables and it holds their clauses. -/
def Agrees (known : Clauses) (clause : Term → Form) : Prop :=
  ∀ v form, known.lookup v = some form → v.isVar = true ∧ form = clause v

theorem operand_eq_standIn (hKnown : known.Agrees clause) {w : Term} {form : Form}
    (h : known.operand w = .ok form) : form = Form.standIn clause w := by
  rw [Form.standIn]
  rcases operand_eq_ok_iff.mp h with hFound | ⟨_, hVar, hAtom⟩
  · obtain ⟨hVar, hForm⟩ := hKnown w form hFound
    rw [hVar, if_pos rfl, hForm]
  · rw [hVar, hAtom]
    rfl

theorem ofTriple_eq_part (hKnown : known.Agrees clause) {v : Term} {t : Triple} {form : Form}
    (h : known.ofTriple v t = .ok form) : form = Form.part clause v t := by
  obtain ⟨w, operand, hFar, hOperand, rfl⟩ := ofTriple_eq_ok_iff.mp h
  rw [Form.part_eq_clause hFar, operand_eq_standIn hKnown hOperand]

theorem parts_eq_map_part (hKnown : known.Agrees clause) {v : Term} {triples : List Triple} {parts : List Form}
    (h : List.Forall₂ (fun t form => known.ofTriple v t = .ok form) triples parts) :
    parts = triples.map (Form.part clause v) := by
  induction h with
  | nil => rfl
  | cons hPart _ ih => rw [List.map_cons, ← ih, ofTriple_eq_part hKnown hPart]

theorem ofAnchor_eq_ofEntry (hKnown : known.Agrees clause) {anchor : Anchor} {form : Form}
    (h : known.ofAnchor anchor = .ok form) :
    condition.apply anchor.term form = Form.ofEntry condition clause anchor := by
  obtain ⟨seed, parts, rfl, hParts⟩ := ofAnchor_eq_ok_iff.mp h
  have hAll := parts_eq_map_part hKnown hParts
  rw [Form.apply_eq_conditioned, Form.ofEntry]
  cases hTriples : anchor.triples with
  | nil =>
    rw [hTriples] at hAll
    cases hAll
  | cons first rest =>
    rw [hTriples, List.map_cons] at hAll
    obtain ⟨rfl, rfl⟩ := List.cons.inj hAll
    rfl

/-- The invariant of filling the table: every clause in it is the one that is read downwards. The first
anchor need not be for a variable, since no clause before it can ask for it. -/
theorem lookup_ofAnchors_eq_topDown {anchors : List Anchor} {table : Clauses}
    (hTable : ofAnchors condition anchors = .ok table)
    (hVars : ∀ v ∈ anchors.tail.map Anchor.term, v.isVar = true) :
    ∀ v form, table.lookup v = some form → form = Form.topDown condition anchors v := by
  induction anchors generalizing table with
  | nil =>
    intro v form hFound
    cases hTable
    cases hFound
  | cons anchor rest ih =>
    obtain ⟨known, clause, hKnown, hClause, rfl⟩ := ofAnchors_cons_eq_ok_iff.mp hTable
    have hRest := ih hKnown fun v hv => hVars v (List.map_subset _ (List.tail_sublist rest).subset hv)
    have hAgrees : known.Agrees (Form.topDown condition rest) := by
      intro v form hFound
      refine ⟨hVars v ?_, hRest v form hFound⟩
      exact keys_ofAnchors hKnown ▸ mem_keys_of_lookup hFound
    intro v form hFound
    rw [List.lookup_cons] at hFound
    by_cases hEq : v = anchor.term
    · subst hEq
      rw [beq_self_eq_true, Option.some.injEq] at hFound
      rw [← hFound, ofAnchor_eq_ofEntry hAgrees hClause, Form.topDown_cons_self]
    · rw [beq_false_of_ne hEq] at hFound
      rw [hRest v form hFound, Form.topDown_cons_of_ne hEq]

end Clauses

namespace Form

variable {condition : Condition} {root : Term} {triples : List Triple} {anchors : List Anchor}

theorem eq_topDown_of_ofAnchors {form : Form} (hSearch : Search triples [root] [root] anchors)
    (hForm : ofAnchors condition anchors = .ok form) : form = topDown condition anchors root := by
  obtain ⟨known, hTable⟩ := exists_root_table hSearch hForm
  exact Clauses.lookup_ofAnchors_eq_topDown hTable hSearch.isVar_of_mem_tail root form List.lookup_cons_self

/-- The form of a finished search is the clause of its root read from the top, where the clause of every
anchor is made of those of its far ends. It exists if no triple is a loop and the pivot has an anchor. -/
theorem ofAnchors_eq_ok_iff_topDown {form : Form} (condition : Condition)
    (hAnchors : Anchor.ofTriples root triples = .ok anchors) :
    (ofAnchors condition anchors = .ok form ↔
      (∀ t ∈ triples, ¬ t.IsLoop) ∧
      (∀ pivot, condition.pivot? = some pivot → pivot ∈ anchors.map Anchor.term) ∧
      form = topDown condition anchors root) ∧
    ((∀ t ∈ triples, ¬ t.IsLoop) → ∀ anchor ∈ anchors,
      topDown condition anchors anchor.term = ofEntry condition (topDown condition anchors) anchor) := by
  have hSearch := Anchor.ofTriples_eq_ok_iff.mp hAnchors
  refine ⟨⟨fun hForm => ?_, ?_⟩, fun hLoops anchor hAnchor => ?_⟩
  · obtain ⟨hPivot, v, known, hTable⟩ := ofAnchors_eq_ok_iff.mp hForm
    have hSupported := Clauses.exists_ofAnchors_iff.mp ⟨_, hTable⟩
    exact ⟨hSearch.supported_iff.mp hSupported, Condition.lostPivot?_eq_none_iff.mp hPivot,
      eq_topDown_of_ofAnchors hSearch hForm⟩
  · rintro ⟨hLoops, hPivot, rfl⟩
    obtain ⟨v, form, known, hTable⟩ :=
      (@exists_table_iff condition anchors).mpr ⟨hSearch.ne_nil, hSearch.supported_iff.mpr hLoops⟩
    have hForm := ofAnchors_eq_ok_iff.mpr ⟨Condition.lostPivot?_eq_none_iff.mpr hPivot, v, known, hTable⟩
    rw [hForm, eq_topDown_of_ofAnchors hSearch hForm]
  · exact topDown_eq_ofEntry (hSearch.supported_iff.mpr hLoops) hSearch.nodup_root hAnchor

open Term in
/-- Two triples of `x` lead to `y`, whose clause is held to a year and stands in the form twice. -/
theorem ofAnchors_eq_ok_iff_topDown_shared :
    ∃ anchors, Anchor.ofTriples (var "x")
        [⟨var "y", entity "s", entity "m"⟩, ⟨var "x", entity "r", var "y"⟩, ⟨var "y", entity "q", var "x"⟩] =
          .ok anchors ∧
      ofAnchors (.range (var "y") "a.b.time" "2009") anchors =
        .ok (topDown (.range (var "y") "a.b.time" "2009") anchors (var "x")) := by
  refine ⟨[⟨var "x", [⟨var "x", entity "r", var "y"⟩, ⟨var "y", entity "q", var "x"⟩]⟩,
    ⟨var "y", [⟨var "y", entity "s", entity "m"⟩]⟩],
    ?run, ((ofAnchors_eq_ok_iff_topDown _ ?run).1.mpr ⟨?loops, ?pivot, rfl⟩)⟩
  · cbv
  · simp [Triple.IsLoop]
  · simp [Condition.pivot?]

end Form

end LogicalForm
