import LogicalForm.Form.Clause
import LogicalForm.Proofs.Anchoring
import LogicalForm.Proofs.Outcome
import Mathlib.Logic.Equiv.Basic

/-!
# Other names for variables

Variables are compared and never written, so a search and the form built from it go the same way when the
variables of a query get other names, as long as different variables stay different. A form has no variable
in it and stays what it was; a failure names the renamed variables and is of the same kind.
-/

namespace LogicalForm
set_option autoImplicit false

/-- New names for variables that keep them apart. -/
structure Renaming where
  on : String → String
  injective : Function.Injective on

namespace Renaming

variable (ρ : Renaming)

section Renamed

def term : Term → Term
  | .var name => .var (ρ.on name)
  | .entity name => .entity name
  | .literal name => .literal name

def triple (t : Triple) : Triple := ⟨ρ.term t.subject, ρ.term t.relation, ρ.term t.object⟩

def anchor (a : Anchor) : Anchor := ⟨ρ.term a.term, a.triples.map ρ.triple⟩

def condition : Condition → Condition
  | .none => .none
  | .superlative direction pivot relation => .superlative direction (ρ.term pivot) relation
  | .range pivot relation year => .range (ρ.term pivot) relation year

def disconnection : Disconnection → Disconnection
  | .unanchored v => .unanchored (ρ.term v)
  | .unreachable triples => .unreachable (triples.map ρ.triple)
  | .pivot pivot root => .pivot (ρ.term pivot) (ρ.term root)

def inconsistency : Inconsistency → Inconsistency
  | .empty => .empty
  | .bare v => .bare (ρ.term v)
  | .premature v => .premature (ρ.term v)
  | .foreign t v => .foreign (ρ.triple t) (ρ.term v)
  | .clauseless root => .clauseless (ρ.term root)

/-- A rejection with the renamed variables in it. What is wrong with a text has no variables. -/
def rejection : Rejection → Rejection
  | .disconnected cause => .disconnected (ρ.disconnection cause)
  | .inconsistent cause => .inconsistent (ρ.inconsistency cause)
  | cause => cause

def survey (s : Survey) : Survey := ⟨s.anchors.map ρ.anchor, s.fault.map ρ.disconnection⟩

/-- The table with the same clauses for the renamed terms. -/
def clauses (known : Clauses) : Clauses := known.map fun entry => (ρ.term entry.1, entry.2)

end Renamed

section Terms

theorem term_injective : Function.Injective ρ.term := by
  intro v w h
  cases v <;> cases w <;> simp only [term, reduceCtorEq, Term.var.injEq, Term.entity.injEq,
    Term.literal.injEq] at h ⊢
  · exact ρ.injective h
  · exact h
  · exact h

@[simp]
theorem term_eq_iff {v w : Term} : ρ.term v = ρ.term w ↔ v = w := ρ.term_injective.eq_iff

theorem beq_term (v w : Term) : (ρ.term v == ρ.term w) = (v == w) := by
  rw [Bool.eq_iff_iff, beq_iff_eq, beq_iff_eq, term_eq_iff]

@[simp]
theorem isVar_term (v : Term) : (ρ.term v).isVar = v.isVar := by
  cases v <;> rfl

theorem name_term {v : Term} (h : v.isVar = false) : (ρ.term v).name = v.name := by
  cases v with
  | var name => cases h
  | entity name | literal name => rfl

@[simp]
theorem touches_triple (t : Triple) (v : Term) : (ρ.triple t).touches (ρ.term v) = t.touches v := by
  rw [Triple.touches, triple, beq_term, beq_term, Triple.touches]

@[simp]
theorem opposite?_triple (t : Triple) (v : Term) :
    (ρ.triple t).opposite? (ρ.term v) = (t.opposite? v).map ρ.term := by
  simp only [Triple.opposite?, triple, term_eq_iff]
  split
  · rfl
  · split <;> rfl

theorem contains_map_term (seen : List Term) (v : Term) :
    (seen.map ρ.term).contains (ρ.term v) = seen.contains v := by
  induction seen with
  | nil => rfl
  | cons first seen ih => rw [List.map_cons, List.contains_cons, List.contains_cons, ih, beq_term]

@[simp]
theorem kind_rejection (cause : Rejection) : (ρ.rejection cause).kind = cause.kind := by
  cases cause <;> rfl

end Terms

section Searching

theorem taken_map (v : Term) (pool : List Triple) :
    Anchor.taken (ρ.term v) (pool.map ρ.triple) = (Anchor.taken v pool).map ρ.triple := by
  simp only [Anchor.taken, List.filter_map, Function.comp_def, touches_triple]

theorem left_map (v : Term) (pool : List Triple) :
    Anchor.left (ρ.term v) (pool.map ρ.triple) = (Anchor.left v pool).map ρ.triple := by
  simp only [Anchor.left, List.filter_map, Function.comp_def, touches_triple]

theorem discovered_map (v : Term) (seen : List Term) (triples : List Triple) :
    Anchor.discovered (ρ.term v) (seen.map ρ.term) (triples.map ρ.triple) =
      (Anchor.discovered v seen triples).map ρ.term := by
  induction triples generalizing seen with
  | nil => rfl
  | cons t triples ih =>
    simp only [List.map_cons, Anchor.discovered, opposite?_triple]
    cases t.opposite? v with
    | none => exact ih seen
    | some other =>
      simp only [Option.map_some, isVar_term, contains_map_term]
      split
      · rw [List.map_cons, ← ih (other :: seen), List.map_cons]
      · exact ih seen

/-- A turn takes the renamed triples, leaves the renamed pool and finds the renamed variables, so the whole
search is the renamed one. -/
theorem run_map (pool : List Triple) (seen waiting : List Term) :
    Survey.run (pool.map ρ.triple) (seen.map ρ.term) (waiting.map ρ.term) =
      ρ.survey (Survey.run pool seen waiting) := by
  fun_induction Survey.run pool seen waiting with
  | case1 pool seen =>
    rw [List.map_nil, Survey.run, survey, List.map_nil]
    cases pool <;> rfl
  | case2 pool seen v waiting hNone =>
    rw [List.map_cons, Survey.run, dif_pos (by rw [taken_map, hNone, List.map_nil])]
    rfl
  | case3 pool seen v waiting hTaken found rest ih =>
    have hSome : Anchor.taken (ρ.term v) (pool.map ρ.triple) ≠ [] := by
      rw [taken_map]
      exact fun hNil => hTaken (List.map_eq_nil_iff.mp hNil)
    rw [List.map_cons, Survey.run, dif_neg hSome]
    simp only [taken_map, left_map, discovered_map, ← List.map_append]
    rw [ih]
    rfl

theorem ofTriples_map (root : Term) (triples : List Triple) :
    Anchor.ofTriples (ρ.term root) (triples.map ρ.triple) =
      ((Anchor.ofTriples root triples).map (List.map ρ.anchor)).mapError ρ.rejection := by
  have hRun : Survey.ofRoot (ρ.term root) (triples.map ρ.triple) = ρ.survey (Survey.ofRoot root triples) :=
    ρ.run_map triples [root] [root]
  rw [Anchor.ofTriples, Anchor.ofTriples, hRun, Survey.result, Survey.result, survey]
  cases (Survey.ofRoot root triples).fault <;> rfl

end Searching

section Building

variable {ρ} {known : Clauses}

theorem lookup_clauses (known : Clauses) (w : Term) : (ρ.clauses known).lookup (ρ.term w) = known.lookup w := by
  induction known with
  | nil => rfl
  | cons entry known ih =>
    rw [clauses, List.map_cons, List.lookup_cons, beq_term, ← clauses, ih, ← List.lookup_cons]

theorem operand_clauses (known : Clauses) (w : Term) :
    (ρ.clauses known).operand (ρ.term w) = (known.operand w).mapError ρ.inconsistency := by
  rw [Clauses.operand, Clauses.operand, lookup_clauses, isVar_term]
  cases known.lookup w with
  | some clause => rfl
  | none =>
    cases hVar : w.isVar with
    | true => rfl
    | false =>
      rw [name_term ρ hVar]
      rfl

theorem ofTriple_clauses (v : Term) {t : Triple} (hRelation : t.relation.isVar = false) :
    (ρ.clauses known).ofTriple (ρ.term v) (ρ.triple t) = (known.ofTriple v t).mapError ρ.inconsistency := by
  simp only [Clauses.ofTriple, triple, term_eq_iff, operand_clauses, name_term ρ hRelation]
  split
  · cases known.operand t.object <;> rfl
  · split
    · cases known.operand t.subject <;> rfl
    · rfl

theorem foldlM_clauses (v : Term) {triples : List Triple} (seed : Form)
    (hRelations : ∀ t ∈ triples, t.relation.isVar = false) :
    (triples.map ρ.triple).foldlM
        (fun clause t => ((ρ.clauses known).ofTriple (ρ.term v) t).map (.and · clause)) seed =
      (triples.foldlM (fun clause t => (known.ofTriple v t).map (.and · clause)) seed).mapError
        ρ.inconsistency := by
  induction triples generalizing seed with
  | nil => rfl
  | cons t triples ih =>
    obtain ⟨hRelation, hRelations⟩ := List.forall_mem_cons.mp hRelations
    rw [List.map_cons, List.foldlM_cons, List.foldlM_cons, ofTriple_clauses v hRelation]
    cases known.ofTriple v t with
    | error cause => rfl
    | ok part => exact ih (.and part seed) hRelations

theorem ofAnchor_clauses {a : Anchor} (hRelations : ∀ t ∈ a.triples, t.relation.isVar = false) :
    (ρ.clauses known).ofAnchor (ρ.anchor a) = (known.ofAnchor a).mapError ρ.inconsistency := by
  obtain ⟨v, triples⟩ := a
  cases triples with
  | nil => rfl
  | cons first rest =>
    obtain ⟨hFirst, hRest⟩ := List.forall_mem_cons.mp hRelations
    simp only [Clauses.ofAnchor, anchor, List.map_cons, ofTriple_clauses v hFirst]
    cases known.ofTriple v first with
    | error cause => rfl
    | ok seed => exact foldlM_clauses v seed hRest

theorem pivot?_condition (c : Condition) : (ρ.condition c).pivot? = c.pivot?.map ρ.term := by
  cases c <;> rfl

theorem apply_condition (c : Condition) (v : Term) (clause : Form) :
    (ρ.condition c).apply (ρ.term v) clause = c.apply v clause := by
  cases c with
  | none => rfl
  | superlative direction pivot relation | range pivot relation year =>
    simp only [condition, Condition.apply, Condition.pivot?, Option.some.injEq, term_eq_iff, Condition.wrap]

theorem ofAnchors_clauses (c : Condition) {anchors : List Anchor}
    (hRelations : ∀ a ∈ anchors, ∀ t ∈ a.triples, t.relation.isVar = false) :
    Clauses.ofAnchors (ρ.condition c) (anchors.map ρ.anchor) =
      ((Clauses.ofAnchors c anchors).map ρ.clauses).mapError ρ.inconsistency := by
  induction anchors with
  | nil => rfl
  | cons a anchors ih =>
    obtain ⟨hHere, hRest⟩ := List.forall_mem_cons.mp hRelations
    rw [List.map_cons, Clauses.ofAnchors, Clauses.ofAnchors, ih hRest]
    cases Clauses.ofAnchors c anchors with
    | error cause => rfl
    | ok known =>
      show ((ρ.clauses known).ofAnchor (ρ.anchor a) >>= _) = _
      rw [ofAnchor_clauses hHere, ok_bind]
      cases known.ofAnchor a with
      | error cause => rfl
      | ok clause =>
        show Except.ok _ = Except.ok _
        rw [anchor, apply_condition]
        rfl

theorem lostPivot?_condition (c : Condition) (anchors : List Anchor) :
    (ρ.condition c).lostPivot? (anchors.map ρ.anchor) = (c.lostPivot? anchors).map ρ.term := by
  have hAny : ∀ pivot, (anchors.map ρ.anchor).any (·.term == ρ.term pivot) = anchors.any (·.term == pivot) := by
    intro pivot
    rw [List.any_map]
    congr 1
    funext a
    exact ρ.beq_term a.term pivot
  rw [Condition.lostPivot?, Condition.lostPivot?, pivot?_condition]
  cases c.pivot? with
  | none => rfl
  | some pivot =>
    simp only [Option.map_some, Option.filter_some, hAny]
    split <;> rfl

theorem form_ofAnchors_map (c : Condition) {anchors : List Anchor}
    (hRelations : ∀ a ∈ anchors, ∀ t ∈ a.triples, t.relation.isVar = false) :
    Form.ofAnchors (ρ.condition c) (anchors.map ρ.anchor) = (Form.ofAnchors c anchors).mapError ρ.rejection := by
  cases anchors with
  | nil => rfl
  | cons first rest =>
    rw [List.map_cons, Form.ofAnchors, Form.ofAnchors, ← List.map_cons, ofAnchors_clauses c hRelations,
      lostPivot?_condition]
    cases Clauses.ofAnchors c (first :: rest) with
    | error cause => rfl
    | ok known =>
      cases c.lostPivot? (first :: rest) with
      | some pivot => rfl
      | none =>
        have hLookup : (ρ.clauses known).lookup (ρ.anchor first).term = known.lookup first.term :=
          lookup_clauses known first.term
        simp only [Except.map, Except.mapError, ok_bind, Option.map_none, hLookup]
        cases known.lookup first.term <;> rfl

/-- The two steps together: the outcome is the same form, or the same failure with the renamed variables. -/
theorem run_renamed (c : Condition) (root : Term) {triples : List Triple}
    (hRelations : ∀ t ∈ triples, t.relation.isVar = false) :
    (Anchor.ofTriples (ρ.term root) (triples.map ρ.triple) >>= Form.ofAnchors (ρ.condition c)) =
      (Anchor.ofTriples root triples >>= Form.ofAnchors c).mapError ρ.rejection := by
  rw [ofTriples_map]
  cases hAnchors : Anchor.ofTriples root triples with
  | error cause => rfl
  | ok anchors =>
    have hSearch := Anchor.ofTriples_eq_ok_iff.mp hAnchors
    show Form.ofAnchors (ρ.condition c) (anchors.map ρ.anchor) = (Form.ofAnchors c anchors).mapError ρ.rejection
    apply form_ofAnchors_map
    intro a ha t ht
    exact hRelations t (hSearch.mem_pool_iff.mpr ⟨a, ha, ht⟩)

end Building

/-- Variables may have any names: with others in their place the form is the same to the letter, and a failure
is the same with the renamed variables in it, so it is of the same kind. -/
theorem outcome_renamed (root : Term) (c : Condition) {triples : List Triple}
    (hRelations : ∀ t ∈ triples, ∃ name, t.relation = .entity name) :
    (∀ form, (Anchor.ofTriples root triples >>= Form.ofAnchors c) = .ok form →
      (Anchor.ofTriples (ρ.term root) (triples.map ρ.triple) >>= Form.ofAnchors (ρ.condition c)) = .ok form) ∧
    (∀ cause, (Anchor.ofTriples root triples >>= Form.ofAnchors c) = .error cause →
      (Anchor.ofTriples (ρ.term root) (triples.map ρ.triple) >>= Form.ofAnchors (ρ.condition c)) =
        .error (ρ.rejection cause) ∧ (ρ.rejection cause).kind = cause.kind) := by
  have hConstant : ∀ t ∈ triples, t.relation.isVar = false := by
    intro t ht
    obtain ⟨name, hName⟩ := hRelations t ht
    rw [hName]
    rfl
  rw [run_renamed c root hConstant]
  constructor
  · intro form hForm
    rw [hForm]
    rfl
  · intro cause hCause
    rw [hCause]
    exact ⟨rfl, ρ.kind_rejection cause⟩

open Term in
/-- The names of two variables are exchanged. With the pivot at `y` there is a form; with a pivot that no triple
has, the failure tells of the renamed root. -/
theorem outcome_renamed_swap :
    (Anchor.ofTriples (var "y") [⟨var "x", entity "s", entity "m"⟩, ⟨var "y", entity "r", var "x"⟩] >>=
        Form.ofAnchors (.superlative .max (var "x") "q")) =
      .ok (.join "r" (.extreme .max (.join "s" (.atom "m")) "q")) ∧
    (Anchor.ofTriples (var "y") [⟨var "x", entity "s", entity "m"⟩, ⟨var "y", entity "r", var "x"⟩] >>=
        Form.ofAnchors (.superlative .max (var "z") "q")) =
      .error (.disconnected (.pivot (var "z") (var "y"))) := by
  let swap : Renaming := ⟨Equiv.swap "x" "y", (Equiv.swap "x" "y").injective⟩
  let triples : List Triple := [⟨var "y", entity "s", entity "m"⟩, ⟨var "x", entity "r", var "y"⟩]
  have hRelations : ∀ t ∈ triples, ∃ name, t.relation = .entity name := by simp [triples]
  have hAnchors : Anchor.ofTriples (var "x") triples = .ok
      [⟨var "x", [⟨var "x", entity "r", var "y"⟩]⟩, ⟨var "y", [⟨var "y", entity "s", entity "m"⟩]⟩] := by cbv
  constructor
  · refine (outcome_renamed swap (var "x") (.superlative .max (var "y") "q") hRelations).1 _ ?_
    rw [hAnchors]
    rfl
  · refine ((outcome_renamed swap (var "x") (.superlative .max (var "z") "q") hRelations).2
      (.disconnected (.pivot (var "z") (var "x"))) ?_).1
    rw [hAnchors]
    rfl

end Renaming

end LogicalForm
