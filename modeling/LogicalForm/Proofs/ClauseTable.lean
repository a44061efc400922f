import LogicalForm.Form.Clause
import LogicalForm.Proofs.Lists
import LogicalForm.Proofs.Outcome

/-!
# The table of clauses

What it takes for a table to exist and what stands in it, one equivalence per function that builds it.
Later proofs go through these equivalences and leave the functions alone. The table of a list of anchors
has their terms as keys, and it exists exactly if every triple of an anchor has the anchor's term at one
end and at the other a constant or the term of a later anchor.
-/

namespace LogicalForm
set_option autoImplicit false

/-- The clause of a triple for the term at one end, given the form that stands for the other end. -/
def Triple.clause (t : Triple) (v : Term) (operand : Form) : Form :=
  if t.subject = v then .join t.relation.name operand else .inverse t.relation.name operand

/-- Every part stands left of all before it. -/
def Form.conjoin (seed : Form) (parts : List Form) : Form :=
  parts.foldl (fun clause part => .and part clause) seed

theorem Form.conjoin_of_and {P : Form → Prop} (hAnd : ∀ left right, P left → P right → P (.and left right))
    {seed : Form} {parts : List Form} (h : ∀ part ∈ seed :: parts, P part) : P (conjoin seed parts) := by
  induction parts generalizing seed with
  | nil => exact h seed List.mem_cons_self
  | cons part parts ih =>
    obtain ⟨hSeed, hRest⟩ := List.forall_mem_cons.mp h
    obtain ⟨hPart, hParts⟩ := List.forall_mem_cons.mp hRest
    exact ih (List.forall_mem_cons.mpr ⟨hAnd part seed hPart hSeed, hParts⟩)

theorem Triple.opposite?_eq_some_iff {t : Triple} {v w : Term} :
    t.opposite? v = some w ↔ t.subject = v ∧ t.object = w ∨ t.subject ≠ v ∧ t.object = v ∧ t.subject = w := by
  rw [opposite?]
  by_cases hSubject : t.subject = v
  · simp [hSubject]
  · by_cases hObject : t.object = v <;> simp [hSubject, hObject]

namespace Clauses

variable {known : Clauses}

theorem operand_eq_ok_iff {w : Term} {form : Form} :
    known.operand w = .ok form ↔
      known.lookup w = some form ∨ known.lookup w = none ∧ w.isVar = false ∧ form = .atom w.name := by
  rw [operand]
  cases hFound : known.lookup w with
  | some clause => simp
  | none =>
    cases hVar : w.isVar with
    | true => simp
    | false => simp [eq_comm]

theorem ofTriple_eq_ok_iff {v : Term} {t : Triple} {form : Form} :
    known.ofTriple v t = .ok form ↔
      ∃ w operand, t.opposite? v = some w ∧ known.operand w = .ok operand ∧ form = t.clause v operand := by
  rw [ofTriple, Triple.opposite?]
  by_cases hSubject : t.subject = v
  · rw [if_pos hSubject, if_pos hSubject, map_eq_ok]
    constructor
    · rintro ⟨operand, hOperand, rfl⟩
      exact ⟨t.object, operand, rfl, hOperand, (if_pos hSubject).symm⟩
    · rintro ⟨w, operand, hFar, hOperand, rfl⟩
      cases hFar
      exact ⟨operand, hOperand, (if_pos hSubject).symm⟩
  · rw [if_neg hSubject, if_neg hSubject]
    by_cases hObject : t.object = v
    · rw [if_pos hObject, if_pos hObject, map_eq_ok]
      constructor
      · rintro ⟨operand, hOperand, rfl⟩
        exact ⟨t.subject, operand, rfl, hOperand, (if_neg hSubject).symm⟩
      · rintro ⟨w, operand, hFar, hOperand, rfl⟩
        cases hFar
        exact ⟨operand, hOperand, (if_neg hSubject).symm⟩
    · simp [hObject]

theorem foldlM_eq_ok_iff {v : Term} {triples : List Triple} {seed form : Form} :
    triples.foldlM (fun clause t => (known.ofTriple v t).map (.and · clause)) seed = .ok form ↔
      ∃ parts, List.Forall₂ (fun t part => known.ofTriple v t = .ok part) triples parts ∧
        form = Form.conjoin seed parts := by
  induction triples generalizing seed with
  | nil => simp [Form.conjoin, pure, Except.pure, eq_comm]
  | cons t triples ih =>
    rw [List.foldlM_cons, bind_eq_ok]
    constructor
    · rintro ⟨clause, hStep, hRest⟩
      obtain ⟨part, hPart, rfl⟩ := map_eq_ok.mp hStep
      obtain ⟨parts, hParts, rfl⟩ := ih.mp hRest
      exact ⟨part :: parts, .cons hPart hParts, rfl⟩
    · rintro ⟨parts, hParts, rfl⟩
      cases hParts with
      | @cons _ part _ parts hPart hParts =>
        exact ⟨.and part seed, map_eq_ok.mpr ⟨part, hPart, rfl⟩, ih.mpr ⟨parts, hParts, rfl⟩⟩

theorem ofAnchor_eq_ok_iff {anchor : Anchor} {form : Form} :
    known.ofAnchor anchor = .ok form ↔
      ∃ seed parts, form = Form.conjoin seed parts ∧
        List.Forall₂ (fun t part => known.ofTriple anchor.term t = .ok part) anchor.triples (seed :: parts) := by
  rw [ofAnchor]
  cases anchor.triples with
  | nil => simp
  | cons first rest =>
    simp only [bind_eq_ok, foldlM_eq_ok_iff, List.forall₂_cons]
    constructor
    · rintro ⟨seed, hSeed, parts, hParts, rfl⟩
      exact ⟨seed, parts, rfl, hSeed, hParts⟩
    · rintro ⟨seed, parts, rfl, hSeed, hParts⟩
      exact ⟨seed, hSeed, parts, hParts, rfl⟩

theorem ofAnchors_cons_eq_ok_iff {condition : Condition} {anchor : Anchor} {rest : List Anchor}
    {table : Clauses} :
    ofAnchors condition (anchor :: rest) = .ok table ↔
      ∃ known clause, ofAnchors condition rest = .ok known ∧ known.ofAnchor anchor = .ok clause ∧
        table = (anchor.term, condition.apply anchor.term clause) :: known := by
  rw [ofAnchors, bind_eq_ok]
  constructor
  · rintro ⟨known, hKnown, h⟩
    obtain ⟨clause, hClause, h⟩ := bind_eq_ok.mp h
    cases h
    exact ⟨known, clause, hKnown, hClause, rfl⟩
  · rintro ⟨known, clause, hKnown, hClause, rfl⟩
    exact ⟨known, hKnown, bind_eq_ok.mpr ⟨clause, hClause, rfl⟩⟩

theorem keys_ofAnchors {condition : Condition} {anchors : List Anchor} {table : Clauses}
    (h : ofAnchors condition anchors = .ok table) : table.map Prod.fst = anchors.map Anchor.term := by
  induction anchors generalizing table with
  | nil =>
    cases h
    rfl
  | cons anchor rest ih =>
    obtain ⟨known, clause, hKnown, _, rfl⟩ := ofAnchors_cons_eq_ok_iff.mp h
    rw [List.map_cons, List.map_cons, ih hKnown]

/-- What passes from the clauses known so far to the next one holds of every clause in the table. -/
theorem forall_lookup {condition : Condition} {P : Term → Form → Prop} {anchors : List Anchor}
    {table : Clauses} (hTable : ofAnchors condition anchors = .ok table)
    (hStep : ∀ anchor ∈ anchors, ∀ (known : Clauses) (clause : Form),
      (∀ v form, known.lookup v = some form → P v form) → known.ofAnchor anchor = .ok clause →
      P anchor.term (condition.apply anchor.term clause)) :
    ∀ v form, table.lookup v = some form → P v form := by
  induction anchors generalizing table with
  | nil =>
    cases hTable
    intro v form hFound
    cases hFound
  | cons anchor rest ih =>
    obtain ⟨known, clause, hKnown, hClause, rfl⟩ := ofAnchors_cons_eq_ok_iff.mp hTable
    obtain ⟨hHere, hRest⟩ := List.forall_mem_cons.mp hStep
    have hLater := ih hKnown hRest
    intro v form hFound
    rw [List.lookup_cons] at hFound
    split at hFound
    · rename_i hEq
      cases hFound
      rw [eq_of_beq hEq]
      exact hHere known clause hLater hClause
    · exact hLater v form hFound

/-- What holds of the constants and is kept by all that builds a clause holds of every clause in the table. From
what stands at the far end of a triple it may ask less, as of a bare name. -/
theorem forall_lookup_of_parts {condition : Condition} {P Q : Form → Prop} {anchors : List Anchor} {table : Clauses}
    (hTable : ofAnchors condition anchors = .ok table) (hLess : ∀ form, P form → Q form)
    (hConstant : ∀ anchor ∈ anchors, ∀ t ∈ anchor.triples, ∀ w, t.opposite? anchor.term = some w →
      w.isVar = false → Q (.atom w.name))
    (hClause : ∀ anchor ∈ anchors, ∀ t ∈ anchor.triples, ∀ operand, Q operand → P (t.clause anchor.term operand))
    (hAnd : ∀ left right, P left → P right → P (.and left right))
    (hWrap : ∀ form, P form → P (condition.wrap form)) :
    ∀ v form, table.lookup v = some form → P form := by
  refine forall_lookup hTable fun anchor hAnchor known clause hKnown hMade => ?_
  obtain ⟨seed, parts, rfl, hParts⟩ := ofAnchor_eq_ok_iff.mp hMade
  have hConjoin : P (Form.conjoin seed parts) := by
    refine Form.conjoin_of_and hAnd fun part hPart => ?_
    obtain ⟨t, ht, hPart⟩ := exists_of_mem_forall₂ hParts hPart
    obtain ⟨w, operand, hFar, hOperand, rfl⟩ := ofTriple_eq_ok_iff.mp hPart
    apply hClause anchor hAnchor t ht
    rcases operand_eq_ok_iff.mp hOperand with hFound | ⟨_, hVar, rfl⟩
    · exact hLess operand (hKnown w operand hFound)
    · exact hConstant anchor hAnchor t ht w hFar hVar
  rw [Condition.apply]
  split
  · exact hWrap _ hConjoin
  · exact hConjoin

theorem lookup_eq_none_iff_not_mem {w : Term} : known.lookup w = none ↔ w ∉ known.map Prod.fst := by
  simp only [List.lookup_eq_none_iff, List.mem_map, not_exists, not_and, bne_iff_ne]
  exact ⟨fun h pair hMem hEq => h pair hMem hEq.symm, fun h pair hMem hEq => h pair hMem hEq.symm⟩

theorem mem_keys_of_lookup {w : Term} {form : Form} (h : known.lookup w = some form) :
    w ∈ known.map Prod.fst := by
  by_contra hAbsent
  rw [lookup_eq_none_iff_not_mem.mpr hAbsent] at h
  cases h

theorem lookup_cons_of_not_mem {v w : Term} {clause form : Form} (hNew : v ∉ known.map Prod.fst)
    (h : known.lookup w = some form) : List.lookup w ((v, clause) :: known) = some form := by
  have hOther : w ≠ v := by
    rintro rfl
    exact hNew (mem_keys_of_lookup h)
  rw [List.lookup_cons, beq_false_of_ne hOther]
  exact h

theorem exists_operand_iff {w : Term} :
    (∃ form, known.operand w = .ok form) ↔ (w.isVar = true → w ∈ known.map Prod.fst) := by
  simp only [operand_eq_ok_iff]
  cases hFound : known.lookup w with
  | some clause => exact ⟨fun _ _ => mem_keys_of_lookup hFound, fun _ => ⟨clause, Or.inl rfl⟩⟩
  | none =>
    have hAbsent := lookup_eq_none_iff_not_mem.mp hFound
    cases hVar : w.isVar with
    | true => simp [hAbsent]
    | false => simp

theorem exists_ofTriple_iff {v : Term} {t : Triple} :
    (∃ form, known.ofTriple v t = .ok form) ↔
      ∃ w, t.opposite? v = some w ∧ (w.isVar = true → w ∈ known.map Prod.fst) := by
  simp only [ofTriple_eq_ok_iff, ← exists_operand_iff]
  constructor
  · rintro ⟨_, w, operand, hFar, hOperand, _⟩
    exact ⟨w, hFar, operand, hOperand⟩
  · rintro ⟨w, hFar, operand, hOperand⟩
    exact ⟨_, w, operand, hFar, hOperand, rfl⟩

theorem exists_ofAnchor_iff {anchor : Anchor} :
    (∃ form, known.ofAnchor anchor = .ok form) ↔
      anchor.triples ≠ [] ∧ ∀ t ∈ anchor.triples, ∃ part, known.ofTriple anchor.term t = .ok part := by
  rw [← exists_forall₂_iff]
  simp only [ofAnchor_eq_ok_iff]
  constructor
  · rintro ⟨_, seed, parts, _, hParts⟩
    refine ⟨fun hNil => ?_, _, hParts⟩
    rw [hNil] at hParts
    cases hParts
  · rintro ⟨hSome, parts, hParts⟩
    cases parts with
    | nil => exact absurd (List.forall₂_nil_right_iff.mp hParts) hSome
    | cons seed parts => exact ⟨_, seed, parts, rfl, hParts⟩

end Clauses

/-- Every anchor has a triple, and each triple leads from its term to a constant or to a later term. -/
def Anchor.Supported : List Anchor → Prop
  | [] => True
  | anchor :: rest =>
    anchor.triples ≠ [] ∧
    (∀ t ∈ anchor.triples, ∃ w, t.opposite? anchor.term = some w ∧
      (w.isVar = true → w ∈ rest.map Anchor.term)) ∧
    Supported rest

theorem Clauses.exists_ofAnchors_iff {condition : Condition} {anchors : List Anchor} :
    (∃ table, ofAnchors condition anchors = .ok table) ↔ Anchor.Supported anchors := by
  induction anchors with
  | nil => exact ⟨fun _ => trivial, fun _ => ⟨[], rfl⟩⟩
  | cons anchor rest ih =>
    simp only [ofAnchors_cons_eq_ok_iff, Anchor.Supported, ← ih]
    constructor
    · rintro ⟨_, known, clause, hKnown, hClause, _⟩
      obtain ⟨hSome, hTriples⟩ := exists_ofAnchor_iff.mp ⟨clause, hClause⟩
      simp only [exists_ofTriple_iff, keys_ofAnchors hKnown] at hTriples
      exact ⟨hSome, hTriples, known, hKnown⟩
    · rintro ⟨hSome, hTriples, known, hKnown⟩
      simp only [← keys_ofAnchors hKnown, ← exists_ofTriple_iff] at hTriples
      obtain ⟨clause, hClause⟩ := exists_ofAnchor_iff.mpr ⟨hSome, hTriples⟩
      exact ⟨_, known, clause, hKnown, hClause, rfl⟩

end LogicalForm
