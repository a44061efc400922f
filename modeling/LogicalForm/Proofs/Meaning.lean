import LogicalForm.Proofs.ClauseTable
import Mathlib.Data.Set.Basic

/-!
# The meaning of forms and of triples

A form denotes a set of things, and triples have as answers the values of their root under all assignments
that satisfy them. A clause denotes what its triples ask of its term, one far end at a time; hence every
solution of the triples puts the value of each term into the denotation of its clause. Nothing here is
asked of the anchors but that their table exists.
-/

namespace LogicalForm
set_option autoImplicit false

universe u

/-- What is known about a domain: which things a relation relates, what a name stands for, and which
members of a set have the extreme value of a relation. -/
structure Knowledge (D : Type u) where
  related : String → D → D → Prop
  constant : String → D
  extremes : Direction → String → Set D → Set D

/-- The set of things that a form denotes. -/
def Form.denote {D : Type u} (K : Knowledge D) : Form → Set D
  | .atom name => {K.constant name}
  | .join relation argument => {v | ∃ o ∈ argument.denote K, K.related relation v o}
  | .inverse relation argument => {v | ∃ s ∈ argument.denote K, K.related relation s v}
  | .and left right => left.denote K ∩ right.denote K
  | .extreme direction body relation => K.extremes direction relation (body.denote K)

namespace Knowledge

variable {D : Type u} (K : Knowledge D)

/-- What a term stands for: a variable for what is assigned to it, all else for the constant of its name. -/
def value (σ : String → D) : Term → D
  | .var name => σ name
  | .entity name | .literal name => K.constant name

def Satisfies (σ : String → D) (t : Triple) : Prop :=
  K.related t.relation.name (K.value σ t.subject) (K.value σ t.object)

/-- The values of the root under the assignments that satisfy every triple. -/
def answers (root : Term) (triples : List Triple) : Set D :=
  {x | ∃ σ, K.value σ root = x ∧ ∀ t ∈ triples, K.Satisfies σ t}

/-- The triple holds with `x` at its end `v` and `y` at the other. -/
def Links (t : Triple) (v : Term) (x y : D) : Prop :=
  if t.subject = v then K.related t.relation.name x y else K.related t.relation.name y x

theorem value_of_isVar_eq_false (σ : String → D) {t : Term} (h : t.isVar = false) :
    K.value σ t = K.constant t.name := by
  cases t with
  | var name => cases h
  | entity name => rfl
  | literal name => rfl

theorem value_of_isVar {x : D} {t : Term} (h : t.isVar = true) : K.value (fun _ => x) t = x := by
  cases t with
  | var name => rfl
  | entity name => cases h
  | literal name => cases h

theorem satisfies_iff_links {σ : String → D} {t : Triple} {v w : Term} (h : t.opposite? v = some w) :
    K.Satisfies σ t ↔ K.Links t v (K.value σ v) (K.value σ w) := by
  rw [Links, Satisfies]
  rcases Triple.opposite?_eq_some_iff.mp h with ⟨hv, hw⟩ | ⟨hNot, hv, hw⟩
  · rw [if_pos hv, hv, hw]
  · rw [if_neg hNot, hv, hw]

end Knowledge

namespace Form

variable {D : Type u} {K : Knowledge D}

theorem mem_denote_clause {t : Triple} {v : Term} {operand : Form} {x : D} :
    x ∈ (t.clause v operand).denote K ↔ ∃ y ∈ operand.denote K, K.Links t v x y := by
  rw [Triple.clause]
  simp only [Knowledge.Links]
  split <;> rfl

theorem mem_denote_conjoin {seed : Form} {parts : List Form} {x : D} :
    x ∈ (conjoin seed parts).denote K ↔ ∀ part ∈ seed :: parts, x ∈ part.denote K := by
  induction parts generalizing seed with
  | nil => simp [conjoin]
  | cons part parts ih =>
    rw [conjoin, List.foldl_cons, ← conjoin, ih]
    simp only [List.forall_mem_cons, denote, Set.mem_inter_iff]
    tauto

end Form

namespace Clauses

variable {D : Type u} {K : Knowledge D} {known : Clauses}

theorem mem_denote_parts {v : Term} {triples : List Triple} {parts : List Form}
    (h : List.Forall₂ (fun t part => known.ofTriple v t = .ok part) triples parts) {x : D} :
    (∀ part ∈ parts, x ∈ part.denote K) ↔ ∀ t ∈ triples, ∃ w operand, t.opposite? v = some w ∧
      known.operand w = .ok operand ∧ ∃ y ∈ operand.denote K, K.Links t v x y := by
  induction h with
  | nil => simp
  | @cons t part triples parts hPart _ ih =>
    rw [List.forall_mem_cons, List.forall_mem_cons, ih]
    refine and_congr_left fun _ => ?_
    obtain ⟨w, operand, hFar, hOperand, rfl⟩ := ofTriple_eq_ok_iff.mp hPart
    rw [Form.mem_denote_clause]
    constructor
    · intro hLinks
      exact ⟨w, operand, hFar, hOperand, hLinks⟩
    · rintro ⟨w', operand', hFar', hOperand', hLinks⟩
      cases hFar.symm.trans hFar'
      cases hOperand.symm.trans hOperand'
      exact hLinks

/-- The clause of an anchor asks of its term one far end per triple. -/
theorem mem_denote_ofAnchor {anchor : Anchor} {form : Form} (h : known.ofAnchor anchor = .ok form) {x : D} :
    x ∈ form.denote K ↔ ∀ t ∈ anchor.triples, ∃ w operand, t.opposite? anchor.term = some w ∧
      known.operand w = .ok operand ∧ ∃ y ∈ operand.denote K, K.Links t anchor.term x y := by
  obtain ⟨seed, parts, rfl, hParts⟩ := ofAnchor_eq_ok_iff.mp h
  rw [Form.mem_denote_conjoin, mem_denote_parts hParts]

theorem value_mem_denote_operand {σ : String → D} {w : Term} {operand : Form}
    (hKnown : ∀ v form, known.lookup v = some form → K.value σ v ∈ form.denote K)
    (h : known.operand w = .ok operand) : K.value σ w ∈ operand.denote K := by
  rcases operand_eq_ok_iff.mp h with hFound | ⟨_, hVar, rfl⟩
  · exact hKnown w operand hFound
  · exact K.value_of_isVar_eq_false σ hVar

theorem value_mem_denote {σ : String → D} {anchors : List Anchor} {table : Clauses}
    (hTable : ofAnchors .none anchors = .ok table)
    (hSolves : ∀ anchor ∈ anchors, ∀ t ∈ anchor.triples, K.Satisfies σ t) :
    ∀ v form, table.lookup v = some form → K.value σ v ∈ form.denote K := by
  refine forall_lookup hTable fun anchor hAnchor known clause hKnown hClause => ?_
  refine (mem_denote_ofAnchor hClause).mpr fun t ht => ?_
  obtain ⟨part, hPart⟩ := (exists_ofAnchor_iff.mp ⟨clause, hClause⟩).2 t ht
  obtain ⟨w, operand, hFar, hOperand, _⟩ := ofTriple_eq_ok_iff.mp hPart
  have hLinks := (K.satisfies_iff_links hFar).mp (hSolves anchor hAnchor t ht)
  exact ⟨w, operand, hFar, hOperand, K.value σ w, value_mem_denote_operand hKnown hOperand, hLinks⟩

end Clauses

end LogicalForm
