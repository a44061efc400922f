import LogicalForm.Proofs.Acceptance
import LogicalForm.Proofs.Nodes

/-!
# What is wrong with a list of anchors

A form can be asked of any list of anchors, not only of those that a search has found: terms may come twice
or be constants, triples may belong elsewhere. Clauses are made from the last anchor to the first. So the last
anchor with a flaw is the one that stops the form, and of its triples the first that has one; what stands before
it is not looked at. A form that is made has no node but those of its triples, of the constants at their ends
and of the condition.
-/

namespace LogicalForm
set_option autoImplicit false

section Flaws

/-- What keeps the triple out of the clause of `v` when the terms in `later` have theirs. -/
def Triple.flaw? (t : Triple) (v : Term) (later : List Term) : Option Inconsistency :=
  match t.opposite? v with
  | none => some (.foreign t v)
  | some w => if w.isVar = true ∧ w ∉ later then some (.premature w) else none

def Anchor.flaw? (anchor : Anchor) (later : List Term) : Option Inconsistency :=
  if anchor.triples = [] then some (.bare anchor.term)
  else anchor.triples.findSome? (·.flaw? anchor.term later)

theorem Triple.flaw?_eq_none_iff {t : Triple} {v : Term} {later : List Term} :
    t.flaw? v later = none ↔ ∃ w, t.opposite? v = some w ∧ (w.isVar = true → w ∈ later) := by
  rw [flaw?]
  cases t.opposite? v with
  | none => simp
  | some w => simp

namespace Clauses

variable {known : Clauses} {cause : Inconsistency}

theorem operand_eq_error_iff {w : Term} :
    known.operand w = .error cause ↔
      (w.isVar = true ∧ w ∉ known.map Prod.fst) ∧ .premature w = cause := by
  rw [operand, ← lookup_eq_none_iff_not_mem]
  cases known.lookup w with
  | some clause => simp
  | none => cases w.isVar <;> simp

theorem ofTriple_eq_error_iff {v : Term} {t : Triple} :
    known.ofTriple v t = .error cause ↔ t.flaw? v (known.map Prod.fst) = some cause := by
  rw [ofTriple, Triple.flaw?, Triple.opposite?]
  by_cases hSubject : t.subject = v
  · simp only [if_pos hSubject, map_eq_error, operand_eq_error_iff, Option.ite_none_right_eq_some,
      Option.some.injEq]
  · rw [if_neg hSubject, if_neg hSubject]
    by_cases hObject : t.object = v
    · simp only [if_pos hObject, map_eq_error, operand_eq_error_iff, Option.ite_none_right_eq_some,
        Option.some.injEq]
    · simp [hObject]

theorem flaw?_eq_none_of_ofTriple {v : Term} {t : Triple} {part : Form} (h : known.ofTriple v t = .ok part) :
    t.flaw? v (known.map Prod.fst) = none := by
  rw [Triple.flaw?_eq_none_iff, ← exists_ofTriple_iff]
  exact ⟨part, h⟩

theorem foldlM_eq_error_iff {v : Term} {triples : List Triple} {seed : Form} :
    triples.foldlM (fun clause t => (known.ofTriple v t).map (.and · clause)) seed = .error cause ↔
      triples.findSome? (·.flaw? v (known.map Prod.fst)) = some cause := by
  induction triples generalizing seed with
  | nil => simp [pure, Except.pure]
  | cons t triples ih =>
    rw [List.foldlM_cons, bind_eq_error, List.findSome?_cons]
    simp only [map_eq_error, ih, map_eq_ok]
    cases hPart : known.ofTriple v t with
    | error found => simp [ofTriple_eq_error_iff.mp hPart]
    | ok part => simp [flaw?_eq_none_of_ofTriple hPart]

theorem ofAnchor_eq_error_iff {anchor : Anchor} :
    known.ofAnchor anchor = .error cause ↔ anchor.flaw? (known.map Prod.fst) = some cause := by
  rw [ofAnchor, Anchor.flaw?]
  cases anchor.triples with
  | nil => simp
  | cons first rest =>
    rw [if_neg (List.cons_ne_nil first rest), List.findSome?_cons, bind_eq_error]
    simp only [foldlM_eq_error_iff]
    cases hSeed : known.ofTriple anchor.term first with
    | error found => simp [ofTriple_eq_error_iff.mp hSeed]
    | ok seed => simp [flaw?_eq_none_of_ofTriple hSeed]

/-- The last anchor with a flaw stops the table. -/
theorem ofAnchors_eq_error_iff {condition : Condition} {anchors : List Anchor} :
    ofAnchors condition anchors = .error cause ↔
      ∃ before anchor after, anchors = before ++ anchor :: after ∧ Anchor.Supported after ∧
        anchor.flaw? (after.map Anchor.term) = some cause := by
  induction anchors with
  | nil => simp [ofAnchors]
  | cons first rest ih =>
    rw [ofAnchors, bind_eq_error, ih]
    constructor
    · rintro (⟨before, anchor, after, rfl, hAfter, hFlaw⟩ | ⟨known, hKnown, hFirst⟩)
      · exact ⟨first :: before, anchor, after, rfl, hAfter, hFlaw⟩
      · have hFlaw : known.ofAnchor first = .error cause := by
          rcases bind_eq_error.mp hFirst with hError | ⟨_, _, hOk⟩
          · exact hError
          · cases hOk
        rw [ofAnchor_eq_error_iff, keys_ofAnchors hKnown] at hFlaw
        exact ⟨[], first, rest, rfl, exists_ofAnchors_iff.mp ⟨known, hKnown⟩, hFlaw⟩
    · rintro ⟨before, anchor, after, hSplit, hAfter, hFlaw⟩
      cases before with
      | nil =>
        obtain ⟨rfl, rfl⟩ := List.cons.inj hSplit
        obtain ⟨known, hKnown⟩ := (@exists_ofAnchors_iff condition _).mpr hAfter
        rw [← keys_ofAnchors hKnown, ← ofAnchor_eq_error_iff] at hFlaw
        exact Or.inr ⟨known, hKnown, bind_eq_error.mpr (Or.inl hFlaw)⟩
      | cons _ before =>
        exact Or.inl ⟨before, anchor, after, (List.cons.inj hSplit).2, hAfter, hFlaw⟩

end Clauses

end Flaws

section Provenance

/-- The ways for a node to get into a form. -/
inductive Form.Node.Arises (condition : Condition) (anchors : List Anchor) : Form.Node → Prop
  | and : Arises condition anchors .and
  | link {anchor : Anchor} {t : Triple} (hAnchor : anchor ∈ anchors) (ht : t ∈ anchor.triples) :
    Arises condition anchors (t.link anchor.term)
  | constant {anchor : Anchor} {t : Triple} {w : Term} (hAnchor : anchor ∈ anchors) (ht : t ∈ anchor.triples)
      (hFar : t.opposite? anchor.term = some w) (hVar : w.isVar = false) :
    Arises condition anchors (.atom w.name)
  | condition {node : Form.Node} (hNode : node ∈ condition.nodes) : Arises condition anchors node

theorem Clauses.arises_of_lookup {condition : Condition} {anchors : List Anchor} {table : Clauses}
    (hTable : ofAnchors condition anchors = .ok table) :
    ∀ v form, table.lookup v = some form → ∀ node ∈ form.nodes, node.Arises condition anchors := by
  refine forall_lookup_of_parts hTable (fun _ h => h) ?constant ?clause ?conjunction ?condition
  case constant =>
    intro anchor hAnchor t ht w hFar hVar node hNode
    rw [Multiset.mem_singleton.mp hNode]
    exact .constant hAnchor ht hFar hVar
  case clause =>
    intro anchor hAnchor t ht operand hOperand node hNode
    rw [Form.nodes_clause, Multiset.mem_add, Multiset.mem_singleton] at hNode
    rcases hNode with rfl | hNode
    · exact .link hAnchor ht
    · exact hOperand node hNode
  case conjunction =>
    intro left right hLeft hRight node hNode
    rw [Form.nodes, Multiset.mem_add, Multiset.mem_add, Multiset.mem_singleton] at hNode
    rcases hNode with rfl | hNode | hNode
    · exact .and
    · exact hLeft node hNode
    · exact hRight node hNode
  case condition =>
    intro form hForm node hNode
    rw [Form.nodes_wrap, Multiset.mem_add] at hNode
    rcases hNode with hNode | hNode
    · exact hForm node hNode
    · exact .condition hNode

/-- The name of a node that is an atom. -/
def Form.Node.atom? : Form.Node → Option String
  | atom name => some name
  | join _ | inverse _ | and | extreme _ _ => none

def Form.Node.relation? : Form.Node → Option String
  | join relation | inverse relation | extreme _ relation => some relation
  | atom _ | and => none

def Condition.relation? : Condition → Option String
  | none => Option.none
  | superlative _ _ relation | range _ relation _ => some relation

def Condition.year? : Condition → Option String
  | none | superlative _ _ _ => Option.none
  | range _ _ year => some year

namespace Form.Node.Arises

variable {condition : Condition} {anchors : List Anchor} {node : Node} {name : String}

theorem of_atom? (h : node.Arises condition anchors) (hName : node.atom? = some name) :
    condition.year? = some name ∨
      ∃ anchor ∈ anchors, ∃ t ∈ anchor.triples, ∃ w, t.touches w = true ∧ w.isVar = false ∧ w.name = name := by
  cases h with
  | and => cases hName
  | @link anchor t =>
    rw [Triple.link] at hName
    split at hName <;> cases hName
  | @constant anchor t w hAnchor ht hFar hVar =>
    exact Or.inr ⟨anchor, hAnchor, t, ht, w, Triple.touches_of_opposite hFar, hVar, Option.some.inj hName⟩
  | condition hNode =>
    left
    cases condition with
    | none => cases hNode
    | superlative direction pivot relation =>
      rw [Multiset.mem_singleton.mp hNode] at hName
      cases hName
    | range pivot relation year =>
      simp only [Condition.nodes, Multiset.mem_add, Multiset.mem_singleton] at hNode
      rcases hNode with (rfl | rfl) | rfl
      · cases hName
      · cases hName
      · exact hName

theorem of_relation? (h : node.Arises condition anchors) (hName : node.relation? = some name) :
    condition.relation? = some name ∨
      ∃ anchor ∈ anchors, ∃ t ∈ anchor.triples, t.relation.name = name := by
  cases h with
  | and => cases hName
  | @link anchor t hAnchor ht =>
    rw [Triple.link] at hName
    refine Or.inr ⟨anchor, hAnchor, t, ht, ?_⟩
    split at hName <;> exact Option.some.inj hName
  | constant => cases hName
  | condition hNode =>
    left
    cases condition with
    | none => cases hNode
    | superlative direction pivot relation =>
      rw [Multiset.mem_singleton.mp hNode] at hName
      exact hName
    | range pivot relation year =>
      simp only [Condition.nodes, Multiset.mem_add, Multiset.mem_singleton] at hNode
      rcases hNode with (rfl | rfl) | rfl
      · cases hName
      · exact hName
      · cases hName

end Form.Node.Arises

end Provenance

section Outcome

/-- There is an anchor, each has a triple, and each triple of an anchor has its term at one end, and at the
opposite end a constant or the term of a later anchor. -/
def Anchor.Coherent (anchors : List Anchor) : Prop :=
  anchors ≠ [] ∧ ∀ before anchor after, anchors = before ++ anchor :: after →
    anchor.triples ≠ [] ∧ ∀ t ∈ anchor.triples, t.touches anchor.term = true ∧
      ∀ w, t.opposite? anchor.term = some w → w.isVar = true → ∃ later ∈ after, later.term = w

theorem Anchor.coherent_iff {anchors : List Anchor} :
    Coherent anchors ↔ anchors ≠ [] ∧ Supported anchors := by
  have hTriple : ∀ (t : Triple) (v : Term) (after : List Anchor),
      (∃ w, t.opposite? v = some w ∧ (w.isVar = true → w ∈ after.map Anchor.term)) ↔
        t.touches v = true ∧
          ∀ w, t.opposite? v = some w → w.isVar = true → ∃ later ∈ after, later.term = w := by
    intro t v after
    rw [← Triple.isSome_opposite?]
    cases t.opposite? v with
    | none => simp
    | some w => simp
  simp only [Coherent, supported_iff_split, hTriple]

namespace Form

variable (condition : Condition) (anchors : List Anchor)

theorem ofAnchors_eq_inconsistent_iff {cause : Inconsistency} :
    ofAnchors condition anchors = .error (.inconsistent cause) ↔
      anchors = [] ∧ cause = .empty ∨
      ∃ before anchor after, anchors = before ++ anchor :: after ∧ Anchor.Supported after ∧
        anchor.flaw? (after.map Anchor.term) = some cause := by
  rw [← @Clauses.ofAnchors_eq_error_iff _ condition]
  by_cases hAnchors : anchors = []
  · subst hAnchors
    simp [ofAnchors, Clauses.ofAnchors, eq_comm]
  · rw [or_iff_right fun h => hAnchors h.1]
    cases hTable : Clauses.ofAnchors condition anchors with
    | error found => simp [ofAnchors_of_table_error hAnchors hTable]
    | ok table =>
      have hSupported := Clauses.exists_ofAnchors_iff.mp ⟨table, hTable⟩
      refine iff_of_false (fun h => ?_) (fun h => by cases h)
      rcases exists_inconsistent_iff.mp ⟨cause, h⟩ with hNone | hNot
      · exact hAnchors hNone
      · exact hNot hSupported

theorem exists_ofAnchors_iff :
    (∃ form, ofAnchors condition anchors = .ok form) ↔
      Anchor.Coherent anchors ∧ condition.lostPivot? anchors = none := by
  rw [Anchor.coherent_iff, ← @exists_table_iff condition]
  simp only [ofAnchors_eq_ok_iff]
  constructor
  · rintro ⟨form, hFound, v, known, hTable⟩
    exact ⟨⟨v, form, known, hTable⟩, hFound⟩
  · rintro ⟨⟨v, form, known, hTable⟩, hFound⟩
    exact ⟨form, hFound, v, known, hTable⟩

theorem exists_disconnected_iff :
    (∃ cause, ofAnchors condition anchors = .error (.disconnected cause)) ↔
      Anchor.Coherent anchors ∧ condition.lostPivot? anchors ≠ none := by
  rw [Anchor.coherent_iff]
  by_cases hCoherent : anchors ≠ [] ∧ Anchor.Supported anchors
  · obtain ⟨v, form, known, hTable⟩ := (@exists_table_iff condition anchors).mpr hCoherent
    rw [ofAnchors_of_table hTable, and_iff_right hCoherent]
    cases condition.lostPivot? anchors with
    | none => simp
    | some pivot => simp
  · refine iff_of_false ?_ fun h => hCoherent h.1
    rintro ⟨cause, hError⟩
    obtain ⟨found, hFound⟩ : ∃ found, ofAnchors condition anchors = .error (.inconsistent found) := by
      rw [exists_inconsistent_iff]
      exact or_iff_not_and_not.mpr fun h => hCoherent ⟨h.1, not_not.mp h.2⟩
    cases hError.symm.trans hFound

/-- The outcome of form building on any anchors. Coherent anchors with an anchor for the pivot have a form,
without one they are disconnected; anchors that are not coherent are inconsistent, and the last of them that has
a flaw is reported. The atoms and relations of a form are names of the triples and of the condition. -/
theorem ofAnchors_outcome :
    ((∃ form, ofAnchors condition anchors = .ok form) ↔
      Anchor.Coherent anchors ∧
        ∀ pivot, condition.pivot? = some pivot → ∃ anchor ∈ anchors, anchor.term = pivot) ∧
    ((∃ cause, ofAnchors condition anchors = .error (.disconnected cause)) ↔
      Anchor.Coherent anchors ∧
        ¬ ∀ pivot, condition.pivot? = some pivot → ∃ anchor ∈ anchors, anchor.term = pivot) ∧
    ((∃ cause, ofAnchors condition anchors = .error (.inconsistent cause)) ↔ ¬ Anchor.Coherent anchors) ∧
    (∀ cause, ofAnchors condition anchors = .error (.inconsistent cause) ↔
      anchors = [] ∧ cause = .empty ∨
      ∃ before anchor after, anchors = before ++ anchor :: after ∧ Anchor.Supported after ∧
        anchor.flaw? (after.map Anchor.term) = some cause) ∧
    ∀ form, ofAnchors condition anchors = .ok form → ∀ node ∈ form.nodes,
      (∀ name, node.atom? = some name → condition.year? = some name ∨
        ∃ anchor ∈ anchors, ∃ t ∈ anchor.triples, ∃ w, t.touches w = true ∧ w.isVar = false ∧ w.name = name) ∧
      (∀ relation, node.relation? = some relation → condition.relation? = some relation ∨
        ∃ anchor ∈ anchors, ∃ t ∈ anchor.triples, t.relation.name = relation) := by
  have hPivot : (∀ pivot, condition.pivot? = some pivot → ∃ anchor ∈ anchors, anchor.term = pivot) ↔
      condition.lostPivot? anchors = none := by
    simp only [Condition.lostPivot?_eq_none_iff, List.mem_map]
  rw [hPivot]
  refine ⟨exists_ofAnchors_iff condition anchors, exists_disconnected_iff condition anchors, ?_,
    fun cause => ofAnchors_eq_inconsistent_iff condition anchors, fun form hForm node hNode => ?_⟩
  · rw [exists_inconsistent_iff, Anchor.coherent_iff, not_and_or, not_not]
  · obtain ⟨_, v, known, hTable⟩ := ofAnchors_eq_ok_iff.mp hForm
    have hArises := Clauses.arises_of_lookup hTable v form List.lookup_cons_self node hNode
    exact ⟨fun name hName => hArises.of_atom? hName, fun relation hName => hArises.of_relation? hName⟩

open Term in
/-- The term `y` comes twice, and the form has the clause of the first of the two. Without them `x` has a flaw. -/
theorem ofAnchors_outcome_repeated :
    let first : Anchor := ⟨var "x", [⟨var "x", entity "r", var "y"⟩]⟩
    let anchors : List Anchor := [first, ⟨var "y", [⟨entity "m", entity "s", var "y"⟩]⟩,
      ⟨var "y", [⟨var "y", entity "t", literal "k"⟩]⟩]
    let form : Form := .join "r" (.and (.join "a" (.atom "2009")) (.inverse "s" (.atom "m")))
    (ofAnchors (.range (var "y") "a" "2009") anchors = .ok form ∧ Anchor.Coherent anchors) ∧
    (∃ cause, ofAnchors (.superlative .max (var "z") "a") anchors = .error (.disconnected cause)) ∧
    ofAnchors .none [first] = .error (.inconsistent (.premature (var "y"))) ∧ ¬ Anchor.Coherent [first] ∧
    ∃ anchor ∈ anchors, ∃ t ∈ anchor.triples, ∃ w, t.touches w = true ∧ w.isVar = false ∧ w.name = "m" := by
  intro first anchors form
  have hForm : ofAnchors (.range (var "y") "a" "2009") anchors = .ok form := rfl
  have hFlaw : ofAnchors .none [first] = .error (.inconsistent (.premature (var "y"))) := rfl
  obtain ⟨hCoherent, _⟩ := (ofAnchors_outcome _ anchors).1.mp ⟨form, hForm⟩
  refine ⟨⟨hForm, hCoherent⟩, (ofAnchors_outcome _ anchors).2.1.mpr ⟨hCoherent, fun h => ?_⟩, hFlaw,
    (ofAnchors_outcome _ [first]).2.2.1.mp ⟨_, hFlaw⟩, ?_⟩
  · obtain ⟨anchor, hAnchor, hTerm⟩ := h (var "z") rfl
    have hOther : ∀ anchor ∈ anchors, anchor.term ≠ var "z" := by decide
    exact hOther anchor hAnchor hTerm
  · have hNames := ((ofAnchors_outcome _ anchors).2.2.2.2 form hForm (.atom "m") (by decide)).1 "m" rfl
    exact hNames.resolve_left (by decide)

end Form

end Outcome

end LogicalForm
