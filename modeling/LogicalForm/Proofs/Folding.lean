import LogicalForm.Proofs.Tree

/-!
# When a form says what its triples say

A clause is itself a graph: its places are the things that it asks for, a name standing for itself, and
each join is an edge. To be in the denotation of a clause is to be the value of its top under a map that
carries every edge to a fact. Hence the graph of a clause decides its meaning: the form of some triples
denotes their answers over every domain exactly if the triples fold onto the graph of the form, each
variable onto a place and each triple onto an edge. A variable that is a far end twice stands at two
places of the form, and then such a map need not exist.
-/

namespace LogicalForm
set_option autoImplicit false

universe u

/-- A place in a clause: a name, or what is reached by a path of arguments and operands from the top. -/
inductive Place where
  | name (text : String)
  | inner (path : List Bool)
  deriving DecidableEq, Repr

namespace Place

def top : Place := .inner []

def below : Place → Place
  | .name text => .name text
  | .inner path => .inner (true :: path)

/-- The place seen from outside one operand of a conjunction, which shares its top with the other. -/
def within (right : Bool) : Place → Place
  | .name text => .name text
  | .inner [] => top
  | .inner (step :: path) => .inner (right :: step :: path)

end Place

structure Edge where
  source : Place
  relation : String
  target : Place
  deriving DecidableEq, Repr

def Edge.map (f : Place → Place) (edge : Edge) : Edge := ⟨f edge.source, edge.relation, f edge.target⟩

namespace Form

/-- Where the thing that a form denotes stands among its places. -/
def point : Form → Place
  | .atom text => .name text
  | _ => .top

def edges : Form → List Edge
  | .atom _ => []
  | .join relation argument =>
    ⟨.top, relation, argument.point.below⟩ :: argument.edges.map (Edge.map .below)
  | .inverse relation argument =>
    ⟨argument.point.below, relation, .top⟩ :: argument.edges.map (Edge.map .below)
  | .and left right =>
    left.edges.map (Edge.map (.within false)) ++ right.edges.map (Edge.map (.within true))
  | .extreme _ body _ => body.edges

/-- The places of a form, related by its edges and by nothing else. -/
def graph (form : Form) : Knowledge Place where
  related relation source target := ⟨source, relation, target⟩ ∈ form.edges
  constant := .name
  extremes _ _ members := members

/-- A form without extremes in which no conjunction has a bare name as an operand. -/
def IsPlain : Form → Prop
  | .atom _ => True
  | .join _ argument | .inverse _ argument => argument.IsPlain
  | .and left right => (left.IsPlain ∧ left.point = .top) ∧ right.IsPlain ∧ right.point = .top
  | .extreme _ _ _ => False

theorem isPlain_clause {t : Triple} {v : Term} {operand : Form} (h : operand.IsPlain) :
    (t.clause v operand).IsPlain ∧ (t.clause v operand).point = .top := by
  rw [Triple.clause]
  split
  · exact ⟨h, rfl⟩
  · exact ⟨h, rfl⟩

end Form

theorem Clauses.isPlain_of_lookup {anchors : List Anchor} {table : Clauses}
    (hTable : ofAnchors .none anchors = .ok table) :
    ∀ v form, table.lookup v = some form → form.IsPlain ∧ form.point = .top := by
  refine forall_lookup_of_parts (Q := Form.IsPlain) hTable (fun _ h => h.1) ?_ ?_ ?_ fun _ h => h
  · intro _ _ _ _ _ _ _
    trivial
  · intro _ _ _ _ _ hOperand
    exact Form.isPlain_clause hOperand
  · intro _ _ hLeft hRight
    exact ⟨⟨hLeft, hRight⟩, rfl⟩

namespace Knowledge

variable {D : Type u} {K : Knowledge D}

structure Models (K : Knowledge D) (form : Form) (g : Place → D) : Prop where
  name : ∀ text, g (.name text) = K.constant text
  edge : ∀ e ∈ form.edges, K.related e.relation (g e.source) (g e.target)

def graft (x : D) (g : Place → D) : Place → D
  | .name text => g (.name text)
  | .inner [] => x
  | .inner (_ :: path) => g (.inner path)

def merge (g h : Place → D) : Place → D
  | .name text => g (.name text)
  | .inner [] => g .top
  | .inner (false :: path) => g (.inner path)
  | .inner (true :: path) => h (.inner path)

theorem graft_below (x : D) (g : Place → D) (place : Place) : graft x g place.below = g place := by
  cases place <;> rfl

theorem graft_comp_below (x : D) (g : Place → D) : graft x g ∘ .below = g := funext (graft_below x g)

theorem merge_comp_within_false (g h : Place → D) : merge g h ∘ .within false = g := by
  funext place
  match place with
  | .name _ => rfl
  | .inner [] => rfl
  | .inner (_ :: _) => rfl

theorem merge_comp_within_true {g h : Place → D} (hName : ∀ text, g (.name text) = h (.name text))
    (hTop : g .top = h .top) : merge g h ∘ .within true = h := by
  funext place
  match place with
  | .name text => exact hName text
  | .inner [] => exact hTop
  | .inner (_ :: _) => rfl

theorem models_iff_of_edges {form argument : Form} {e : Edge}
    (hEdges : form.edges = e :: argument.edges.map (Edge.map .below)) {g : Place → D} :
    K.Models form g ↔ K.related e.relation (g e.source) (g e.target) ∧ K.Models argument (g ∘ .below) := by
  constructor
  · intro h
    obtain ⟨hHere, hBelow⟩ := List.forall_mem_cons.mp (hEdges ▸ h.edge)
    exact ⟨hHere, h.name, fun e he => hBelow _ (List.mem_map_of_mem he)⟩
  · rintro ⟨hHere, hName, hBelow⟩
    refine ⟨hName, hEdges ▸ List.forall_mem_cons.mpr ⟨hHere, fun e he => ?_⟩⟩
    obtain ⟨inner, hInner, rfl⟩ := List.mem_map.mp he
    exact hBelow inner hInner

theorem models_and_iff {left right : Form} {g : Place → D} :
    K.Models (.and left right) g ↔
      K.Models left (g ∘ .within false) ∧ K.Models right (g ∘ .within true) := by
  constructor
  · intro h
    obtain ⟨hLeft, hRight⟩ := List.forall_mem_append.mp h.edge
    exact ⟨⟨h.name, fun e he => hLeft _ (List.mem_map_of_mem he)⟩,
      ⟨h.name, fun e he => hRight _ (List.mem_map_of_mem he)⟩⟩
  · rintro ⟨hLeft, hRight⟩
    refine ⟨hLeft.name, List.forall_mem_append.mpr ⟨fun e he => ?_, fun e he => ?_⟩⟩
    · obtain ⟨inner, hInner, rfl⟩ := List.mem_map.mp he
      exact hLeft.edge inner hInner
    · obtain ⟨inner, hInner, rfl⟩ := List.mem_map.mp he
      exact hRight.edge inner hInner

/-- A plain form denotes the values of its point under the maps that carry its edges to facts. -/
theorem mem_denote_iff_exists_models {form : Form} (hPlain : form.IsPlain) {x : D} :
    x ∈ form.denote K ↔ ∃ g, K.Models form g ∧ g form.point = x := by
  induction form generalizing x with
  | atom text =>
    constructor
    · rintro rfl
      exact ⟨fun | .name text => K.constant text | .inner _ => K.constant text,
        ⟨fun _ => rfl, fun _ he => nomatch he⟩, rfl⟩
    · rintro ⟨g, hModels, rfl⟩
      exact hModels.name text
  | join relation argument ih =>
    constructor
    · rintro ⟨o, ho, hFact⟩
      obtain ⟨g, hModels, rfl⟩ := (ih hPlain).mp ho
      refine ⟨graft x g, (models_iff_of_edges rfl).mpr ⟨?_, graft_comp_below x g ▸ hModels⟩, rfl⟩
      change K.related relation x (graft x g argument.point.below)
      rw [graft_below]
      exact hFact
    · rintro ⟨g, hModels, rfl⟩
      obtain ⟨hFact, hBelow⟩ := (models_iff_of_edges rfl).mp hModels
      exact ⟨g argument.point.below, (ih hPlain).mpr ⟨g ∘ .below, hBelow, rfl⟩, hFact⟩
  | inverse relation argument ih =>
    constructor
    · rintro ⟨o, ho, hFact⟩
      obtain ⟨g, hModels, rfl⟩ := (ih hPlain).mp ho
      refine ⟨graft x g, (models_iff_of_edges rfl).mpr ⟨?_, graft_comp_below x g ▸ hModels⟩, rfl⟩
      change K.related relation (graft x g argument.point.below) x
      rw [graft_below]
      exact hFact
    · rintro ⟨g, hModels, rfl⟩
      obtain ⟨hFact, hBelow⟩ := (models_iff_of_edges rfl).mp hModels
      exact ⟨g argument.point.below, (ih hPlain).mpr ⟨g ∘ .below, hBelow, rfl⟩, hFact⟩
  | and left right ihLeft ihRight =>
    obtain ⟨⟨hLeft, hLeftTop⟩, hRight, hRightTop⟩ := hPlain
    rw [hLeftTop] at ihLeft
    rw [hRightTop] at ihRight
    constructor
    · rintro ⟨hxLeft, hxRight⟩
      obtain ⟨g, hg, hgTop⟩ := (ihLeft hLeft).mp hxLeft
      obtain ⟨h, hh, hhTop⟩ := (ihRight hRight).mp hxRight
      have hRestrict := merge_comp_within_true (fun text => (hg.name text).trans (hh.name text).symm)
        (hgTop.trans hhTop.symm)
      exact ⟨merge g h, models_and_iff.mpr ⟨(merge_comp_within_false g h).symm ▸ hg, hRestrict.symm ▸ hh⟩, hgTop⟩
    · rintro ⟨g, hModels, rfl⟩
      obtain ⟨hg, hh⟩ := models_and_iff.mp hModels
      exact ⟨(ihLeft hLeft).mpr ⟨_, hg, rfl⟩, (ihRight hRight).mpr ⟨_, hh, rfl⟩⟩
  | extreme direction body relation ih => cases hPlain

theorem models_graph (form : Form) : form.graph.Models form id := ⟨fun _ => rfl, fun _ he => he⟩

/-- What the graph of a form answers, every map that carries its edges to facts answers too. -/
theorem Models.map_answer {form : Form} {g : Place → D} (h : K.Models form g) {root : Term}
    {triples : List Triple} {place : Place} (hPlace : place ∈ form.graph.answers root triples) :
    g place ∈ K.answers root triples := by
  obtain ⟨σ, rfl, hSolves⟩ := hPlace
  have hValue : ∀ t, K.value (g ∘ σ) t = g (form.graph.value σ t) := by
    intro t
    cases t with
    | var name => rfl
    | entity name => exact (h.name name).symm
    | literal name => exact (h.name name).symm
  refine ⟨g ∘ σ, hValue root, fun t ht => ?_⟩
  rw [Satisfies, hValue, hValue]
  exact h.edge _ (hSolves t ht)

end Knowledge

namespace Form

variable {root : Term} {triples : List Triple} {anchors : List Anchor} {form : Form}

/-- The form of some triples denotes their answers over every domain exactly if the triples fold onto the
graph of the form, with the root at its top. -/
theorem denote_eq_answers_iff_folds (hAnchors : Anchor.ofTriples root triples = .ok anchors)
    (hForm : ofAnchors .none anchors = .ok form) :
    (∀ (D : Type) (K : Knowledge D), form.denote K = K.answers root triples) ↔
      ∃ σ : String → Place, form.graph.value σ root = .top ∧ ∀ t ∈ triples, form.graph.Satisfies σ t := by
  obtain ⟨known, hTable⟩ := exists_root_table (Anchor.ofTriples_eq_ok_iff.mp hAnchors) hForm
  obtain ⟨hPlain, hTop⟩ := Clauses.isPlain_of_lookup hTable root form List.lookup_cons_self
  constructor
  · intro hExact
    have hMem : Place.top ∈ form.denote form.graph :=
      (Knowledge.mem_denote_iff_exists_models hPlain).mpr ⟨id, Knowledge.models_graph form, hTop⟩
    rw [hExact Place form.graph] at hMem
    exact hMem
  · intro hFolds D K
    refine Set.Subset.antisymm ?_ (answers_subset_denote K hAnchors hForm)
    intro x hx
    obtain ⟨g, hModels, rfl⟩ := (Knowledge.mem_denote_iff_exists_models hPlain).mp hx
    rw [hTop]
    exact hModels.map_answer hFolds

open Term in
/-- A triple that is given twice: `y` is a far end twice, and yet the triples fold onto the form. -/
theorem denote_eq_answers_iff_folds_repeated :
    ∃ anchors form, Anchor.ofTriples (var "x")
        [⟨var "x", entity "r", var "y"⟩, ⟨var "x", entity "r", var "y"⟩, ⟨var "y", entity "s", entity "m"⟩] =
          .ok anchors ∧
      ofAnchors .none anchors = .ok form ∧ ¬ Anchor.IsTree (var "x") anchors ∧
      ∀ (D : Type) (K : Knowledge D), form.denote K = K.answers (var "x")
        [⟨var "x", entity "r", var "y"⟩, ⟨var "x", entity "r", var "y"⟩, ⟨var "y", entity "s", entity "m"⟩] := by
  refine ⟨[⟨var "x", [⟨var "x", entity "r", var "y"⟩, ⟨var "x", entity "r", var "y"⟩]⟩,
    ⟨var "y", [⟨var "y", entity "s", entity "m"⟩]⟩],
    .and (.join "r" (.join "s" (.atom "m"))) (.join "r" (.join "s" (.atom "m"))),
    ?run, ?form, ?shared, (denote_eq_answers_iff_folds ?run ?form).mpr ?folds⟩
  · cbv
  · rfl
  · decide
  · exact ⟨fun name => if name = "x" then .top else .inner [false, true], by decide, by
      simp only [Knowledge.Satisfies, graph]
      decide⟩

open Term in
/-- Two triples between the same variables: the form asks for one thing related by `rel.a` and one related
by `rel.b`, the triples for one thing that is both. -/
theorem denote_ne_answers_of_shared :
    ∃ anchors form, Anchor.ofTriples (var "x")
        [⟨var "x", entity "rel.a", var "y"⟩, ⟨var "x", entity "rel.b", var "y"⟩,
          ⟨var "y", entity "rel.c", entity "ent.1"⟩] = .ok anchors ∧
      ofAnchors .none anchors = .ok form ∧
      ∃ K : Knowledge (Fin 4), form.denote K ≠ K.answers (var "x")
        [⟨var "x", entity "rel.a", var "y"⟩, ⟨var "x", entity "rel.b", var "y"⟩,
          ⟨var "y", entity "rel.c", entity "ent.1"⟩] := by
  refine ⟨[⟨var "x", [⟨var "x", entity "rel.a", var "y"⟩, ⟨var "x", entity "rel.b", var "y"⟩]⟩,
    ⟨var "y", [⟨var "y", entity "rel.c", entity "ent.1"⟩]⟩],
    .and (.join "rel.b" (.join "rel.c" (.atom "ent.1"))) (.join "rel.a" (.join "rel.c" (.atom "ent.1"))),
    by cbv, rfl, ⟨fun relation source target => (relation, source, target) ∈
      [("rel.a", 0, 1), ("rel.b", 0, 2), ("rel.c", 1, 3), ("rel.c", 2, 3)], fun _ => 3, fun _ _ s => s⟩, ?_⟩
  intro hEq
  obtain ⟨σ, hRoot, hSolves⟩ := (Set.ext_iff.mp hEq 0).mp
    ⟨⟨2, ⟨3, rfl, by decide⟩, by decide⟩, ⟨1, ⟨3, rfl, by decide⟩, by decide⟩⟩
  have hFirst := hSolves _ List.mem_cons_self
  have hSecond := hSolves _ (List.mem_cons_of_mem _ List.mem_cons_self)
  simp [Knowledge.Satisfies, Knowledge.value, Term.name] at hRoot hFirst hSecond
  omega

end Form

end LogicalForm
