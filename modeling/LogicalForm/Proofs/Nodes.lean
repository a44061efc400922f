import LogicalForm.Proofs.TopDown
import LogicalForm.Proofs.Tree
import Mathlib.Algebra.BigOperators.Group.Multiset.Basic
import Mathlib.Algebra.Order.Group.Multiset
import Mathlib.Tactic.Abel

/-!
# The nodes of a form

The clause of an anchor has the nodes of the clauses at its far ends and some of its own: a join for each of
its triples, a conjunction for each but the first, and what the condition puts around it. A form with a
condition is the form without it, with the condition put around clauses in it.
-/

namespace LogicalForm
set_option autoImplicit false

namespace Form

/-- A node of a form without its arguments. -/
inductive Node where
  | atom (name : String)
  | join (relation : String)
  | inverse (relation : String)
  | and
  | extreme (direction : Direction) (relation : String)
  deriving DecidableEq, Repr

def Node.isJoin : Node → Bool
  | join _ | inverse _ => true
  | atom _ | and | extreme _ _ => false

/-- The nodes of a form, each as often as it occurs. -/
def nodes : Form → Multiset Node
  | atom name => {.atom name}
  | join relation argument => {.join relation} + argument.nodes
  | inverse relation argument => {.inverse relation} + argument.nodes
  | and left right => {.and} + (left.nodes + right.nodes)
  | extreme direction body relation => {.extreme direction relation} + body.nodes

def joins (form : Form) : Multiset Node := form.nodes.filter (·.isJoin = true)

theorem card_nodes (form : Form) : form.nodes.card = form.size := by
  induction form with
  | atom name => rfl
  | join relation argument ih | inverse relation argument ih =>
    rw [nodes, size, Multiset.card_add, Multiset.card_singleton, ih, Nat.add_comm]
  | and left right ihLeft ihRight =>
    rw [nodes, size, Multiset.card_add, Multiset.card_add, Multiset.card_singleton, ihLeft, ihRight, Nat.add_comm]
  | extreme direction body relation ih =>
    rw [nodes, size, Multiset.card_add, Multiset.card_singleton, ih, Nat.add_comm]

end Form

/-- The join of a triple for the term at one of its ends. -/
def Triple.link (v : Term) (t : Triple) : Form.Node :=
  if t.subject = v then .join t.relation.name else .inverse t.relation.name

/-- The nodes that a condition puts around a clause. -/
def Condition.nodes : Condition → Multiset Form.Node
  | none => 0
  | superlative direction _ relation => {.extreme direction relation}
  | range _ relation year => {.and} + {.join relation} + {.atom year}

def Condition.weight : Condition → Nat
  | none => 0
  | superlative _ _ _ => 1
  | range _ _ _ => 3

theorem Condition.weight_pos {condition : Condition} (h : condition ≠ .none) : 0 < condition.weight := by
  cases condition with
  | none => exact absurd rfl h
  | superlative direction pivot relation => exact Nat.one_pos
  | range pivot relation year => exact Nat.succ_pos 2

theorem Condition.card_nodes (condition : Condition) : condition.nodes.card = condition.weight := by
  cases condition <;> rfl

namespace Anchor

def links (anchor : Anchor) : Multiset Form.Node := (anchor.triples.map (Triple.link anchor.term) : List Form.Node)

/-- The nodes that an anchor adds to the clauses of its far ends: a join for each triple, a conjunction for
each but the first, and those of the condition. -/
def own (condition : Condition) (anchor : Anchor) : Multiset Form.Node :=
  anchor.links + (anchor.triples.length - 1) • {Form.Node.and} +
    if condition.pivot? = some anchor.term then condition.nodes else 0

theorem own_none (anchor : Anchor) :
    anchor.own .none = anchor.links + (anchor.triples.length - 1) • {Form.Node.and} := by
  rw [own, Condition.nodes, ite_self, add_zero]

theorem own_eq (condition : Condition) (anchor : Anchor) :
    anchor.own condition = anchor.own .none +
      if condition.pivot? = some anchor.term then condition.nodes else 0 := by
  rw [own_none, own]

theorem card_own_none {anchor : Anchor} (h : anchor.triples ≠ []) :
    (anchor.own .none).card + 1 = 2 * anchor.triples.length := by
  have hPos := List.length_pos_iff.mpr h
  rw [own_none, Multiset.card_add, Multiset.card_nsmul, Multiset.card_singleton, links, Multiset.coe_card,
    List.length_map]
  omega

theorem filter_own_none (anchor : Anchor) : (anchor.own .none).filter (·.isJoin = true) = anchor.links := by
  have hLinks : ∀ node ∈ anchor.links, node.isJoin = true := by
    intro node hNode
    obtain ⟨t, _, rfl⟩ := List.mem_map.mp (Multiset.mem_coe.mp hNode)
    rw [Triple.link]
    split <;> rfl
  rw [own_none, Multiset.filter_add, Multiset.filter_eq_self.mpr hLinks, Multiset.filter_nsmul,
    Multiset.filter_singleton, if_neg (by decide), Multiset.empty_eq_zero, nsmul_zero, add_zero]

end Anchor

namespace Form

variable {condition : Condition}

theorem nodes_clause (t : Triple) (v : Term) (operand : Form) :
    (t.clause v operand).nodes = {t.link v} + operand.nodes := by
  rw [Triple.clause, Triple.link]
  split <;> rfl

theorem nodes_conjoin (seed : Form) (parts : List Form) :
    (conjoin seed parts).nodes = seed.nodes + (parts.map nodes).sum + parts.length • {Node.and} := by
  induction parts generalizing seed with
  | nil => simp [conjoin]
  | cons part parts ih =>
    rw [conjoin, List.foldl_cons, ← conjoin, ih, nodes, List.map_cons, List.sum_cons, List.length_cons, succ_nsmul]
    abel

theorem nodes_wrap (form : Form) : (condition.wrap form).nodes = form.nodes + condition.nodes := by
  cases condition with
  | none => rw [Condition.wrap, Condition.nodes, add_zero]
  | superlative direction pivot relation => rw [Condition.wrap, nodes, Condition.nodes, add_comm]
  | range pivot relation year =>
    rw [Condition.wrap, nodes, nodes, nodes, Condition.nodes]
    abel

theorem nodes_apply (v : Term) (form : Form) :
    (condition.apply v form).nodes =
      form.nodes + if condition.pivot? = some v then condition.nodes else 0 := by
  rw [Condition.apply]
  split
  · exact nodes_wrap form
  · rw [add_zero]

theorem sum_nodes_part {clause : Term → Form} {v : Term} {triples : List Triple}
    (h : ∀ t ∈ triples, ∃ w, t.opposite? v = some w ∧ standIn clause w = clause w) :
    (triples.map (nodes ∘ part clause v)).sum = (triples.map (Triple.link v) : List Node) +
      ((triples.filterMap (·.opposite? v)).map (nodes ∘ clause)).sum := by
  induction triples with
  | nil => rfl
  | cons t triples ih =>
    obtain ⟨⟨w, hFar, hStand⟩, hRest⟩ := List.forall_mem_cons.mp h
    simp only [List.filterMap_cons, hFar, List.map_cons, List.sum_cons, ih hRest, Function.comp_apply,
      part_eq_clause hFar, nodes_clause, hStand, ← Multiset.cons_coe, ← Multiset.singleton_add]
    abel

theorem nodes_ofEntry {clause : Term → Form} {anchor : Anchor} (hSome : anchor.triples ≠ [])
    (h : ∀ t ∈ anchor.triples, ∃ w, t.opposite? anchor.term = some w ∧ standIn clause w = clause w) :
    (ofEntry condition clause anchor).nodes =
      anchor.own condition + (anchor.farEnds.map (nodes ∘ clause)).sum := by
  obtain ⟨first, rest, hTriples⟩ := List.exists_cons_of_ne_nil hSome
  have hParts := sum_nodes_part h
  rw [ofEntry, Anchor.own, Anchor.links, Anchor.farEnds]
  simp only [hTriples, List.map_cons, List.sum_cons, List.length_cons, Nat.add_sub_cancel,
    Function.comp_apply] at hParts ⊢
  rw [← apply_eq_conditioned, nodes_apply, nodes_conjoin, List.map_map, List.length_map, hParts]
  abel

/-- The second form is the first with the condition put around clauses in it, so many times. -/
inductive Carries (condition : Condition) : Nat → Form → Form → Prop
  | atom (name : String) : Carries condition 0 (.atom name) (.atom name)
  | join (relation : String) {n : Nat} {plain form : Form} :
    Carries condition n plain form → Carries condition n (.join relation plain) (.join relation form)
  | inverse (relation : String) {n : Nat} {plain form : Form} :
    Carries condition n plain form → Carries condition n (.inverse relation plain) (.inverse relation form)
  | and {m n : Nat} {plain form plain' form' : Form} :
    Carries condition m plain form → Carries condition n plain' form' →
      Carries condition (m + n) (.and plain plain') (.and form form')
  | wrap {n : Nat} {plain form : Form} : condition ≠ .none →
    Carries condition n plain form → Carries condition (n + 1) plain (condition.wrap form)

theorem Carries.nodes_eq {n : Nat} {plain form : Form} (h : Carries condition n plain form) :
    form.nodes = plain.nodes + n • condition.nodes := by
  induction h with
  | atom name => rw [zero_nsmul, add_zero]
  | join relation _ ih | inverse relation _ ih => rw [nodes, nodes, ih, add_assoc]
  | and _ _ ihLeft ihRight =>
    rw [nodes, nodes, ihLeft, ihRight, add_nsmul]
    abel
  | wrap _ _ ih => rw [nodes_wrap, ih, succ_nsmul, add_assoc]

theorem exists_carries_part {f g : Term → Form} (h : ∀ w, ∃ n, Carries condition n (f w) (g w)) (v : Term)
    (t : Triple) : ∃ n, Carries condition n (part f v t) (part g v t) := by
  have hStand : ∀ w, ∃ n, Carries condition n (standIn f w) (standIn g w) := by
    intro w
    rw [standIn, standIn]
    split
    · exact h w
    · exact ⟨0, .atom _⟩
  rw [part, part]
  split
  · exact (hStand t.object).imp fun _ => .join _
  · exact (hStand t.subject).imp fun _ => .inverse _

theorem exists_carries_conjoin {f g : Triple → Form} (h : ∀ t, ∃ n, Carries condition n (f t) (g t))
    (triples : List Triple) {seed seed' : Form} (hSeed : ∃ n, Carries condition n seed seed') :
    ∃ n, Carries condition n (conjoin seed (triples.map f)) (conjoin seed' (triples.map g)) := by
  induction triples generalizing seed seed' with
  | nil => exact hSeed
  | cons t triples ih =>
    obtain ⟨m, hSeed⟩ := hSeed
    obtain ⟨n, hPart⟩ := h t
    exact ih ⟨_, .and hPart hSeed⟩

theorem exists_carries_apply {plain form : Form} (h : ∃ n, Carries condition n plain form) (v : Term) :
    ∃ n, Carries condition n plain (condition.apply v form) := by
  rw [Condition.apply]
  split
  case isTrue hPivot =>
    obtain ⟨n, h⟩ := h
    refine ⟨n + 1, .wrap ?_ h⟩
    rintro rfl
    cases hPivot
  case isFalse => exact h

theorem exists_carries_topDown (condition : Condition) (anchors : List Anchor) (v : Term) :
    ∃ n, Carries condition n (topDown .none anchors v) (topDown condition anchors v) := by
  induction anchors generalizing v with
  | nil => exact ⟨0, .atom _⟩
  | cons anchor rest ih =>
    by_cases hEq : v = anchor.term
    · subst hEq
      rw [topDown_cons_self, topDown_cons_self, ofEntry, ofEntry]
      cases anchor.triples with
      | nil => exact ⟨0, .atom _⟩
      | cons first others =>
        have hPart := exists_carries_part ih anchor.term
        have hClause := exists_carries_apply (exists_carries_conjoin hPart others (hPart first)) anchor.term
        rw [apply_eq_conditioned] at hClause
        exact hClause
    · rw [topDown_cons_of_ne hEq, topDown_cons_of_ne hEq]
      exact ih v

end Form

end LogicalForm
