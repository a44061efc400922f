import LogicalForm.Proofs.Distance
import LogicalForm.Proofs.Turns

/-!
# Searches go breadth-first

Distances are measured over all the triples, while the pool that a search takes them from gets smaller turn by
turn. The two still agree. Terms have their turns in the order of their distance, so of the two ends of a triple
that leads away from the root the nearer one has the first turn, and the triple is still there for it.
-/

namespace LogicalForm
set_option autoImplicit false

namespace Anchor

variable {root : Term} {triples : List Triple} {anchors before after : List Anchor} {anchor : Anchor}

theorem reaches_term (h : ofTriples root triples = .ok anchors) (hAnchor : anchor ∈ anchors) :
    Triple.Reaches triples root anchor.term := by
  rw [← Triple.mem_visits_iff, ← terms_eq_visits h]
  exact List.mem_map_of_mem hAnchor

theorem pairwise_distance (h : ofTriples root triples = .ok anchors) :
    anchors.Pairwise fun earlier later =>
      Triple.distance triples root earlier.term ≤ Triple.distance triples root later.term := by
  have hVisits := Triple.pairwise_distance_visits triples root
  rw [← terms_eq_visits h, List.pairwise_map] at hVisits
  exact hVisits

/-- A triple is with the first of its two ends to have a turn. -/
theorem mem_triples_of_first (h : ofTriples root triples = .ok (before ++ anchor :: after)) {t : Triple} {w : Term}
    (ht : t ∈ triples) (hFar : t.opposite? anchor.term = some w) (hLater : w ∈ after.map term) :
    t ∈ anchor.triples := by
  have hSearch := ofTriples_eq_ok_iff.mp h
  have hNodup := hSearch.nodup_root
  rw [List.map_append, List.map_cons] at hNodup
  obtain ⟨_, _, hApart⟩ := List.nodup_append.mp hNodup
  rw [hSearch.shares.triples_eq, List.mem_filter, Bool.and_eq_true, List.all_eq_true]
  refine ⟨ht, (Triple.touches_iff_of_opposite hFar).mpr (Or.inl rfl), fun earlier hEarlier => ?_⟩
  have hFirst := hApart earlier.term (List.mem_map_of_mem hEarlier)
  rw [Bool.not_eq_true', ← Bool.not_eq_true, Triple.touches_iff_of_opposite hFar]
  rintro (hSame | hSame)
  · exact hFirst anchor.term List.mem_cons_self hSame
  · exact hFirst w (List.mem_cons_of_mem _ hLater) hSame

theorem exists_nearer_before (h : ofTriples root triples = .ok anchors)
    (hSplit : anchors = before ++ anchor :: after) (hRoot : anchor.term ≠ root) :
    ∃ earlier ∈ before,
      Triple.distance triples root anchor.term = Triple.distance triples root earlier.term + 1 ∧
      ∃ t ∈ earlier.triples, t.opposite? earlier.term = some anchor.term := by
  have hReach := reaches_term h (hSplit ▸ by simp : anchor ∈ anchors)
  obtain ⟨d, hDistance⟩ : ∃ d, Triple.distance triples root anchor.term = d + 1 :=
    Nat.exists_eq_succ_of_ne_zero fun hZero => hRoot (Triple.eq_root_of_distance_eq_zero hReach hZero)
  -- the last step of a shortest way leads here from one step nearer, from a term with an earlier turn
  obtain ⟨u, hu, hNearer, _, t, ht, hFar⟩ := Triple.exists_leads_of_distance hReach hDistance
  subst hSplit
  have hTurn : u ∈ (before ++ anchor :: after).map term := by
    rw [terms_eq_visits h]
    exact Triple.mem_visits_iff.mpr hu
  obtain ⟨earlier, hEarlier, rfl⟩ := List.mem_map.mp hTurn
  have hBefore : earlier ∈ before := by
    rcases List.mem_append.mp hEarlier with hBefore | hRest
    · exact hBefore
    · have hOrder := (List.pairwise_append.mp (pairwise_distance h)).2.1
      rcases List.mem_cons.mp hRest with rfl | hAfter
      · omega
      · have hLe := (List.pairwise_cons.mp hOrder).1 earlier hAfter
        omega
  refine ⟨earlier, hBefore, by omega, t, ?_, hFar⟩
  obtain ⟨front, back, rfl⟩ := List.append_of_mem hBefore
  rw [List.append_assoc, List.cons_append] at h
  exact mem_triples_of_first h ht hFar (by simp)

/-- A finished search has gone breadth-first: all its terms are connected to the root, they come in the order of
their distance from it, and each but the root is at the end of a triple held before it, one step nearer. -/
theorem ofTriples_breadthFirst (h : ofTriples root triples = .ok anchors) :
    (∀ anchor ∈ anchors, (Triple.graph triples root).Reachable root anchor.term) ∧
    (anchors.Pairwise fun earlier later =>
      Triple.distance triples root earlier.term ≤ Triple.distance triples root later.term) ∧
    ∀ before anchor after, anchors = before ++ anchor :: after → anchor.term ≠ root →
      ∃ earlier ∈ before, Triple.distance triples root anchor.term = Triple.distance triples root earlier.term + 1 ∧
        ∃ t ∈ earlier.triples, t.touches anchor.term = true := by
  refine ⟨fun anchor hAnchor => Triple.reachable_iff_reaches.mpr (reaches_term h hAnchor), pairwise_distance h, ?_⟩
  intro before anchor after hSplit hRoot
  obtain ⟨earlier, hEarlier, hDistance, t, ht, hFar⟩ := exists_nearer_before h hSplit hRoot
  exact ⟨earlier, hEarlier, hDistance, t, ht, Triple.touches_of_opposite hFar⟩

open Term in
/-- Both `x` and `y` lead to `z`, and `z` alone leads to `w`. -/
theorem ofTriples_breadthFirst_detour :
    let triples : List Triple := [⟨var "x", entity "r", var "y"⟩, ⟨var "x", entity "r", var "z"⟩,
      ⟨var "y", entity "s", var "z"⟩, ⟨var "z", entity "s", var "w"⟩, ⟨var "w", entity "t", entity "m"⟩]
    let distance := Triple.distance triples (var "x")
    (∃ anchors, ofTriples (var "x") triples = .ok anchors) ∧ distance (var "y") ≤ distance (var "z") ∧
      distance (var "w") = distance (var "z") + 1 := by
  intro triples distance
  let before : List Anchor := [⟨var "x", [⟨var "x", entity "r", var "y"⟩, ⟨var "x", entity "r", var "z"⟩]⟩,
    ⟨var "y", [⟨var "y", entity "s", var "z"⟩]⟩, ⟨var "z", [⟨var "z", entity "s", var "w"⟩]⟩]
  have hRun : ofTriples (var "x") triples = .ok (before ++ [⟨var "w", [⟨var "w", entity "t", entity "m"⟩]⟩]) := by
    cbv
  obtain ⟨_, hOrder, hNearer⟩ := ofTriples_breadthFirst hRun
  have hHolder : ∀ earlier ∈ before, (∃ t ∈ earlier.triples, t.touches (var "w") = true) →
      earlier.term = var "z" := by decide
  obtain ⟨earlier, hEarlier, hDistance, hHolds⟩ := hNearer before _ [] rfl (by decide)
  refine ⟨⟨_, hRun⟩, ?_, hHolder earlier hEarlier hHolds ▸ hDistance⟩
  exact (List.pairwise_cons.mp (List.pairwise_cons.mp hOrder).2).1 _ List.mem_cons_self

end Anchor

end LogicalForm
