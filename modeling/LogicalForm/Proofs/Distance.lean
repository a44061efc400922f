import LogicalForm.Proofs.Visits
import Mathlib.Combinatorics.SimpleGraph.Metric

/-!
# The breadth-first order and distance

The root and the variables make a graph, with an edge between the two ends of a triple. The terms that wait
for their turn lie in two neighbouring layers, the nearer one in front, and everything that is nearer still
has had its turn. Therefore terms have their turns in the order of their distance from the root.
-/

namespace LogicalForm
set_option autoImplicit false

namespace Triple

/-- The graph of the root and the variables. -/
def graph (triples : List Triple) (root : Term) : SimpleGraph Term where
  Adj v w := v ≠ w ∧ (v = root ∨ v.isVar = true) ∧ (w = root ∨ w.isVar = true) ∧
    ∃ t ∈ triples, t.touches v = true ∧ t.touches w = true
  symm := ⟨fun _ _ ⟨hNe, hv, hw, t, ht, htv, htw⟩ => ⟨hNe.symm, hw, hv, t, ht, htw, htv⟩⟩
  loopless := ⟨fun _ h => h.1 rfl⟩

noncomputable def distance (triples : List Triple) (root v : Term) : Nat := (graph triples root).dist root v

variable {triples : List Triple} {root v w : Term}

theorem Reaches.eq_or_isVar (h : Reaches triples root v) : v = root ∨ v.isVar = true := by
  cases h with
  | refl => exact Or.inl rfl
  | tail _ hLeads => exact Or.inr hLeads.1

theorem graph_adj_of_leads (hReach : Reaches triples root v) (hLeads : Leads triples v w) (hNe : v ≠ w) :
    (graph triples root).Adj v w := by
  obtain ⟨hVar, t, ht, hFar⟩ := hLeads
  exact ⟨hNe, hReach.eq_or_isVar, Or.inr hVar, t, ht, (touches_iff_of_opposite hFar).mpr (Or.inl rfl),
    touches_of_opposite hFar⟩

theorem reaches_of_adj (hReach : Reaches triples root v) (hAdj : (graph triples root).Adj v w) :
    Reaches triples root w := by
  obtain ⟨hNe, _, rfl | hVar, t, ht, hv, hw⟩ := hAdj
  · exact .refl
  · exact hReach.tail ⟨hVar, t, ht, opposite?_eq_some_of_ne hNe hv hw⟩

theorem reaches_of_walk (walk : (graph triples root).Walk v w) (hReach : Reaches triples root v) :
    Reaches triples root w := by
  induction walk with
  | nil => exact hReach
  | cons hAdj _ ih => exact ih (reaches_of_adj hReach hAdj)

theorem reachable_iff_reaches : (graph triples root).Reachable root v ↔ Reaches triples root v := by
  constructor
  · rintro ⟨walk⟩
    exact reaches_of_walk walk .refl
  · intro h
    induction h with
    | refl => exact SimpleGraph.Reachable.refl _
    | @tail v w hReach hLeads ih =>
      by_cases hEq : v = w
      · exact hEq ▸ ih
      · exact ih.trans (graph_adj_of_leads hReach hLeads hEq).reachable

theorem distance_root : distance triples root root = 0 := SimpleGraph.dist_self

theorem eq_root_of_distance_eq_zero (hReach : Reaches triples root v) (h : distance triples root v = 0) :
    v = root :=
  ((reachable_iff_reaches.mpr hReach).dist_eq_zero_iff.mp h).symm

theorem distance_le_of_leads (hReach : Reaches triples root v) (hLeads : Leads triples v w) :
    distance triples root w ≤ distance triples root v + 1 := by
  by_cases hEq : v = w
  · rw [hEq]
    exact Nat.le_succ _
  · obtain ⟨walk, hLength⟩ := (reachable_iff_reaches.mpr hReach).exists_walk_length_eq_dist
    have hLe := SimpleGraph.dist_le (walk.concat (graph_adj_of_leads hReach hLeads hEq))
    rw [SimpleGraph.Walk.length_concat, hLength] at hLe
    exact hLe

/-- Whatever lies further away is led to from one step nearer. -/
theorem exists_leads_of_distance {d : Nat} (hReach : Reaches triples root w)
    (h : distance triples root w = d + 1) :
    ∃ v, Reaches triples root v ∧ distance triples root v = d ∧ Leads triples v w := by
  have hRoot : root ≠ w := by
    rintro rfl
    rw [distance_root] at h
    cases h
  -- the last step of a shortest walk
  obtain ⟨walk, hLength⟩ := (reachable_iff_reaches.mpr hReach).exists_walk_length_eq_dist
  have hNil : ¬ walk.Nil := SimpleGraph.Walk.not_nil_of_ne hRoot
  have hBefore : walk.dropLast.length = distance triples root walk.penultimate :=
    SimpleGraph.length_eq_dist_of_subwalk hLength walk.isSubwalk_rfl.dropLast
  have hShorter := walk.length_dropLast_add_one hNil
  refine ⟨walk.penultimate, reaches_of_walk walk.dropLast .refl, ?_, ?_⟩
  · have hLong : walk.length = d + 1 := hLength.trans h
    omega
  · obtain ⟨hNe, _, hEnd, t, ht, hv, hw⟩ := walk.adj_penultimate hNil
    exact ⟨hEnd.resolve_left hRoot.symm, t, ht, opposite?_eq_some_of_ne hNe hv hw⟩

/-- What holds while a search waits: first come terms at one distance, then terms one step further; all that
is as near as the first has had its turn or is among them, and nothing that has had its turn leads elsewhere. -/
structure Layered (triples : List Triple) (root : Term) (past near far : List Term) (d : Nat) : Prop where
  level : ∀ v ∈ near, Reaches triples root v ∧ distance triples root v = d
  level_succ : ∀ v ∈ far, Reaches triples root v ∧ distance triples root v = d + 1
  inner : ∀ v, Reaches triples root v → distance triples root v ≤ d → v ∈ past ++ near
  closed : ∀ v ∈ past, ∀ w, Leads triples v w → w ∈ past ++ near ++ far

namespace Layered

variable {past near far : List Term} {d : Nat}

theorem start : Layered triples root [] [root] [] 0 where
  level v hv := by
    rw [List.mem_singleton.mp hv]
    exact ⟨.refl, distance_root⟩
  level_succ v hv := by cases hv
  inner v hReach hNear := by
    rw [eq_root_of_distance_eq_zero hReach (Nat.le_zero.mp hNear)]
    exact List.mem_cons_self
  closed v hv := by cases hv

/-- When nobody of the nearer layer waits, the next layer is complete. -/
theorem next (h : Layered triples root past [] far d) : Layered triples root past far [] (d + 1) where
  level := h.level_succ
  level_succ v hv := by cases hv
  inner v hReach hNear := by
    rcases Nat.lt_or_eq_of_le hNear with hLess | hEq
    · have hPast := h.inner v hReach (Nat.le_of_lt_succ hLess)
      rw [List.append_nil] at hPast
      exact List.mem_append_left _ hPast
    · obtain ⟨u, hu, hDistance, hLeads⟩ := exists_leads_of_distance hReach hEq
      have hPast := h.inner u hu hDistance.le
      rw [List.append_nil] at hPast
      have hSeen := h.closed u hPast v hLeads
      rw [List.append_nil] at hSeen
      exact hSeen
  closed v hv w hLeads := by
    have hSeen := h.closed v hv w hLeads
    rw [List.append_nil] at hSeen ⊢
    exact hSeen

/-- A turn of the nearer layer: what it finds is new, so it lies one step further. -/
theorem turn (h : Layered triples root past (v :: near) far d) :
    Layered triples root (past ++ [v]) near
      (far ++ Anchor.discovered v (past ++ v :: (near ++ far)) triples) d where
  level u hu := h.level u (List.mem_cons_of_mem _ hu)
  level_succ u hu := by
    rcases List.mem_append.mp hu with hu | hu
    · exact h.level_succ u hu
    · obtain ⟨hVar, hNew, hFar⟩ := Anchor.mem_discovered_iff.mp hu
      obtain ⟨hReach, hDistance⟩ := h.level v List.mem_cons_self
      have hLe := distance_le_of_leads hReach ⟨hVar, hFar⟩
      refine ⟨hReach.tail ⟨hVar, hFar⟩, ?_⟩
      by_contra hNe
      apply hNew
      have hInner := h.inner u (hReach.tail ⟨hVar, hFar⟩) (by omega)
      rw [← List.cons_append, ← List.append_assoc]
      exact List.mem_append_left _ hInner
  inner u hReach hNear := by
    rw [List.append_assoc, List.singleton_append]
    exact h.inner u hReach hNear
  closed u hu w hLeads := by
    have hShift : past ++ [v] ++ near ++ (far ++ Anchor.discovered v (past ++ v :: (near ++ far)) triples) =
        past ++ v :: (near ++ far) ++ Anchor.discovered v (past ++ v :: (near ++ far)) triples := by simp
    rw [hShift]
    by_cases hSeen : w ∈ past ++ v :: (near ++ far)
    · exact List.mem_append_left _ hSeen
    · rcases List.mem_append.mp hu with hu | hu
      · refine absurd ?_ hSeen
        have hClosed := h.closed u hu w hLeads
        rw [List.append_assoc, List.cons_append] at hClosed
        exact hClosed
      · rw [List.mem_singleton.mp hu] at hLeads
        exact List.mem_append_right _ (Anchor.mem_discovered_iff.mpr ⟨hLeads.1, hSeen, hLeads.2⟩)

theorem ordered_visitsFrom {waiting : List Term} (h : Layered triples root past near far d)
    (hWaiting : waiting = near ++ far) :
    (∀ v ∈ visitsFrom triples past waiting, d ≤ distance triples root v) ∧
      (visitsFrom triples past waiting).Pairwise (distance triples root · ≤ distance triples root ·) := by
  fun_induction visitsFrom triples past waiting generalizing near far d with
  | case1 => simp
  | case2 past v waiting ih =>
    -- if the nearer layer is empty, the one behind it takes its place
    obtain ⟨e, near, far, hLe, hLayered, hWaiting⟩ :
        ∃ e near' far', d ≤ e ∧ Layered triples root past (v :: near') far' e ∧ waiting = near' ++ far' := by
      cases near with
      | nil =>
        rw [List.nil_append] at hWaiting
        subst hWaiting
        exact ⟨d + 1, waiting, [], Nat.le_succ d, h.next, (List.append_nil _).symm⟩
      | cons u near =>
        obtain ⟨rfl, hRest⟩ := List.cons.inj hWaiting
        exact ⟨d, near, far, Nat.le_refl d, h, hRest⟩
    subst hWaiting
    obtain ⟨hRest, hPairs⟩ := ih hLayered.turn (List.append_assoc _ _ _)
    have hHere := (hLayered.level v List.mem_cons_self).2
    refine ⟨List.forall_mem_cons.mpr ⟨?_, fun w hw => hLe.trans (hRest w hw)⟩,
      List.pairwise_cons.mpr ⟨fun w hw => ?_, hPairs⟩⟩
    · rw [hHere]
      exact hLe
    · rw [hHere]
      exact hRest w hw

end Layered

theorem pairwise_distance_visits (triples : List Triple) (root : Term) :
    (visits triples root).Pairwise (distance triples root · ≤ distance triples root ·) :=
  (Layered.start.ordered_visitsFrom rfl).2

end Triple

end LogicalForm
