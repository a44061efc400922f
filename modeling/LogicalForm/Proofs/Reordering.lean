import LogicalForm.Proofs.Distance
import LogicalForm.Proofs.Turns

/-!
# Triples in another order

What is reached and how far away it is does not depend on the order of the triples. That order decides one
thing only: which of two terms at the same distance has its turn first, and so gets the triples between
them. A term that has nothing but such triples, beside those that lead back, can lose all of them; the same
triples then make a form in one order and none in another.
-/

namespace LogicalForm
set_option autoImplicit false

theorem idxOf_lt_idxOf_iff_mem {order before after : List Term} {v w : Term}
    (hSplit : order = before ++ v :: after) (hNodup : order.Nodup) (hMem : w ∈ order) :
    order.idxOf v < order.idxOf w ↔ w ∈ after := by
  subst hSplit
  obtain ⟨_, hTail, hDisjoint⟩ := List.nodup_append.mp hNodup
  have hFirst : v ∉ before := fun h => hDisjoint v h v List.mem_cons_self rfl
  have hv : (before ++ v :: after).idxOf v = before.length := by
    rw [List.idxOf_append_of_notMem hFirst, List.idxOf_cons_self, Nat.add_zero]
  rw [hv]
  rcases List.mem_append.mp hMem with hBefore | hRest
  · have hNot : w ∉ after := fun h => hDisjoint w hBefore w (List.mem_cons_of_mem _ h) rfl
    rw [List.idxOf_append_of_mem hBefore]
    exact iff_of_false (Nat.lt_asymm (List.idxOf_lt_length_iff.mpr hBefore)) hNot
  · rcases List.mem_cons.mp hRest with rfl | hAfter
    · rw [hv]
      exact iff_of_false (Nat.lt_irrefl _) (List.nodup_cons.mp hTail).1
    · have hNe : v ≠ w := fun h => (List.nodup_cons.mp hTail).1 (h ▸ hAfter)
      have hNotBefore : w ∉ before := fun h => hDisjoint w h w hRest rfl
      rw [List.idxOf_append_of_notMem hNotBefore, List.idxOf_cons_ne after hNe]
      exact iff_of_true (by omega) hAfter

namespace Triple

/-- A triple that is there for `v` in every order: it leads back to `v`, to something that is never reached,
or further away. -/
def Firm (triples : List Triple) (root v : Term) : Prop :=
  ∃ t ∈ triples, ∃ w, t.opposite? v = some w ∧
    (w = v ∨ ¬ Reaches triples root w ∨ distance triples root v < distance triples root w)

/-- Two terms at the same distance with a triple between them. -/
def Abreast (triples : List Triple) (root v w : Term) : Prop :=
  (graph triples root).Adj v w ∧ distance triples root v = distance triples root w

variable {triples triples' : List Triple} {root v w : Term} {before after : List Term}

/-- In its turn a term finds a triple that nobody took before if it has a firm one, or one that it shares
with a term at the same distance whose turn is later. -/
theorem exists_free_iff (hVisits : visits triples root = before ++ v :: after) :
    (∃ t ∈ triples, t.touches v = true ∧ ∀ u ∈ before, t.touches u = false) ↔
      Firm triples root v ∨ ∃ w ∈ after, Abreast triples root v w := by
  have hNodup : (before ++ v :: after).Nodup := hVisits ▸ nodup_visits
  have hOrder := hVisits ▸ pairwise_distance_visits triples root
  have hReached : ∀ u, Reaches triples root u ↔ u ∈ before ∨ u = v ∨ u ∈ after := by
    intro u
    rw [← mem_visits_iff, hVisits, List.mem_append, List.mem_cons]
  have hBefore : ∀ u ∈ before, distance triples root u ≤ distance triples root v :=
    fun u hu => (List.pairwise_append.mp hOrder).2.2 u hu v List.mem_cons_self
  have hAfter : ∀ u ∈ after, distance triples root v ≤ distance triples root u :=
    (List.pairwise_cons.mp (List.pairwise_append.mp hOrder).2.1).1
  have hApart : ∀ u ∈ before, u ≠ v ∧ u ∉ after := by
    intro u hu
    have hDisjoint := (List.nodup_append.mp hNodup).2.2 u hu
    exact ⟨hDisjoint v List.mem_cons_self, fun hLater => hDisjoint u (List.mem_cons_of_mem _ hLater) rfl⟩
  constructor
  · rintro ⟨t, ht, hTouch, hFree⟩
    obtain ⟨w, hFar⟩ := exists_opposite_of_touches hTouch
    by_cases hSelf : w = v
    · exact Or.inl ⟨t, ht, w, hFar, Or.inl hSelf⟩
    by_cases hReach : Reaches triples root w
    · have hLater : w ∈ after := by
        rcases (hReached w).mp hReach with hEarlier | hEq | hLater
        · have hFreeHere := hFree w hEarlier
          rw [touches_of_opposite hFar] at hFreeHere
          cases hFreeHere
        · exact absurd hEq hSelf
        · exact hLater
      rcases Nat.lt_or_eq_of_le (hAfter w hLater) with hFurther | hSame
      · exact Or.inl ⟨t, ht, w, hFar, Or.inr (Or.inr hFurther)⟩
      · refine Or.inr ⟨w, hLater, ⟨Ne.symm hSelf, ?_, hReach.eq_or_isVar, t, ht, hTouch,
          touches_of_opposite hFar⟩, hSame⟩
        exact ((hReached v).mpr (Or.inr (Or.inl rfl))).eq_or_isVar
    · exact Or.inl ⟨t, ht, w, hFar, Or.inr (Or.inl hReach)⟩
  · -- the far end of the triple had no turn yet, so no earlier term touches it
    have hFree : ∀ (t : Triple) (w : Term), t.opposite? v = some w → w ∉ before →
        t.touches v = true ∧ ∀ u ∈ before, t.touches u = false := by
      intro t w hFar hNotBefore
      refine ⟨(touches_iff_of_opposite hFar).mpr (Or.inl rfl), fun u hu => ?_⟩
      rw [← Bool.not_eq_true, touches_iff_of_opposite hFar]
      rintro (rfl | rfl)
      · exact (hApart u hu).1 rfl
      · exact hNotBefore hu
    rintro (⟨t, ht, w, hFar, hFirm⟩ | ⟨w, hLater, ⟨hNe, _, _, t, ht, hv, hw⟩, _⟩)
    · refine ⟨t, ht, hFree t w hFar fun hEarlier => ?_⟩
      rcases hFirm with rfl | hUnreached | hFurther
      · exact (hApart w hEarlier).1 rfl
      · exact hUnreached ((hReached w).mpr (Or.inl hEarlier))
      · exact absurd (hBefore w hEarlier) (Nat.not_le_of_lt hFurther)
    · exact ⟨t, ht, hFree t w (opposite?_eq_some_of_ne hNe hv hw) fun hEarlier => (hApart w hEarlier).2 hLater⟩

/-- Everyone finds something exactly if each has a firm triple, or one that it shares with a term at the
same distance and gets first. -/
theorem supplies_visits_iff :
    Supplies triples [] (visits triples root) ↔ ∀ v, Reaches triples root v →
      Firm triples root v ∨ ∃ w, Abreast triples root v w ∧
        (visits triples root).idxOf v < (visits triples root).idxOf w := by
  have hSplit : ∀ {before after : List Term} {v : Term}, visits triples root = before ++ v :: after →
      ((∃ w ∈ after, Abreast triples root v w) ↔ ∃ w, Abreast triples root v w ∧
        (visits triples root).idxOf v < (visits triples root).idxOf w) := by
    intro before after v hVisits
    have hReach : Reaches triples root v := mem_visits_iff.mp (hVisits ▸ by simp)
    constructor
    · rintro ⟨w, hLater, hAbreast⟩
      refine ⟨w, hAbreast, (idxOf_lt_idxOf_iff_mem hVisits nodup_visits ?_).mpr hLater⟩
      exact mem_visits_iff.mpr (reaches_of_adj hReach hAbreast.1)
    · rintro ⟨w, hAbreast, hFirst⟩
      refine ⟨w, (idxOf_lt_idxOf_iff_mem hVisits nodup_visits ?_).mp hFirst, hAbreast⟩
      exact mem_visits_iff.mpr (reaches_of_adj hReach hAbreast.1)
  constructor
  · intro h v hReach
    obtain ⟨before, after, hVisits⟩ := List.append_of_mem (mem_visits_iff.mpr hReach)
    rw [← hSplit hVisits, ← exists_free_iff hVisits]
    exact h before v after hVisits
  · intro h before v after hVisits
    have hReach : Reaches triples root v := mem_visits_iff.mp (hVisits ▸ by simp)
    rw [List.nil_append, exists_free_iff hVisits, hSplit hVisits]
    exact h v hReach

theorem reaches_perm (hPerm : triples.Perm triples') : Reaches triples = Reaches triples' := by
  have hLeads : Leads triples = Leads triples' := by
    funext v w
    simp only [Leads, hPerm.mem_iff]
  rw [Reaches, Reaches, hLeads]

theorem graph_perm (hPerm : triples.Perm triples') : graph triples root = graph triples' root := by
  ext v w
  simp only [graph, hPerm.mem_iff]

theorem firm_perm (hPerm : triples.Perm triples') : Firm triples root v ↔ Firm triples' root v := by
  simp only [Firm, distance, hPerm.mem_iff, reaches_perm hPerm, graph_perm hPerm]

theorem abreast_perm (hPerm : triples.Perm triples') :
    Abreast triples root v w ↔ Abreast triples' root v w := by
  simp only [Abreast, distance, graph_perm hPerm]

end Triple

namespace Anchor

variable {root : Term} {triples triples' : List Triple} {anchors : List Anchor}

/-- Triples that can be shared out in one order can be in another exactly if, in that other order, each term
without a firm triple has its turn before some term abreast of it. Where this fails the search stops at a
term that had its turn before a term abreast of it and now has it after. -/
theorem ofTriples_reordered (hPerm : triples.Perm triples') (h : ofTriples root triples = .ok anchors) :
    ((∃ anchors', ofTriples root triples' = .ok anchors') ↔ ∀ v, Triple.Reaches triples root v →
      Triple.Firm triples root v ∨ ∃ w, Triple.Abreast triples root v w ∧
        (Triple.visits triples' root).idxOf v < (Triple.visits triples' root).idxOf w) ∧
    ∀ rejection, ofTriples root triples' = .error rejection →
      ∃ v w, rejection = .disconnected (.unanchored v) ∧ ¬ Triple.Firm triples root v ∧
        Triple.Abreast triples root v w ∧
        (Triple.visits triples root).idxOf v < (Triple.visits triples root).idxOf w ∧
        (Triple.visits triples' root).idxOf w < (Triple.visits triples' root).idxOf v := by
  obtain ⟨hTouched, hSupplies⟩ := exists_ofTriples_iff.mp ⟨anchors, h⟩
  have hTouched' : ∀ t ∈ triples', ∃ v, Triple.Reaches triples' root v ∧ t.touches v = true := by
    simp only [← hPerm.mem_iff, ← Triple.reaches_perm hPerm]
    exact hTouched
  constructor
  · rw [exists_ofTriples_iff, and_iff_right hTouched', Triple.supplies_visits_iff]
    simp only [Triple.reaches_perm hPerm, Triple.firm_perm hPerm, Triple.abreast_perm hPerm]
  · intro rejection hError
    rcases ofTriples_error_cases hError with ⟨orphans, rfl⟩ | ⟨v, rfl⟩
    · obtain ⟨rfl, hSome⟩ := orphans_of_unreachable hError
      rw [← Triple.untouched_visits] at hSome
      exact absurd (Triple.untouched_visits_eq_nil_iff.mpr hTouched') hSome
    · obtain ⟨after, hVisits, hShared⟩ := stops_of_unanchored hError
      have hMem : v ∈ Triple.visits triples' root := hVisits ▸ by simp
      have hReach := Triple.mem_visits_iff.mp hMem
      have hStuck : ¬ ∃ t ∈ triples', t.touches v = true ∧
          ∀ u ∈ (Survey.ofRoot root triples').anchors.map term, t.touches u = false := by
        rintro ⟨t, ht, hTouch, hFree⟩
        obtain ⟨u, hu, hOwned⟩ := hShared t ht hTouch
        rw [hFree u hu] at hOwned
        cases hOwned
      rw [Triple.exists_free_iff hVisits, not_or, ← Triple.firm_perm hPerm] at hStuck
      obtain ⟨hFirm, hAbreast⟩ := hStuck
      -- in the first order `v` got its triple from a term abreast of it that came later
      rcases Triple.supplies_visits_iff.mp hSupplies v (Triple.reaches_perm hPerm ▸ hReach) with
        hFirm' | ⟨w, hw, hBefore⟩
      · exact absurd hFirm' hFirm
      · refine ⟨v, w, rfl, hFirm, hw, hBefore, ?_⟩
        have hw' := (Triple.abreast_perm hPerm).mp hw
        have hMem' := Triple.mem_visits_iff.mpr (Triple.reaches_of_adj hReach hw'.1)
        have hNotLater : ¬ (Triple.visits triples' root).idxOf v < (Triple.visits triples' root).idxOf w := by
          rw [idxOf_lt_idxOf_iff_mem hVisits Triple.nodup_visits hMem']
          exact fun hLater => hAbreast ⟨w, hLater, hw'⟩
        have hApart : (Triple.visits triples' root).idxOf w ≠ (Triple.visits triples' root).idxOf v := by
          rw [ne_eq, List.idxOf_inj hMem']
          exact hw.1.1.symm
        omega

open Term in
/-- If `z` comes before `y` it takes the triple between them, and `y` has no other. -/
theorem ofTriples_late_turn :
    ofTriples (var "x")
      [⟨var "x", entity "b", var "z"⟩, ⟨var "x", entity "a", var "y"⟩, ⟨var "y", entity "r", var "z"⟩,
        ⟨var "z", entity "s", entity "m"⟩] = .error (.disconnected (.unanchored (var "y"))) := by
  cbv

open Term in
theorem ofTriples_reordered_stops :
    ∃ anchors, ofTriples (var "x")
        [⟨var "x", entity "a", var "y"⟩, ⟨var "x", entity "b", var "z"⟩, ⟨var "y", entity "r", var "z"⟩,
          ⟨var "z", entity "s", entity "m"⟩] = .ok anchors ∧
      ∃ v w, Triple.Abreast
          [⟨var "x", entity "a", var "y"⟩, ⟨var "x", entity "b", var "z"⟩, ⟨var "y", entity "r", var "z"⟩,
            ⟨var "z", entity "s", entity "m"⟩] (var "x") v w ∧
        ofTriples (var "x")
          [⟨var "x", entity "b", var "z"⟩, ⟨var "x", entity "a", var "y"⟩, ⟨var "y", entity "r", var "z"⟩,
            ⟨var "z", entity "s", entity "m"⟩] = .error (.disconnected (.unanchored v)) := by
  refine ⟨[⟨var "x", [⟨var "x", entity "a", var "y"⟩, ⟨var "x", entity "b", var "z"⟩]⟩,
    ⟨var "y", [⟨var "y", entity "r", var "z"⟩]⟩, ⟨var "z", [⟨var "z", entity "s", entity "m"⟩]⟩], ?run, ?_⟩
  · cbv
  · obtain ⟨v, w, hEq, _, hAbreast, _⟩ :=
      (ofTriples_reordered (List.Perm.swap _ _ _) ?run).2 _ ofTriples_late_turn
    exact ⟨v, w, hAbreast, hEq ▸ ofTriples_late_turn⟩

open Term in
/-- Exchanging the first two triples decides whether there is an anchoring at all. -/
theorem ofTriples_depends_on_order :
    ∃ root triples triples', List.Perm triples triples' ∧
      (∃ anchors, ofTriples root triples = .ok anchors) ∧ ¬ ∃ anchors, ofTriples root triples' = .ok anchors := by
  refine ⟨var "x",
    [⟨var "x", entity "a", var "y"⟩, ⟨var "x", entity "b", var "z"⟩, ⟨var "y", entity "r", var "z"⟩,
      ⟨var "z", entity "s", entity "m"⟩], _, List.Perm.swap _ _ _,
    ⟨[⟨var "x", [⟨var "x", entity "a", var "y"⟩, ⟨var "x", entity "b", var "z"⟩]⟩,
      ⟨var "y", [⟨var "y", entity "r", var "z"⟩]⟩, ⟨var "z", [⟨var "z", entity "s", entity "m"⟩]⟩], ?_⟩, ?_⟩
  · cbv
  · rintro ⟨anchors, hAnchors⟩
    cases ofTriples_late_turn.symm.trans hAnchors

end Anchor

end LogicalForm
