import LogicalForm.Proofs.Visits

/-!
# How a search ends

A search walks along the breadth-first order of what the root reaches. It gets to the end exactly if every
term of the order has a triple that touches no term before it; whatever triples are left then touch nothing
that is reached. Otherwise it stops at the first term that has no such triple, and all triples of that term
are in the hands of terms before it.
-/

namespace LogicalForm
set_option autoImplicit false

namespace Triple

/-- Each term of the order has a triple that touches neither a term of the past nor one before it. -/
def Supplies (triples : List Triple) (past order : List Term) : Prop :=
  ∀ before v after, order = before ++ v :: after →
    ∃ t ∈ triples, t.touches v = true ∧ ∀ u ∈ past ++ before, t.touches u = false

theorem supplies_nil (triples : List Triple) (past : List Term) : Supplies triples past [] := by
  intro before v after hSplit
  simp at hSplit

theorem supplies_cons {triples : List Triple} {past order : List Term} {v : Term}
    (hHere : ∃ t ∈ triples, t.touches v = true ∧ ∀ u ∈ past, t.touches u = false)
    (hRest : Supplies triples (past ++ [v]) order) : Supplies triples past (v :: order) := by
  intro before w after hSplit
  cases before with
  | nil =>
    obtain ⟨rfl, _⟩ := List.cons.inj hSplit
    rw [List.append_nil]
    exact hHere
  | cons first before =>
    obtain ⟨rfl, hTail⟩ := List.cons.inj hSplit
    rw [List.append_cons]
    exact hRest before w after hTail

def Stray (triples : List Triple) (root : Term) (t : Triple) : Prop :=
  ∀ v, Reaches triples root v → t.touches v = false

instance (triples : List Triple) (root : Term) : DecidablePred (Stray triples root) := fun t =>
  decidable_of_iff (∀ v ∈ visits triples root, t.touches v = false) (by simp only [mem_visits_iff, Stray])

theorem untouched_visits (triples : List Triple) (root : Term) :
    Anchor.untouched (visits triples root) triples = triples.filter (Stray triples root ·) := by
  rw [Anchor.untouched]
  congr 1
  funext t
  rw [Bool.eq_iff_iff, decide_eq_true_iff, List.all_eq_true]
  simp only [Stray, mem_visits_iff, Bool.not_eq_true']

theorem untouched_visits_eq_nil_iff {triples : List Triple} {root : Term} :
    Anchor.untouched (visits triples root) triples = [] ↔
      ∀ t ∈ triples, ∃ v, Reaches triples root v ∧ t.touches v = true := by
  rw [untouched_visits, List.filter_eq_nil_iff]
  refine forall₂_congr fun t _ => ?_
  rw [decide_eq_true_iff, Stray]
  simp only [not_forall, Bool.not_eq_false, exists_prop]

end Triple

namespace Survey

/-- The turns of the terms of an order, when those in `past` have had theirs. -/
def along (triples : List Triple) (past : List Term) : List Term → Survey
  | [] =>
    ⟨[], if Anchor.untouched past triples = [] then none
      else some (.unreachable (Anchor.untouched past triples))⟩
  | v :: order =>
    if Anchor.taken v (Anchor.untouched past triples) = [] then ⟨[], some (.unanchored v)⟩
    else
      ⟨⟨v, Anchor.taken v (Anchor.untouched past triples)⟩ :: (along triples (past ++ [v]) order).anchors,
        (along triples (past ++ [v]) order).fault⟩

/-- A search is a walk along the order of the turns. -/
theorem run_eq_along {triples : List Triple} {past waiting : List Term} (h : (past ++ waiting).Nodup) :
    run (Anchor.untouched past triples) (past ++ waiting) waiting =
      along triples past (Triple.visitsFrom triples past waiting) := by
  fun_induction Triple.visitsFrom triples past waiting with
  | case1 past => rw [run, along]
  | case2 past v waiting ih =>
    have hFirst : v ∉ past := fun hPast => (List.nodup_append.mp h).2.2 v hPast v List.mem_cons_self rfl
    have hSeen : past ++ v :: waiting ++ Anchor.discovered v (past ++ v :: waiting) triples =
        past ++ [v] ++ (waiting ++ Anchor.discovered v (past ++ v :: waiting) triples) := by simp
    -- what `v` finds in the pool leads on to the same terms as all the triples
    have hRest := ih (hSeen ▸ Anchor.nodup_append_discovered triples h)
    rw [← hSeen] at hRest
    rw [run, along, Anchor.discovered_taken_untouched triples (List.subset_append_left _ _) hFirst,
      Anchor.left_untouched]
    simp only [hRest, dite_eq_ite]

theorem ofRoot_eq_along (root : Term) (triples : List Triple) :
    ofRoot root triples = along triples [] (Triple.visits triples root) := by
  have hAll : Anchor.untouched [] triples = triples := by simp [Anchor.untouched]
  rw [Triple.visits, ← run_eq_along (List.nodup_singleton root), hAll]
  rfl

inductive Ends (triples : List Triple) (past order : List Term) (survey : Survey) : Prop where
  | complete (hTerms : survey.anchors.map Anchor.term = order) (hFault : survey.fault = none)
      (hSupplies : Triple.Supplies triples past order)
      (hRest : Anchor.untouched (past ++ order) triples = [])
  | unreachable (hFault : survey.fault = some (.unreachable (Anchor.untouched (past ++ order) triples)))
      (hRest : Anchor.untouched (past ++ order) triples ≠ [])
  | unanchored (before after : List Term) (v : Term) (hSplit : order = before ++ v :: after)
      (hTerms : survey.anchors.map Anchor.term = before) (hFault : survey.fault = some (.unanchored v))
      (hNone : ¬ ∃ t ∈ triples, t.touches v = true ∧ ∀ u ∈ past ++ before, t.touches u = false)

theorem ends_along (triples : List Triple) (past order : List Term) :
    Ends triples past order (along triples past order) := by
  induction order generalizing past with
  | nil =>
    rw [along]
    by_cases hRest : Anchor.untouched past triples = []
    · refine .complete rfl (if_pos hRest) (Triple.supplies_nil triples past) ?_
      rw [List.append_nil, hRest]
    · refine .unreachable ?_ ?_
      · rw [List.append_nil]
        exact if_neg hRest
      · rw [List.append_nil]
        exact hRest
  | cons v order ih =>
    rw [along]
    by_cases hTaken : Anchor.taken v (Anchor.untouched past triples) = []
    · rw [if_pos hTaken]
      refine .unanchored [] order v rfl rfl rfl ?_
      rw [List.append_nil, ← Anchor.taken_untouched_ne_nil_iff]
      exact not_not_intro hTaken
    · rw [if_neg hTaken]
      have hHere := Anchor.taken_untouched_ne_nil_iff.mp hTaken
      cases ih (past ++ [v]) with
      | complete hTerms hFault hSupplies hRest =>
        refine .complete ?_ hFault (Triple.supplies_cons hHere hSupplies) ?_
        · rw [List.map_cons, hTerms]
        · rw [List.append_cons, hRest]
      | unreachable hFault hRest =>
        rw [← List.append_cons] at hFault hRest
        exact .unreachable hFault hRest
      | unanchored before after w hSplit hTerms hFault hNone =>
        refine .unanchored (v :: before) after w (congrArg (v :: ·) hSplit) ?_ hFault ?_
        · rw [List.map_cons, hTerms]
        · rw [List.append_cons]
          exact hNone

theorem ends_ofRoot (root : Term) (triples : List Triple) :
    Ends triples [] (Triple.visits triples root) (ofRoot root triples) := by
  rw [ofRoot_eq_along]
  exact ends_along triples [] _

theorem result_eq_ok_iff {survey : Survey} {anchors : List Anchor} :
    survey.result = .ok anchors ↔ survey.fault = none ∧ survey.anchors = anchors := by
  rw [result]
  cases survey.fault with
  | none => simp
  | some fault => simp

theorem result_eq_error_iff {survey : Survey} {rejection : Rejection} :
    survey.result = .error rejection ↔
      ∃ fault, survey.fault = some fault ∧ rejection = .disconnected fault := by
  rw [result]
  cases survey.fault with
  | none => simp
  | some fault => simp [eq_comm]

end Survey

namespace Anchor

variable {root : Term} {triples : List Triple}

theorem terms_eq_visits {anchors : List Anchor} (h : ofTriples root triples = .ok anchors) :
    anchors.map term = Triple.visits triples root := by
  obtain ⟨hNone, rfl⟩ := Survey.result_eq_ok_iff.mp h
  cases Survey.ends_ofRoot root triples with
  | complete hTerms => exact hTerms
  | unreachable hFault => simp [hNone] at hFault
  | unanchored before after v hSplit hTerms hFault => simp [hNone] at hFault

/-- The triples can be shared out exactly if each touches something that is reached, and each term has one
that no term before it in the breadth-first order touches. -/
theorem exists_ofTriples_iff :
    (∃ anchors, ofTriples root triples = .ok anchors) ↔
      (∀ t ∈ triples, ∃ v, Triple.Reaches triples root v ∧ t.touches v = true) ∧
      Triple.Supplies triples [] (Triple.visits triples root) := by
  rw [← Triple.untouched_visits_eq_nil_iff]
  simp only [ofTriples, Survey.result_eq_ok_iff]
  cases Survey.ends_ofRoot root triples with
  | complete hTerms hFault hSupplies hRest =>
    exact iff_of_true ⟨_, hFault, rfl⟩ ⟨hRest, hSupplies⟩
  | unreachable hFault hRest => exact iff_of_false (by simp [hFault]) fun h => hRest h.1
  | unanchored before after v hSplit hTerms hFault hNone =>
    refine iff_of_false (by simp [hFault]) fun h => hNone ?_
    exact h.2 before v after hSplit

theorem ofTriples_error_cases {rejection : Rejection} (h : ofTriples root triples = .error rejection) :
    (∃ orphans, rejection = .disconnected (.unreachable orphans)) ∨
      ∃ v, rejection = .disconnected (.unanchored v) := by
  obtain ⟨fault, hFault, rfl⟩ := Survey.result_eq_error_iff.mp h
  cases Survey.ends_ofRoot root triples with
  | complete _ hNone => simp [hNone] at hFault
  | unreachable hEnd =>
    cases hEnd.symm.trans hFault
    exact Or.inl ⟨_, rfl⟩
  | unanchored before after v _ _ hEnd =>
    cases hEnd.symm.trans hFault
    exact Or.inr ⟨v, rfl⟩

theorem stops_of_unanchored {v : Term} (h : ofTriples root triples = .error (.disconnected (.unanchored v))) :
    ∃ after, Triple.visits triples root = (Survey.ofRoot root triples).anchors.map term ++ v :: after ∧
      ∀ t ∈ triples, t.touches v = true →
        ∃ u ∈ (Survey.ofRoot root triples).anchors.map term, t.touches u = true := by
  obtain ⟨fault, hFault, hEq⟩ := Survey.result_eq_error_iff.mp h
  cases hEq
  cases Survey.ends_ofRoot root triples with
  | complete _ hNone => simp [hNone] at hFault
  | unreachable hOther => simp [hOther] at hFault
  | unanchored before after w hSplit hTerms hOther hNone =>
    obtain rfl : w = v := by simpa [hOther] using hFault
    rw [hTerms]
    refine ⟨after, hSplit, fun t ht hTouch => ?_⟩
    by_contra hFree
    refine hNone ⟨t, ht, hTouch, fun u hu => ?_⟩
    by_contra hOwned
    exact hFree ⟨u, hu, by simpa using hOwned⟩

theorem orphans_of_unreachable {orphans : List Triple}
    (h : ofTriples root triples = .error (.disconnected (.unreachable orphans))) :
    orphans = triples.filter (Triple.Stray triples root ·) ∧ orphans ≠ [] := by
  obtain ⟨fault, hFault, hEq⟩ := Survey.result_eq_error_iff.mp h
  cases hEq
  rw [← Triple.untouched_visits]
  cases Survey.ends_ofRoot root triples with
  | complete _ hNone => simp [hNone] at hFault
  | unreachable hOther hRest =>
    obtain rfl : Anchor.untouched (Triple.visits triples root) triples = orphans := by
      simpa [hOther] using hFault
    exact ⟨rfl, hRest⟩
  | unanchored before after w hSplit hTerms hOther => simp [hOther] at hFault

/-- How a search ends, said of the triples alone. Its anchors are for what the root reaches; the triples it
cannot place are those that touch nothing reached; a term it stops at shares all its triples with terms that
had their turn. It succeeds if every triple touches something reached, and every term has in breadth-first
order a triple that touches no term before it. -/
theorem ofTriples_outcome (root : Term) (triples : List Triple) :
    (∀ anchors, ofTriples root triples = .ok anchors →
      (∀ v, v ∈ anchors.map term ↔ Triple.Reaches triples root v) ∧
      ∀ t ∈ triples, ∃ v, Triple.Reaches triples root v ∧ t.touches v = true) ∧
    (∀ rejection, ofTriples root triples = .error rejection →
      (∃ orphans, rejection = .disconnected (.unreachable orphans)) ∨
      ∃ v, rejection = .disconnected (.unanchored v)) ∧
    (∀ orphans, ofTriples root triples = .error (.disconnected (.unreachable orphans)) →
      orphans = triples.filter (Triple.Stray triples root ·) ∧ orphans ≠ []) ∧
    (∀ v, ofTriples root triples = .error (.disconnected (.unanchored v)) →
      Triple.Reaches triples root v ∧
      (Survey.ofRoot root triples).anchors.map term ++ [v] <+: Triple.visits triples root ∧
      ∀ t ∈ triples, t.touches v = true →
        ∃ u ∈ (Survey.ofRoot root triples).anchors.map term, t.touches u = true) ∧
    (Triple.visits triples root).Nodup ∧
    (∀ v, v ∈ Triple.visits triples root ↔ Triple.Reaches triples root v) ∧
    ((∃ anchors, ofTriples root triples = .ok anchors) ↔
      (∀ t ∈ triples, ∃ v, Triple.Reaches triples root v ∧ t.touches v = true) ∧
      ∀ before v after, Triple.visits triples root = before ++ v :: after →
        ∃ t ∈ triples, t.touches v = true ∧ ∀ u ∈ before, t.touches u = false) := by
  refine ⟨fun anchors h => ⟨fun v => ?_, (exists_ofTriples_iff.mp ⟨anchors, h⟩).1⟩,
    fun rejection h => ofTriples_error_cases h, fun orphans h => orphans_of_unreachable h, fun v h => ?_,
    Triple.nodup_visits, fun v => Triple.mem_visits_iff, exists_ofTriples_iff⟩
  · rw [terms_eq_visits h, Triple.mem_visits_iff]
  · obtain ⟨after, hVisits, hShared⟩ := stops_of_unanchored h
    refine ⟨Triple.mem_visits_iff.mp ?_, ⟨after, ?_⟩, hShared⟩
    · rw [hVisits]
      exact List.mem_append_right _ List.mem_cons_self
    · rw [hVisits, List.append_assoc, List.singleton_append]

open Term in
/-- Once `z` has its turn, nothing is left for `y`; and nothing that `x` reaches touches the triple of `w`. -/
theorem ofTriples_outcome_rejected :
    (ofTriples (var "x")
        [⟨var "x", entity "r", var "z"⟩, ⟨var "x", entity "r", var "y"⟩, ⟨var "y", entity "s", var "z"⟩] =
          .error (.disconnected (.unanchored (var "y"))) ∧
      Triple.Reaches
        [⟨var "x", entity "r", var "z"⟩, ⟨var "x", entity "r", var "y"⟩, ⟨var "y", entity "s", var "z"⟩]
        (var "x") (var "y")) ∧
    (ofTriples (var "x") [⟨var "w", entity "s", entity "m"⟩, ⟨var "x", entity "r", entity "m"⟩] =
        .error (.disconnected (.unreachable [⟨var "w", entity "s", entity "m"⟩])) ∧
      Triple.Stray [⟨var "w", entity "s", entity "m"⟩, ⟨var "x", entity "r", entity "m"⟩] (var "x")
        ⟨var "w", entity "s", entity "m"⟩) := by
  refine ⟨⟨?stops, ((ofTriples_outcome _ _).2.2.2.1 _ ?stops).1⟩, ?leaves, ?_⟩
  · cbv
  · cbv
  · have hOrphans := ((ofTriples_outcome _ _).2.2.1 _ ?leaves).1
    have hStray := (List.mem_filter.mp (hOrphans ▸ List.mem_cons_self)).2
    exact of_decide_eq_true hStray

end Anchor

end LogicalForm
