import LogicalForm.Proofs.Acceptance

/-!
# A year as one more triple

A query that holds a variable to a year can say so in a triple at its end, from the variable to the year.
Nobody touches that triple but the variable, which takes it after all its others, and the year leads nowhere;
so the search runs as it did. The last triple of an anchor is the left operand of its clause, and that is where
the condition puts the year.
-/

namespace LogicalForm
set_option autoImplicit false

namespace Anchor

variable {v : Term} {t : Triple} {pool : List Triple}

/-- The anchors with one more triple for `v`, after those it has. -/
def hold (v : Term) (t : Triple) (anchors : List Anchor) : List Anchor :=
  anchors.map fun anchor => if anchor.term = v then ⟨anchor.term, anchor.triples ++ [t]⟩ else anchor

theorem hold_cons (v : Term) (t : Triple) (anchor : Anchor) (rest : List Anchor) :
    hold v t (anchor :: rest) =
      (if anchor.term = v then ⟨anchor.term, anchor.triples ++ [t]⟩ else anchor) :: hold v t rest := rfl

theorem terms_hold (v : Term) (t : Triple) (anchors : List Anchor) :
    (hold v t anchors).map term = anchors.map term := by
  rw [hold, List.map_map]
  apply List.map_congr_left
  intro anchor _
  rw [Function.comp_apply]
  split <;> rfl

theorem hold_eq_self {anchors : List Anchor} (h : v ∉ anchors.map term) : hold v t anchors = anchors := by
  rw [hold]
  conv_rhs => rw [← List.map_id anchors]
  apply List.map_congr_left
  intro anchor hAnchor
  have hOther : anchor.term ≠ v := fun hEq => h (hEq ▸ List.mem_map_of_mem hAnchor)
  rw [if_neg hOther, id]

theorem taken_append_of_touches (h : t.touches v = true) : taken v (pool ++ [t]) = taken v pool ++ [t] := by
  simp [taken, h]

theorem left_append_of_touches (h : t.touches v = true) : left v (pool ++ [t]) = left v pool := by
  simp [left, h]

theorem taken_append_of_not_touches (h : t.touches v = false) : taken v (pool ++ [t]) = taken v pool := by
  simp [taken, h]

theorem left_append_of_not_touches (h : t.touches v = false) : left v (pool ++ [t]) = left v pool ++ [t] := by
  simp [left, h]

theorem discovered_append_constant {seen : List Term} (triples : List Triple)
    (h : ∀ w, t.opposite? v = some w → w.isVar = false) :
    discovered v seen (triples ++ [t]) = discovered v seen triples := by
  induction triples generalizing seen with
  | nil =>
    simp only [List.nil_append, discovered]
    cases hFar : t.opposite? v with
    | none => rfl
    | some w => simp [h w hFar]
  | cons first triples ih => simp only [List.cons_append, discovered, ih]

end Anchor

/-- A triple to a constant at the end of the pool waits for the first term that touches it. -/
theorem Search.append_constant {pool : List Triple} {seen waiting : List Term}
    {anchors before after : List Anchor} {anchor : Anchor} {t : Triple} (h : Search pool seen waiting anchors)
    (hSplit : anchors = before ++ anchor :: after)
    (hBefore : ∀ earlier ∈ before, t.touches earlier.term = false) (hTouch : t.touches anchor.term = true)
    (hFar : ∀ w, t.opposite? anchor.term = some w → w.isVar = false) :
    Search (pool ++ [t]) seen waiting (before ++ ⟨anchor.term, anchor.triples ++ [t]⟩ :: after) := by
  induction h generalizing before with
  | done seen => simp at hSplit
  | @turn pool seen waiting v rest hTaken hRest ih =>
    cases before with
    | nil =>
      obtain ⟨rfl, rfl⟩ := List.cons.inj hSplit
      rw [List.nil_append, ← Anchor.taken_append_of_touches hTouch]
      refine .turn ?_ ?_
      · rw [Anchor.taken_append_of_touches hTouch]
        exact List.append_ne_nil_of_right_ne_nil _ (List.cons_ne_nil t [])
      · rw [Anchor.taken_append_of_touches hTouch, Anchor.left_append_of_touches hTouch,
          Anchor.discovered_append_constant _ hFar]
        exact hRest
    | cons first before =>
      obtain ⟨rfl, hTail⟩ := List.cons.inj hSplit
      obtain ⟨hFirst, hBefore⟩ := List.forall_mem_cons.mp hBefore
      rw [List.cons_append, ← Anchor.taken_append_of_not_touches hFirst]
      refine .turn ?_ ?_
      · rw [Anchor.taken_append_of_not_touches hFirst]
        exact hTaken
      · rw [Anchor.taken_append_of_not_touches hFirst, Anchor.left_append_of_not_touches hFirst]
        exact ih hTail hBefore

theorem Anchor.ofTriples_append_constant {root v : Term} {triples : List Triple} {anchors : List Anchor}
    {t : Triple} (h : ofTriples root triples = .ok anchors) (hMem : v ∈ anchors.map term)
    (hTouch : ∀ u ∈ anchors.map term, t.touches u = true ↔ u = v)
    (hFar : ∀ w, t.opposite? v = some w → w.isVar = false) :
    ofTriples root (triples ++ [t]) = .ok (hold v t anchors) := by
  have hSearch := ofTriples_eq_ok_iff.mp h
  obtain ⟨anchor, hAnchor, rfl⟩ := List.mem_map.mp hMem
  obtain ⟨before, after, rfl⟩ := List.append_of_mem hAnchor
  have hNodup := hSearch.nodup_root
  rw [List.map_append, List.map_cons, List.nodup_append, List.nodup_cons] at hNodup
  have hBefore : anchor.term ∉ before.map term :=
    fun hEarlier => hNodup.2.2 _ hEarlier _ List.mem_cons_self rfl
  have hHold : hold anchor.term t (before ++ anchor :: after) =
      before ++ ⟨anchor.term, anchor.triples ++ [t]⟩ :: after := by
    have hOthers := hold_eq_self (t := t) hBefore
    have hRest := hold_eq_self (t := t) hNodup.2.1.1
    rw [hold] at hOthers hRest
    rw [hold, List.map_append, List.map_cons, hOthers, hRest, if_pos rfl]
  rw [hHold, ofTriples_eq_ok_iff]
  refine hSearch.append_constant rfl (fun earlier hEarlier => ?_) ((hTouch _ hMem).mpr rfl) hFar
  rw [← Bool.not_eq_true, hTouch _ (List.mem_map_of_mem (List.mem_append_left _ hEarlier))]
  rintro hEq
  exact hBefore (hEq ▸ List.mem_map_of_mem hEarlier)

namespace Clauses

variable {known : Clauses}

/-- The last triple of an anchor is worked in last, to the left of the clause of the others. -/
theorem ofAnchor_append {anchor : Anchor} {t : Triple} (h : anchor.triples ≠ []) :
    known.ofAnchor ⟨anchor.term, anchor.triples ++ [t]⟩ =
      known.ofAnchor anchor >>= fun clause => (known.ofTriple anchor.term t).map (.and · clause) := by
  obtain ⟨first, rest, hTriples⟩ := List.exists_cons_of_ne_nil h
  simp only [ofAnchor, hTriples, List.cons_append, List.foldlM_append, bind_assoc, List.foldlM_cons,
    List.foldlM_nil, bind_pure]

theorem ofTriple_constant {v w : Term} {relation : Term} (hKnown : known.lookup w = none)
    (hConstant : w.isVar = false) :
    known.ofTriple v ⟨v, relation, w⟩ = .ok (.join relation.name (.atom w.name)) := by
  rw [ofTriple, if_pos rfl, operand, hKnown]
  simp [hConstant, Except.map]

theorem ofAnchors_range_eq {v : Term} {relation year : String} {anchors : List Anchor}
    (hSome : ∀ anchor ∈ anchors, anchor.triples ≠ []) (hYear : Term.literal year ∉ anchors.map Anchor.term) :
    ofAnchors (.range v relation year) anchors =
      ofAnchors .none (Anchor.hold v ⟨v, .entity relation, .literal year⟩ anchors) := by
  induction anchors with
  | nil => rfl
  | cons anchor rest ih =>
    obtain ⟨hHere, hRest⟩ := List.forall_mem_cons.mp hSome
    have hLater : Term.literal year ∉ rest.map Anchor.term := fun h => hYear (List.mem_cons_of_mem _ h)
    rw [ofAnchors, ih hRest hLater, Anchor.hold_cons, ofAnchors]
    cases hKnown : ofAnchors .none (Anchor.hold v ⟨v, .entity relation, .literal year⟩ rest) with
    | error cause => rfl
    | ok known =>
      have hUnknown : known.lookup (.literal year) = none := by
        rw [lookup_eq_none_iff_not_mem, keys_ofAnchors hKnown, Anchor.terms_hold]
        exact hLater
      by_cases hPivot : anchor.term = v
      · subst hPivot
        rw [if_pos rfl, ok_bind, ok_bind, ofAnchor_append hHere, ofTriple_constant hUnknown rfl]
        cases known.ofAnchor anchor with
        | error cause => rfl
        | ok clause =>
          simp [Condition.apply, Condition.pivot?, Condition.wrap, Except.map, Term.name, bind, Except.bind]
      · rw [if_neg hPivot, ok_bind, ok_bind]
        cases known.ofAnchor anchor with
        | error cause => rfl
        | ok clause => simp [Condition.apply, Condition.pivot?, Ne.symm hPivot]

end Clauses

namespace Form

variable {root v : Term} {triples : List Triple} {anchors : List Anchor}

theorem ofAnchors_range_eq_hold {relation year : String} (hMem : v ∈ anchors.map Anchor.term)
    (hSome : ∀ anchor ∈ anchors, anchor.triples ≠ []) (hYear : Term.literal year ∉ anchors.map Anchor.term) :
    ofAnchors (.range v relation year) anchors =
      ofAnchors .none (Anchor.hold v ⟨v, .entity relation, .literal year⟩ anchors) := by
  have hAnchors : anchors ≠ [] := by
    rintro rfl
    cases hMem
  have hHold : Anchor.hold v ⟨v, .entity relation, .literal year⟩ anchors ≠ [] :=
    fun hNil => hAnchors (List.map_eq_nil_iff.mp hNil)
  have hTables := @Clauses.ofAnchors_range_eq v relation year anchors hSome hYear
  have hPivot : (Condition.range v relation year).lostPivot? anchors = none := by
    rw [Condition.lostPivot?_eq_none_iff]
    rintro pivot hPivot
    cases hPivot
    exact hMem
  cases hTable : Clauses.ofAnchors (.range v relation year) anchors with
  | error cause =>
    rw [ofAnchors_of_table_error hAnchors hTable, ofAnchors_of_table_error hHold (hTables ▸ hTable)]
  | ok table =>
    cases table with
    | nil => exact absurd (List.map_eq_nil_iff.mp (Clauses.keys_ofAnchors hTable).symm) hAnchors
    | cons entry known =>
      rw [ofAnchors_of_table hTable, ofAnchors_of_table (hTables ▸ hTable), hPivot]
      rfl

/-- Holding a variable to a year is one more triple at the end: the anchors are the same, the variable has
the triple after its others, and the form or the failure is the same. -/
theorem ofAnchors_range (hRoot : root.isVar = true) (hAnchors : Anchor.ofTriples root triples = .ok anchors)
    (hMem : v ∈ anchors.map Anchor.term) (relation year : String) :
    Anchor.ofTriples root (triples ++ [⟨v, .entity relation, .literal year⟩]) =
      .ok (Anchor.hold v ⟨v, .entity relation, .literal year⟩ anchors) ∧
    ofAnchors (.range v relation year) anchors =
      ofAnchors .none (Anchor.hold v ⟨v, .entity relation, .literal year⟩ anchors) := by
  have hSearch := Anchor.ofTriples_eq_ok_iff.mp hAnchors
  have hVars := hSearch.isVar_of_mem hRoot
  have hYear : Term.literal year ∉ anchors.map Anchor.term := fun hTerm => by
    cases hVars _ hTerm
  constructor
  · apply Anchor.ofTriples_append_constant hAnchors hMem
    · intro u hu
      rw [Triple.touches_eq_true_iff]
      constructor
      · rintro (hSubject | rfl)
        · exact hSubject.symm
        · exact absurd hu hYear
      · exact fun hEq => Or.inl hEq.symm
    · intro w hFar
      rcases Triple.opposite?_eq_some_iff.mp hFar with ⟨_, rfl⟩ | ⟨hNot, _⟩
      · rfl
      · exact absurd rfl hNot
  · exact ofAnchors_range_eq_hold hMem (fun anchor hAnchor => hSearch.shares.triples_ne_nil hAnchor) hYear

open Term in
/-- The year of `y`, whose clause is asked for twice. -/
theorem ofAnchors_range_shared :
    ∃ anchors, Anchor.ofTriples (var "x")
        [⟨var "x", entity "r", var "y"⟩, ⟨var "y", entity "q", var "x"⟩, ⟨var "y", entity "s", entity "m"⟩] =
          .ok anchors ∧
      Anchor.ofTriples (var "x")
        [⟨var "x", entity "r", var "y"⟩, ⟨var "y", entity "q", var "x"⟩, ⟨var "y", entity "s", entity "m"⟩,
          ⟨var "y", entity "a.b.time", literal "2009"⟩] =
          .ok (Anchor.hold (var "y") ⟨var "y", entity "a.b.time", literal "2009"⟩ anchors) ∧
      ofAnchors (.range (var "y") "a.b.time" "2009") anchors =
        ofAnchors .none (Anchor.hold (var "y") ⟨var "y", entity "a.b.time", literal "2009"⟩ anchors) := by
  refine ⟨[⟨var "x", [⟨var "x", entity "r", var "y"⟩, ⟨var "y", entity "q", var "x"⟩]⟩,
    ⟨var "y", [⟨var "y", entity "s", entity "m"⟩]⟩], ?run, ofAnchors_range rfl ?run ?_ "a.b.time" "2009"⟩
  · cbv
  · decide

end Form

end LogicalForm
