import LogicalForm.Proofs.Acceptance
import LogicalForm.Proofs.Meaning

/-!
# Trees of variables

A form asks for far ends one triple at a time, so a variable that is a far end twice may be read as two
different things. Where every variable but the root is a far end once, the things that the form asks for
can be assigned turn by turn: a turn assigns only variables that no turn before has assigned. The form
then denotes the answers of the triples and nothing else.
-/

namespace LogicalForm
set_option autoImplicit false

universe u

namespace Anchor

def farEnds (anchor : Anchor) : List Term := anchor.triples.filterMap (·.opposite? anchor.term)

/-- Every term but the root is the far end of exactly one triple. -/
def IsTree (root : Term) (anchors : List Anchor) : Prop :=
  ∀ v ∈ anchors.map term, v ≠ root → (anchors.flatMap farEnds).count v = 1

instance (root : Term) (anchors : List Anchor) : Decidable (IsTree root anchors) :=
  inferInstanceAs (Decidable (∀ v ∈ anchors.map term, v ≠ root → (anchors.flatMap farEnds).count v = 1))

/-- Every anchor has its turn when its term is settled, and its far ends are settled after that. -/
def Reached : List Term → List Anchor → Prop
  | _, [] => True
  | settled, anchor :: rest => anchor.term ∈ settled ∧ Reached (settled ++ anchor.farEnds) rest

theorem mem_farEnds {anchor : Anchor} {w : Term} :
    w ∈ anchor.farEnds ↔ ∃ t ∈ anchor.triples, t.opposite? anchor.term = some w := List.mem_filterMap

theorem reached_of_split {settled : List Term} {anchors : List Anchor}
    (h : ∀ before anchor after, anchors = before ++ anchor :: after →
      anchor.term ∈ settled ∨ ∃ earlier ∈ before, anchor.term ∈ earlier.farEnds) :
    Reached settled anchors := by
  induction anchors generalizing settled with
  | nil => trivial
  | cons first rest ih =>
    refine ⟨?_, ih fun before anchor after hSplit => ?_⟩
    · rcases h [] first rest rfl with hSettled | ⟨_, hNone, _⟩
      · exact hSettled
      · cases hNone
    · rcases h (first :: before) anchor after (congrArg _ hSplit) with hSettled | ⟨earlier, hEarlier, hFar⟩
      · exact Or.inl (List.mem_append_left _ hSettled)
      · rcases List.mem_cons.mp hEarlier with rfl | hEarlier
        · exact Or.inl (List.mem_append_right _ hFar)
        · exact Or.inr ⟨earlier, hEarlier, hFar⟩

end Anchor

namespace Search

variable {root : Term} {triples : List Triple} {anchors : List Anchor}

theorem reached (h : Search triples [root] [root] anchors) : Anchor.Reached [root] anchors := by
  refine Anchor.reached_of_split fun before anchor after hSplit => ?_
  rcases h.found_before hSplit with hRoot | ⟨earlier, hEarlier, hFar⟩
  · exact Or.inl hRoot
  · exact Or.inr ⟨earlier, hEarlier, Anchor.mem_farEnds.mpr hFar⟩

/-- In a tree without loops the root and the far ends that are variables are all different. -/
theorem nodup_farEnds (h : Search triples [root] [root] anchors) (hLoops : ∀ t ∈ triples, ¬ t.IsLoop)
    (hTree : Anchor.IsTree root anchors) :
    (([root] ++ anchors.flatMap Anchor.farEnds).filter Term.isVar).Nodup := by
  have hFarEnds : ∀ w ∈ anchors.flatMap Anchor.farEnds, w.isVar = true →
      w ∈ anchors.map Anchor.term ∧ w ≠ root := by
    intro w hw hVar
    obtain ⟨anchor, hAnchor, hw⟩ := List.mem_flatMap.mp hw
    obtain ⟨t, ht, hFar⟩ := Anchor.mem_farEnds.mp hw
    obtain ⟨before, after, hSplit⟩ := List.append_of_mem hAnchor
    have hAfter := h.opposite_mem_after hSplit ht hFar hVar (hLoops t (h.mem_pool_iff.mpr ⟨anchor, hAnchor, ht⟩))
    refine ⟨?_, ?_⟩
    · rw [hSplit, List.map_append, List.map_cons]
      exact List.mem_append_right _ (List.mem_cons_of_mem _ hAfter)
    · rintro rfl
      refine h.root_not_mem_after (List.concat_ne_nil anchor before) ?_ hAfter
      rw [hSplit, List.append_assoc, List.singleton_append]
  rw [List.singleton_append, List.nodup_iff_count_le_one]
  intro w
  by_cases hVar : w.isVar = true
  · rw [List.count_filter hVar, List.count_cons]
    by_cases hFar : w ∈ anchors.flatMap Anchor.farEnds
    · obtain ⟨hTerm, hRoot⟩ := hFarEnds w hFar hVar
      rw [hTree w hTerm hRoot, if_neg (by simpa using Ne.symm hRoot)]
    · rw [List.count_eq_zero_of_not_mem hFar]
      split <;> omega
  · rw [List.count_eq_zero_of_not_mem fun hMem => hVar (List.mem_filter.mp hMem).2]
    exact Nat.zero_le 1

end Search

namespace Knowledge

variable {D : Type u} (K : Knowledge D)

/-- A term that is not settled can be given any value, a constant only its own. -/
theorem exists_value_eq (σ : String → D) {settled : List Term} {w : Term} {y : D}
    (hFresh : w.isVar = true → w ∉ settled) (hConstant : w.isVar = false → y = K.constant w.name) :
    ∃ σ', K.value σ' w = y ∧ ∀ v ∈ settled, K.value σ' v = K.value σ v := by
  cases hVar : w.isVar with
  | false => exact ⟨σ, (K.value_of_isVar_eq_false σ hVar).trans (hConstant hVar).symm, fun _ _ => rfl⟩
  | true =>
    cases w with
    | var name =>
      refine ⟨Function.update σ name y, by simp [value], fun v hv => ?_⟩
      cases v with
      | var other =>
        refine Function.update_of_ne ?_ y σ
        rintro rfl
        exact hFresh hVar hv
      | entity _ => rfl
      | literal _ => rfl
    | entity _ => cases hVar
    | literal _ => cases hVar

variable {K} {known : Clauses}

theorem constant_of_operand {w : Term} {operand : Form} {y : D}
    (hKeys : ∀ v ∈ known.map Prod.fst, v.isVar = true) (hOperand : known.operand w = .ok operand)
    (hy : y ∈ operand.denote K) (hVar : w.isVar = false) : y = K.constant w.name := by
  rcases Clauses.operand_eq_ok_iff.mp hOperand with hFound | ⟨_, _, rfl⟩
  · rw [hKeys w (Clauses.mem_keys_of_lookup hFound)] at hVar
    cases hVar
  · exact hy

/-- One turn: what the triples of a settled term ask for is assigned to their far ends. -/
theorem exists_assignment {v : Term} {triples : List Triple} {σ : String → D} {settled : List Term}
    (hKeys : ∀ v ∈ known.map Prod.fst, v.isVar = true) (hSettled : v ∈ settled)
    (hOnce : ((settled ++ triples.filterMap (·.opposite? v)).filter Term.isVar).Nodup)
    (hAsked : ∀ t ∈ triples, ∃ w operand, t.opposite? v = some w ∧ known.operand w = .ok operand ∧
      ∃ y ∈ operand.denote K, K.Links t v (K.value σ v) y) :
    ∃ σ', (∀ w ∈ settled, K.value σ' w = K.value σ w) ∧
      ∀ t ∈ triples, K.Satisfies σ' t ∧ ∀ w operand, t.opposite? v = some w →
        known.operand w = .ok operand → K.value σ' w ∈ operand.denote K := by
  induction triples generalizing σ settled with
  | nil => exact ⟨σ, fun _ _ => rfl, by simp⟩
  | cons t triples ih =>
    obtain ⟨⟨w, operand, hFar, hOperand, y, hy, hLinks⟩, hRest⟩ := List.forall_mem_cons.mp hAsked
    simp only [List.filterMap_cons, hFar] at hOnce
    rw [List.append_cons] at hOnce
    have hFresh : w.isVar = true → w ∉ settled := by
      intro hVar hMem
      rw [List.filter_append, List.filter_append, List.filter_singleton, hVar, cond_true] at hOnce
      have hDisjoint := (List.nodup_append.mp (List.nodup_append.mp hOnce).1).2.2
      exact hDisjoint w (List.mem_filter.mpr ⟨hMem, hVar⟩) w List.mem_cons_self rfl
    obtain ⟨σ₁, hw, hKept⟩ := K.exists_value_eq σ hFresh (constant_of_operand hKeys hOperand hy)
    have hv := hKept v hSettled
    obtain ⟨σ₂, hKept₂, hTriples⟩ := ih (List.mem_append_left _ hSettled) hOnce (hv ▸ hRest)
    have hv₂ : K.value σ₂ v = K.value σ v := (hKept₂ v (List.mem_append_left _ hSettled)).trans hv
    have hw₂ : K.value σ₂ w = y := (hKept₂ w (by simp)).trans hw
    refine ⟨σ₂, fun x hx => (hKept₂ x (List.mem_append_left _ hx)).trans (hKept x hx),
      List.forall_mem_cons.mpr ⟨⟨?_, ?_⟩, hTriples⟩⟩
    · rw [K.satisfies_iff_links hFar, hv₂, hw₂]
      exact hLinks
    · intro w' operand' hFar' hOperand'
      cases hFar.symm.trans hFar'
      cases hOperand.symm.trans hOperand'
      exact hw₂ ▸ hy

/-- All turns: an assignment that suits the clauses of the settled terms extends to a solution. -/
theorem exists_solution {anchors : List Anchor} {table : Clauses} {σ : String → D} {settled : List Term}
    (hTable : Clauses.ofAnchors .none anchors = .ok table)
    (hVars : ∀ v ∈ anchors.map Anchor.term, v.isVar = true) (hNodup : (anchors.map Anchor.term).Nodup)
    (hReached : Anchor.Reached settled anchors)
    (hOnce : ((settled ++ anchors.flatMap Anchor.farEnds).filter Term.isVar).Nodup)
    (hSuits : ∀ v ∈ settled, ∀ form, table.lookup v = some form → K.value σ v ∈ form.denote K) :
    ∃ σ', (∀ v ∈ settled, K.value σ' v = K.value σ v) ∧
      ∀ anchor ∈ anchors, ∀ t ∈ anchor.triples, K.Satisfies σ' t := by
  induction anchors generalizing table σ settled with
  | nil => exact ⟨σ, fun _ _ => rfl, by simp⟩
  | cons anchor rest ih =>
    obtain ⟨known, clause, hKnown, hClause, rfl⟩ := Clauses.ofAnchors_cons_eq_ok_iff.mp hTable
    obtain ⟨hTerm, hReached⟩ := hReached
    obtain ⟨hNew, hNodup⟩ := List.nodup_cons.mp hNodup
    have hKeys : ∀ v ∈ known.map Prod.fst, v.isVar = true := fun v hv =>
      hVars v (List.mem_cons_of_mem _ (Clauses.keys_ofAnchors hKnown ▸ hv))
    rw [List.flatMap_cons, ← List.append_assoc] at hOnce
    have hHere := hSuits anchor.term hTerm clause List.lookup_cons_self
    obtain ⟨σ₁, hKept, hTriples⟩ := exists_assignment hKeys hTerm
      ((List.sublist_append_left _ _).filter _ |>.nodup hOnce) ((Clauses.mem_denote_ofAnchor hClause).mp hHere)
    -- the clauses of later terms stand in the table of the rest, which the far ends were chosen to suit
    have hSuits₁ : ∀ v ∈ settled ++ anchor.farEnds, ∀ form, known.lookup v = some form →
        K.value σ₁ v ∈ form.denote K := by
      intro v hv form hFound
      rcases List.mem_append.mp hv with hv | hv
      · rw [hKept v hv]
        exact hSuits v hv form (Clauses.lookup_cons_of_not_mem (Clauses.keys_ofAnchors hKnown ▸ hNew) hFound)
      · obtain ⟨t, ht, hFar⟩ := Anchor.mem_farEnds.mp hv
        exact (hTriples t ht).2 v form hFar (Clauses.operand_eq_ok_iff.mpr (Or.inl hFound))
    obtain ⟨σ₂, hKept₂, hSolves⟩ := ih hKnown (fun v hv => hVars v (List.mem_cons_of_mem _ hv)) hNodup
      hReached hOnce hSuits₁
    refine ⟨σ₂, fun v hv => (hKept₂ v (List.mem_append_left _ hv)).trans (hKept v hv),
      List.forall_mem_cons.mpr ⟨fun t ht => ?_, hSolves⟩⟩
    obtain ⟨w, _, hFar, _⟩ := (Clauses.mem_denote_ofAnchor hClause).mp hHere t ht
    rw [K.satisfies_iff_links hFar, hKept₂ _ (List.mem_append_left _ hTerm),
      hKept₂ w (List.mem_append_right _ (Anchor.mem_farEnds.mpr ⟨t, ht, hFar⟩)), ← K.satisfies_iff_links hFar]
    exact (hTriples t ht).1

end Knowledge

namespace Form

variable {root : Term} {triples : List Triple} {anchors : List Anchor} {form : Form} {D : Type u}

theorem answers_subset_denote (K : Knowledge D) (hAnchors : Anchor.ofTriples root triples = .ok anchors)
    (hForm : ofAnchors .none anchors = .ok form) : K.answers root triples ⊆ form.denote K := by
  have hSearch := Anchor.ofTriples_eq_ok_iff.mp hAnchors
  obtain ⟨known, hTable⟩ := exists_root_table hSearch hForm
  rintro x ⟨σ, rfl, hSolves⟩
  refine Clauses.value_mem_denote hTable (fun anchor hAnchor t ht => hSolves t ?_) root form
    List.lookup_cons_self
  exact hSearch.mem_pool_iff.mpr ⟨anchor, hAnchor, ht⟩

theorem denote_subset_answers_of_isTree (K : Knowledge D) (hRoot : root.isVar = true)
    (hAnchors : Anchor.ofTriples root triples = .ok anchors) (hForm : ofAnchors .none anchors = .ok form)
    (hTree : Anchor.IsTree root anchors) : form.denote K ⊆ K.answers root triples := by
  have hSearch := Anchor.ofTriples_eq_ok_iff.mp hAnchors
  obtain ⟨known, hTable⟩ := exists_root_table hSearch hForm
  have hLoops := hSearch.supported_iff.mp (Clauses.exists_ofAnchors_iff.mp ⟨_, hTable⟩)
  intro x hx
  have hValue : K.value (fun _ => x) root = x := K.value_of_isVar hRoot
  -- to begin with only the root is settled, and its clause is the form
  have hSuits : ∀ v ∈ [root], ∀ clause, List.lookup v ((root, form) :: known) = some clause →
      K.value (fun _ => x) v ∈ clause.denote K := by
    intro v hv clause hFound
    rw [List.mem_singleton.mp hv] at hFound ⊢
    rw [List.lookup_cons_self, Option.some.injEq] at hFound
    rw [hValue, ← hFound]
    exact hx
  obtain ⟨σ, hKept, hSolves⟩ := Knowledge.exists_solution hTable (hSearch.isVar_of_mem hRoot)
    hSearch.nodup_root hSearch.reached (hSearch.nodup_farEnds hLoops hTree) hSuits
  refine ⟨σ, (hKept root List.mem_cons_self).trans hValue, fun t ht => ?_⟩
  obtain ⟨anchor, hAnchor, ht⟩ := hSearch.mem_pool_iff.mp ht
  exact hSolves anchor hAnchor t ht

/-- The form denotes every answer of the triples, and only answers where the variables make a tree. -/
theorem denote_ofAnchors_none (K : Knowledge D) (hRoot : root.isVar = true)
    (hAnchors : Anchor.ofTriples root triples = .ok anchors) (hForm : ofAnchors .none anchors = .ok form) :
    K.answers root triples ⊆ form.denote K ∧
    (Anchor.IsTree root anchors → form.denote K = K.answers root triples) := by
  have hAnswers := answers_subset_denote K hAnchors hForm
  refine ⟨hAnswers, fun hTree => Set.Subset.antisymm ?_ hAnswers⟩
  exact denote_subset_answers_of_isTree K hRoot hAnchors hForm hTree

open Term in
theorem denote_ofAnchors_none_chain :
    ∃ anchors form, Anchor.ofTriples (var "x")
        [⟨var "y", entity "s", entity "m"⟩, ⟨var "x", entity "r", var "y"⟩, ⟨var "z", entity "r", var "y"⟩,
          ⟨var "z", entity "s", literal "1961"⟩] = .ok anchors ∧
      ofAnchors .none anchors = .ok form ∧ Anchor.IsTree (var "x") anchors ∧
      ∀ K : Knowledge Nat, form.denote K = K.answers (var "x")
        [⟨var "y", entity "s", entity "m"⟩, ⟨var "x", entity "r", var "y"⟩, ⟨var "z", entity "r", var "y"⟩,
          ⟨var "z", entity "s", literal "1961"⟩] := by
  refine ⟨[⟨var "x", [⟨var "x", entity "r", var "y"⟩]⟩,
    ⟨var "y", [⟨var "y", entity "s", entity "m"⟩, ⟨var "z", entity "r", var "y"⟩]⟩,
    ⟨var "z", [⟨var "z", entity "s", literal "1961"⟩]⟩],
    .join "r" (.and (.inverse "r" (.join "s" (.atom "1961"))) (.join "s" (.atom "m"))),
    ?run, ?form, ?tree, fun K => (denote_ofAnchors_none K rfl ?run ?form).2 ?tree⟩
  · cbv
  · rfl
  · decide

end Form

end LogicalForm
