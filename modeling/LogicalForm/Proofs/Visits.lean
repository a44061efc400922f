import LogicalForm.Proofs.Acceptance
import Mathlib.Logic.Relation

/-!
# The order of the turns

A search asks two questions. Which term has its turn when is settled by the triples alone: a triple that
is gone from the pool leads back to a term that was seen long ago. What a term finds in the pool when its
turn comes is settled by that order: the triples that touch it and no term before it. So a search is the
order of its turns, and then one walk along that order that stops where a term finds nothing.
-/

namespace LogicalForm
set_option autoImplicit false

namespace Anchor

/-- Triples that lead nowhere, or to a term that is seen, discover nothing. -/
theorem discovered_filter {v : Term} {seen : List Term} {triples : List Triple} {keep : Triple → Bool}
    (h : ∀ t ∈ triples, keep t = false → ∀ w, t.opposite? v = some w → w ∈ seen) :
    discovered v seen (triples.filter keep) = discovered v seen triples := by
  induction triples generalizing seen with
  | nil => rfl
  | cons t triples ih =>
    obtain ⟨hHere, hRest⟩ := List.forall_mem_cons.mp h
    cases hKeep : keep t with
    | false =>
      rw [List.filter_cons_of_neg (by simp [hKeep]), discovered, ih hRest]
      cases hFar : t.opposite? v with
      | none => rfl
      | some w => simp [hHere hKeep w hFar]
    | true =>
      rw [List.filter_cons_of_pos hKeep, discovered, discovered]
      cases hFar : t.opposite? v with
      | none => simp only [ih hRest]
      | some w =>
        have hMore : ∀ t ∈ triples, keep t = false → ∀ u, t.opposite? v = some u → u ∈ w :: seen :=
          fun t ht hDrop u hu => List.mem_cons_of_mem _ (hRest t ht hDrop u hu)
        simp only [ih hRest, ih hMore]

theorem nodup_append_discovered {v : Term} {seen : List Term} (triples : List Triple) (h : seen.Nodup) :
    (seen ++ discovered v seen triples).Nodup := by
  refine List.nodup_append.mpr ⟨h, nodup_discovered v seen triples, ?_⟩
  rintro w hOld _ hNew rfl
  exact (mem_discovered_iff.mp hNew).2.1 hOld

def untouched (terms : List Term) (triples : List Triple) : List Triple :=
  triples.filter fun t => terms.all (!t.touches ·)

theorem mem_untouched_iff {terms : List Term} {triples : List Triple} {t : Triple} :
    t ∈ untouched terms triples ↔ t ∈ triples ∧ ∀ v ∈ terms, t.touches v = false := by
  simp [untouched]

theorem left_untouched (v : Term) (past : List Term) (triples : List Triple) :
    left v (untouched past triples) = untouched (past ++ [v]) triples := by
  simp [left, untouched, List.filter_filter, Bool.and_comm]

theorem taken_untouched_ne_nil_iff {v : Term} {past : List Term} {triples : List Triple} :
    taken v (untouched past triples) ≠ [] ↔
      ∃ t ∈ triples, t.touches v = true ∧ ∀ u ∈ past, t.touches u = false := by
  simp only [taken, ne_eq, List.filter_eq_nil_iff, mem_untouched_iff, not_forall, not_not]
  constructor
  · rintro ⟨t, ⟨ht, hPast⟩, hTouch⟩
    exact ⟨t, ht, hTouch, hPast⟩
  · rintro ⟨t, ht, hTouch, hPast⟩
    exact ⟨t, ⟨ht, hPast⟩, hTouch⟩

theorem discovered_taken_untouched {v : Term} {past seen : List Term} (triples : List Triple)
    (hPast : past ⊆ seen) (hFirst : v ∉ past) :
    discovered v seen (taken v (untouched past triples)) = discovered v seen triples := by
  rw [taken, untouched, List.filter_filter]
  apply discovered_filter
  intro t _ hGone w hFar
  rw [(Triple.touches_iff_of_opposite hFar).mpr (Or.inl rfl), Bool.true_and, List.all_eq_false] at hGone
  obtain ⟨u, hu, hTouched⟩ := hGone
  rw [Bool.not_eq_true, Bool.not_eq_false', Triple.touches_iff_of_opposite hFar] at hTouched
  -- an earlier term that touches the triple is not `v`, so it is the far end
  rcases hTouched with rfl | rfl
  · exact absurd hu hFirst
  · exact hPast hu

end Anchor

namespace Triple

/-- One of the triples takes the search from `v` on to the variable `w`. -/
def Leads (triples : List Triple) (v w : Term) : Prop :=
  w.isVar = true ∧ ∃ t ∈ triples, t.opposite? v = some w

/-- The terms that a search from `v` can get to: the least set that has `v` in it and all it leads to. -/
def Reaches (triples : List Triple) : Term → Term → Prop := Relation.ReflTransGen (Leads triples)

/-- The ends of the triples that are not seen yet. -/
def unseen (triples : List Triple) (seen : List Term) : List Term :=
  (triples.flatMap fun t => [t.subject, t.object]).filter (!seen.contains ·)

theorem length_unseen_append_discovered (triples : List Triple) (seen : List Term) (v : Term) :
    (unseen triples (seen ++ Anchor.discovered v seen triples)).length +
      (Anchor.discovered v seen triples).length ≤ (unseen triples seen).length := by
  have hRest : unseen triples (seen ++ Anchor.discovered v seen triples) =
      (unseen triples seen).filter (!(Anchor.discovered v seen triples).contains ·) := by
    simp only [unseen, List.filter_filter]
    congr 1
    funext w
    simp [Bool.and_comm]
  have hFound : Anchor.discovered v seen triples ⊆
      (unseen triples seen).filter ((Anchor.discovered v seen triples).contains ·) := by
    intro w hw
    obtain ⟨_, hNew, t, ht, hFar⟩ := Anchor.mem_discovered_iff.mp hw
    have hEnd : w ∈ triples.flatMap fun t => [t.subject, t.object] := by
      refine List.mem_flatMap.mpr ⟨t, ht, ?_⟩
      rcases touches_eq_true_iff.mp (touches_of_opposite hFar) with hSubject | hObject
      · exact hSubject ▸ List.mem_cons_self
      · exact hObject ▸ List.mem_cons_of_mem _ List.mem_cons_self
    simp [unseen, hEnd, hNew, hw]
  have hLength := (List.subperm_of_subset (Anchor.nodup_discovered v seen triples) hFound).length_le
  have hAll := List.length_eq_length_filter_add (l := unseen triples seen)
    ((Anchor.discovered v seen triples).contains ·)
  rw [hRest]
  omega

/-- The order of the turns when no triple is ever taken away: after those in `past` come the ones who
wait, and whoever a term leads to waits behind them. -/
def visitsFrom (triples : List Triple) (past : List Term) : List Term → List Term
  | [] => []
  | v :: waiting =>
    v :: visitsFrom triples (past ++ [v]) (waiting ++ Anchor.discovered v (past ++ v :: waiting) triples)
termination_by waiting => (unseen triples (past ++ waiting)).length + waiting.length
decreasing_by
  have hFewer := length_unseen_append_discovered triples (past ++ v :: waiting) v
  simp only [List.append_assoc, List.nil_append, List.cons_append, List.length_append,
    List.length_cons] at hFewer ⊢
  omega

def visits (triples : List Triple) (root : Term) : List Term := visitsFrom triples [] [root]

section

variable {triples : List Triple} {past waiting : List Term} {root v w : Term}

theorem isPrefix_visitsFrom : waiting <+: visitsFrom triples past waiting := by
  fun_induction visitsFrom triples past waiting with
  | case1 => exact List.prefix_refl []
  | case2 past u waiting ih =>
    exact List.cons_prefix_cons.mpr ⟨rfl, (List.prefix_append _ _).trans ih⟩

theorem reaches_of_mem_visitsFrom (h : v ∈ visitsFrom triples past waiting) :
    ∃ u ∈ waiting, Reaches triples u v := by
  fun_induction visitsFrom triples past waiting with
  | case1 => cases h
  | case2 past u waiting ih =>
    rcases List.mem_cons.mp h with rfl | h
    · exact ⟨v, List.mem_cons_self, .refl⟩
    · obtain ⟨x, hx, hReach⟩ := ih h
      rcases List.mem_append.mp hx with hx | hx
      · exact ⟨x, List.mem_cons_of_mem _ hx, hReach⟩
      · obtain ⟨hVar, _, hFar⟩ := Anchor.mem_discovered_iff.mp hx
        exact ⟨u, List.mem_cons_self, .head ⟨hVar, hFar⟩ hReach⟩

theorem mem_visitsFrom_of_leads (h : v ∈ visitsFrom triples past waiting) (hLeads : Leads triples v w) :
    w ∈ past ∨ w ∈ visitsFrom triples past waiting := by
  -- at the turn of `v` the term `w` has had its turn, waits already, or starts to wait
  fun_induction visitsFrom triples past waiting with
  | case1 => cases h
  | case2 past u waiting ih =>
    rw [List.mem_cons]
    have hLater : ∀ x ∈ waiting ++ Anchor.discovered u (past ++ u :: waiting) triples,
        x ∈ visitsFrom triples (past ++ [u]) (waiting ++ Anchor.discovered u (past ++ u :: waiting) triples) :=
      fun x hx => isPrefix_visitsFrom.subset hx
    rcases List.mem_cons.mp h with rfl | h
    · by_cases hSeen : w ∈ past ++ v :: waiting
      · rcases List.mem_append.mp hSeen with hPast | hWaits
        · exact Or.inl hPast
        · rcases List.mem_cons.mp hWaits with rfl | hWaits
          · exact Or.inr (Or.inl rfl)
          · exact Or.inr (Or.inr (hLater w (List.mem_append_left _ hWaits)))
      · have hFound := Anchor.mem_discovered_iff.mpr ⟨hLeads.1, hSeen, hLeads.2⟩
        exact Or.inr (Or.inr (hLater w (List.mem_append_right _ hFound)))
    · rcases ih h with hPast | hMem
      · rcases List.mem_append.mp hPast with hPast | hHere
        · exact Or.inl hPast
        · exact Or.inr (Or.inl (List.mem_singleton.mp hHere))
      · exact Or.inr (Or.inr hMem)

theorem nodup_append_visitsFrom (h : (past ++ waiting).Nodup) :
    (past ++ visitsFrom triples past waiting).Nodup := by
  fun_induction visitsFrom triples past waiting with
  | case1 => exact h
  | case2 past u waiting ih =>
    have hNext : (past ++ u :: waiting ++ Anchor.discovered u (past ++ u :: waiting) triples).Nodup :=
      Anchor.nodup_append_discovered triples h
    rw [List.append_assoc, List.cons_append, List.append_cons] at hNext
    rw [List.append_cons]
    exact ih hNext

theorem mem_visits_iff : v ∈ visits triples root ↔ Reaches triples root v := by
  constructor
  · intro h
    obtain ⟨u, hu, hReach⟩ := reaches_of_mem_visitsFrom h
    exact List.mem_singleton.mp hu ▸ hReach
  · intro h
    induction h with
    | refl => exact isPrefix_visitsFrom.subset List.mem_cons_self
    | tail _ hLeads ih =>
      rcases mem_visitsFrom_of_leads ih hLeads with hPast | hMem
      · cases hPast
      · exact hMem

theorem nodup_visits : (visits triples root).Nodup :=
  @nodup_append_visitsFrom triples [] [root] (List.nodup_singleton root)

instance : DecidablePred (Reaches triples root) := fun _ => decidable_of_iff _ mem_visits_iff

end

end Triple

end LogicalForm
