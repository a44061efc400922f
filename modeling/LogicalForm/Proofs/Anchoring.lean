import LogicalForm.Anchor
import Mathlib.Data.List.Perm.Basic
import Mathlib.Data.List.Nodup

/-!
# What a finished search has done

A search that nothing stops is a derivation with one rule per turn, and every property of its anchors is
an induction over that derivation. The anchors partition the triples: each term holds exactly the triples
that touch it and no term before it. A term other than the root is a variable, occurs once, and was found
at the far end of a triple held before it.
-/

namespace LogicalForm
set_option autoImplicit false

namespace Anchor

theorem mem_discovered_iff {v w : Term} {seen : List Term} {triples : List Triple} :
    w ∈ discovered v seen triples ↔
      w.isVar = true ∧ w ∉ seen ∧ ∃ t ∈ triples, t.opposite? v = some w := by
  fun_induction discovered v seen triples with
  | case1 => simp
  | case2 seen t triples other hOther hNew ih =>
    simp only [Bool.and_eq_true, Bool.not_eq_true', List.contains_eq_mem, decide_eq_false_iff_not] at hNew
    simp only [List.mem_cons, ih, hOther, exists_eq_or_imp, Option.some.injEq]
    constructor
    · rintro (rfl | ⟨hVar, hSeen, hFar⟩)
      · exact ⟨hNew.1, hNew.2, Or.inl rfl⟩
      · exact ⟨hVar, fun h => hSeen (Or.inr h), Or.inr hFar⟩
    · rintro ⟨hVar, hSeen, rfl | hFar⟩
      · exact Or.inl rfl
      · by_cases hEq : w = other
        · exact Or.inl hEq
        · exact Or.inr ⟨hVar, fun h => h.elim hEq hSeen, hFar⟩
  | case3 seen t triples other hOther hOld ih =>
    simp only [ih, List.mem_cons, exists_eq_or_imp, hOther, Option.some.injEq]
    constructor
    · rintro ⟨hVar, hSeen, hFar⟩
      exact ⟨hVar, hSeen, Or.inr hFar⟩
    · rintro ⟨hVar, hSeen, rfl | hFar⟩
      · exact absurd (by simp [hVar, hSeen]) hOld
      · exact ⟨hVar, hSeen, hFar⟩
  | case4 seen t triples hOther ih => simp [ih, hOther]

theorem nodup_discovered (v : Term) (seen : List Term) (triples : List Triple) :
    (discovered v seen triples).Nodup := by
  fun_induction discovered v seen triples with
  | case1 => exact List.nodup_nil
  | case2 seen t triples other hOther hNew ih =>
    refine List.nodup_cons.mpr ⟨fun h => ?_, ih⟩
    exact (mem_discovered_iff.mp h).2.1 List.mem_cons_self
  | case3 seen t triples other hOther hOld ih => exact ih
  | case4 seen t triples hOther ih => exact ih

/-- The anchors use the pool up: each takes all it touches, at least one triple, and leaves the rest. -/
def Shares : List Triple → List Anchor → Prop
  | pool, [] => pool = []
  | pool, anchor :: rest =>
    anchor.triples = taken anchor.term pool ∧ anchor.triples ≠ [] ∧ Shares (left anchor.term pool) rest

namespace Shares

theorem triples_eq {pool : List Triple} {before after : List Anchor} {anchor : Anchor}
    (h : Shares pool (before ++ anchor :: after)) :
    anchor.triples = pool.filter fun t =>
      t.touches anchor.term && before.all fun earlier => !t.touches earlier.term := by
  induction before generalizing pool with
  | nil => simpa [taken] using h.1
  | cons first before ih =>
    obtain ⟨_, _, hRest⟩ := h
    rw [ih hRest, left, List.filter_filter]
    congr 1
    funext t
    simp only [List.all_cons, Bool.and_comm, Bool.and_left_comm]

theorem triples_ne_nil {pool : List Triple} {anchors : List Anchor} (h : Shares pool anchors)
    {anchor : Anchor} (hMem : anchor ∈ anchors) : anchor.triples ≠ [] := by
  induction anchors generalizing pool with
  | nil => cases hMem
  | cons first rest ih =>
    obtain ⟨_, hSome, hRest⟩ := h
    rcases List.mem_cons.mp hMem with rfl | hMem
    · exact hSome
    · exact ih hRest hMem

theorem perm {pool : List Triple} {anchors : List Anchor} (h : Shares pool anchors) :
    (anchors.flatMap triples).Perm pool := by
  induction anchors generalizing pool with
  | nil => exact List.Perm.of_eq h.symm
  | cons anchor rest ih =>
    obtain ⟨hTriples, _, hRest⟩ := h
    rw [List.flatMap_cons, hTriples]
    calc
      (taken anchor.term pool ++ rest.flatMap triples).Perm
          (taken anchor.term pool ++ left anchor.term pool) := (ih hRest).append_left _
      _ |>.Perm pool := List.filter_append_perm _ _

theorem length_le {pool : List Triple} {anchors : List Anchor} (h : Shares pool anchors) :
    anchors.length ≤ pool.length := by
  induction anchors generalizing pool with
  | nil => exact Nat.zero_le _
  | cons anchor rest ih =>
    obtain ⟨hTriples, hSome, hRest⟩ := h
    rw [hTriples] at hSome
    have hShorter := length_left_lt hSome
    have hIh := ih hRest
    rw [List.length_cons]
    omega

end Shares

end Anchor

/-- The searches that nothing stops: from a pool, the terms seen so far and those that wait, to anchors. -/
inductive Search : List Triple → List Term → List Term → List Anchor → Prop where
  | done (seen : List Term) : Search [] seen [] []
  | turn {pool : List Triple} {seen waiting : List Term} {v : Term} {rest : List Anchor}
      (hTaken : Anchor.taken v pool ≠ [])
      (hRest : Search (Anchor.left v pool)
        (seen ++ Anchor.discovered v seen (Anchor.taken v pool))
        (waiting ++ Anchor.discovered v seen (Anchor.taken v pool)) rest) :
      Search pool seen (v :: waiting) (⟨v, Anchor.taken v pool⟩ :: rest)

theorem Survey.search_of_run {pool : List Triple} {seen waiting : List Term}
    (h : (Survey.run pool seen waiting).fault = none) :
    Search pool seen waiting (Survey.run pool seen waiting).anchors := by
  fun_induction Survey.run pool seen waiting with
  | case1 pool seen =>
    split at h
    · subst pool
      exact .done seen
    · cases h
  | case2 pool seen v waiting hNone => cases h
  | case3 pool seen v waiting hTaken found rest ih => exact .turn hTaken (ih h)

theorem Survey.run_of_search {pool : List Triple} {seen waiting : List Term} {anchors : List Anchor}
    (h : Search pool seen waiting anchors) : Survey.run pool seen waiting = ⟨anchors, none⟩ := by
  induction h with
  | done seen => rw [run, if_pos rfl]
  | turn hTaken _ ih =>
    rw [run, dif_neg hTaken]
    simp only [ih]

theorem Anchor.ofTriples_eq_ok_iff {root : Term} {triples : List Triple} {anchors : List Anchor} :
    Anchor.ofTriples root triples = .ok anchors ↔ Search triples [root] [root] anchors := by
  rw [ofTriples, Survey.result, Survey.ofRoot]
  constructor
  · intro h
    split at h
    · rename_i hFault
      cases h
      exact Survey.search_of_run hFault
    · cases h
  · intro h
    rw [Survey.run_of_search h]

namespace Search

variable {pool : List Triple} {seen waiting : List Term} {anchors : List Anchor}

theorem shares (h : Search pool seen waiting anchors) : Anchor.Shares pool anchors := by
  induction h with
  | done seen => rfl
  | turn hTaken _ ih => exact ⟨rfl, hTaken, ih⟩

theorem touches_of_held (h : Search pool seen waiting anchors) {anchor : Anchor} (hAnchor : anchor ∈ anchors)
    {t : Triple} (ht : t ∈ anchor.triples) : t.touches anchor.term = true := by
  obtain ⟨before, after, rfl⟩ := List.append_of_mem hAnchor
  rw [h.shares.triples_eq, List.mem_filter, Bool.and_eq_true] at ht
  exact ht.2.1

theorem mem_pool_iff (h : Search pool seen waiting anchors) {t : Triple} :
    t ∈ pool ↔ ∃ anchor ∈ anchors, t ∈ anchor.triples := by
  rw [← h.shares.perm.mem_iff, List.mem_flatMap]

/-- Whoever waits gets a turn, in the order of waiting. -/
theorem waiting_isPrefix (h : Search pool seen waiting anchors) :
    waiting <+: anchors.map Anchor.term := by
  induction h with
  | done seen => exact List.prefix_refl []
  | turn _ _ ih =>
    rw [List.map_cons, List.cons_prefix_cons]
    exact ⟨rfl, (List.prefix_append _ _).trans ih⟩

theorem term_waits_or_new (h : Search pool seen waiting anchors) :
    ∀ v ∈ anchors.map Anchor.term, v ∈ waiting ∨ v ∉ seen ∧ v.isVar = true := by
  induction h with
  | done seen => intro v hMem; cases hMem
  | @turn pool seen waiting v rest hTaken _ ih =>
    intro w hMem
    rw [List.map_cons, List.mem_cons] at hMem
    rcases hMem with rfl | hMem
    · exact Or.inl List.mem_cons_self
    · rcases ih w hMem with hWaits | ⟨hNew, hVar⟩
      · rcases List.mem_append.mp hWaits with hOld | hFound
        · exact Or.inl (List.mem_cons_of_mem _ hOld)
        · obtain ⟨hVar, hNew, _⟩ := Anchor.mem_discovered_iff.mp hFound
          exact Or.inr ⟨hNew, hVar⟩
      · exact Or.inr ⟨fun hSeen => hNew (List.mem_append_left _ hSeen), hVar⟩

theorem nodup_terms (h : Search pool seen waiting anchors) (hWaiting : waiting.Nodup)
    (hSeen : waiting ⊆ seen) : (anchors.map Anchor.term).Nodup := by
  induction h with
  | done seen => exact List.nodup_nil
  | @turn pool seen waiting v rest hTaken hRest ih =>
    obtain ⟨hFresh, hWaiting⟩ := List.nodup_cons.mp hWaiting
    obtain ⟨hv, hSeen⟩ := List.cons_subset.mp hSeen
    have hFound : ∀ w ∈ Anchor.discovered v seen (Anchor.taken v pool), w ∉ seen :=
      fun w hw => (Anchor.mem_discovered_iff.mp hw).2.1
    refine List.nodup_cons.mpr ⟨fun hAgain => ?_, ih ?_ ?_⟩
    · -- the term of this turn was seen before, and it waits no longer
      rcases hRest.term_waits_or_new v hAgain with hWaits | ⟨hNew, _⟩
      · rcases List.mem_append.mp hWaits with hOld | hNow
        · exact hFresh hOld
        · exact hFound v hNow hv
      · exact hNew (List.mem_append_left _ hv)
    · refine List.nodup_append.mpr ⟨hWaiting, Anchor.nodup_discovered _ _ _, ?_⟩
      rintro w hOld _ hNow rfl
      exact hFound w hNow (hSeen hOld)
    · exact List.append_subset.mpr
        ⟨List.Subset.trans hSeen (List.subset_append_left _ _), List.subset_append_right _ _⟩

theorem opposite_mem (h : Search pool seen waiting anchors) {anchor : Anchor} (hAnchor : anchor ∈ anchors)
    {t : Triple} (ht : t ∈ anchor.triples) {w : Term} (hFar : t.opposite? anchor.term = some w)
    (hVar : w.isVar = true) : w ∈ seen ∨ w ∈ anchors.map Anchor.term := by
  induction h with
  | done seen => cases hAnchor
  | @turn pool seen waiting v rest hTaken hRest ih =>
    rw [List.map_cons, List.mem_cons]
    -- the far ends of this turn are seen or wait from now on; those of later turns are left to induction
    have hLater : ∀ x ∈ Anchor.discovered v seen (Anchor.taken v pool), x ∈ rest.map Anchor.term :=
      fun x hx => hRest.waiting_isPrefix.subset (List.mem_append_right _ hx)
    rcases List.mem_cons.mp hAnchor with rfl | hAnchor
    · by_cases hSeen : w ∈ seen
      · exact Or.inl hSeen
      · exact Or.inr (Or.inr (hLater w (Anchor.mem_discovered_iff.mpr ⟨hVar, hSeen, t, ht, hFar⟩)))
    · rcases ih hAnchor with hSeen | hMem
      · rcases List.mem_append.mp hSeen with hSeen | hFound
        · exact Or.inl hSeen
        · exact Or.inr (Or.inr (hLater w hFound))
      · exact Or.inr (Or.inr hMem)

theorem found_before (h : Search pool seen waiting anchors) {before after : List Anchor} {anchor : Anchor}
    (hSplit : anchors = before ++ anchor :: after) :
    anchor.term ∈ waiting ∨
      ∃ earlier ∈ before, ∃ t ∈ earlier.triples, t.opposite? earlier.term = some anchor.term := by
  induction h generalizing before with
  | done seen => simp at hSplit
  | @turn pool seen waiting v rest hTaken _ ih =>
    cases before with
    | nil =>
      obtain ⟨rfl, _⟩ := List.cons.inj hSplit
      exact Or.inl List.mem_cons_self
    | cons first before =>
      obtain ⟨rfl, hTail⟩ := List.cons.inj hSplit
      rcases ih hTail with hWaits | ⟨earlier, hEarlier, hFar⟩
      · rcases List.mem_append.mp hWaits with hOld | hFound
        · exact Or.inl (List.mem_cons_of_mem _ hOld)
        · obtain ⟨_, _, hFar⟩ := Anchor.mem_discovered_iff.mp hFound
          exact Or.inr ⟨_, List.mem_cons_self, hFar⟩
      · exact Or.inr ⟨earlier, List.mem_cons_of_mem _ hEarlier, hFar⟩

theorem nodup_root {root : Term} (h : Search pool [root] [root] anchors) :
    (anchors.map Anchor.term).Nodup :=
  h.nodup_terms (List.nodup_singleton root) (List.Subset.refl _)

theorem terms_eq {root : Term} (h : Search pool [root] [root] anchors) :
    ∃ others, anchors.map Anchor.term = root :: others ∧ root ∉ others := by
  obtain ⟨others, hOthers⟩ := h.waiting_isPrefix
  have hNodup := h.nodup_root
  rw [← hOthers] at hNodup
  exact ⟨others, hOthers.symm, (List.nodup_cons.mp hNodup).1⟩

/-- The root has the first turn and no second one. -/
theorem root_not_mem_after {root : Term} (h : Search pool [root] [root] anchors)
    {before after : List Anchor} (hBefore : before ≠ []) (hSplit : anchors = before ++ after) :
    root ∉ after.map Anchor.term := by
  obtain ⟨others, hOthers, hRoot⟩ := h.terms_eq
  obtain ⟨first, before, rfl⟩ := List.exists_cons_of_ne_nil hBefore
  rw [hSplit, List.cons_append, List.map_cons, List.map_append] at hOthers
  rw [← (List.cons.inj hOthers).2] at hRoot
  exact fun hAgain => hRoot (List.mem_append_right _ hAgain)

theorem isVar_of_ne_root {root : Term} (h : Search pool [root] [root] anchors) {v : Term}
    (hMem : v ∈ anchors.map Anchor.term) (hRoot : v ≠ root) : v.isVar = true := by
  rcases h.term_waits_or_new v hMem with hWaits | ⟨_, hVar⟩
  · exact absurd (List.mem_singleton.mp hWaits) hRoot
  · exact hVar

theorem isVar_of_mem_tail {root : Term} (h : Search pool [root] [root] anchors) :
    ∀ v ∈ anchors.tail.map Anchor.term, v.isVar = true := by
  obtain ⟨others, hOthers, hRoot⟩ := h.terms_eq
  intro v hv
  rw [List.map_tail, hOthers, List.tail_cons] at hv
  apply h.isVar_of_ne_root (hOthers ▸ List.mem_cons_of_mem _ hv)
  rintro rfl
  exact hRoot hv

theorem isVar_of_mem {root : Term} (h : Search pool [root] [root] anchors) (hRoot : root.isVar = true) :
    ∀ v ∈ anchors.map Anchor.term, v.isVar = true := by
  intro v hMem
  by_cases hEq : v = root
  · exact hEq ▸ hRoot
  · exact h.isVar_of_ne_root hMem hEq

end Search

namespace Anchor

/-- The anchors of a finished search: the root is first, the others are distinct variables, each found
before its turn, and together they hold every triple once, at the first term that touches it. -/
theorem ofTriples_partition {root : Term} {triples : List Triple} {anchors : List Anchor}
    (h : ofTriples root triples = .ok anchors) :
    (∃ others, anchors.map term = root :: others ∧ ∀ v ∈ others, v.isVar = true) ∧
    (anchors.map term).Nodup ∧
    (∀ before anchor after, anchors = before ++ anchor :: after →
      anchor.triples = (triples.filter fun t =>
        t.touches anchor.term && before.all fun earlier => !t.touches earlier.term) ∧
      anchor.triples ≠ []) ∧
    (anchors.flatMap Anchor.triples).Perm triples ∧
    anchors.length ≤ triples.length ∧
    (∀ before anchor after, anchors = before ++ anchor :: after → before ≠ [] →
      ∃ earlier ∈ before, ∃ t ∈ earlier.triples, t.opposite? earlier.term = some anchor.term) := by
  have hSearch := ofTriples_eq_ok_iff.mp h
  obtain ⟨others, hOthers, hRoot⟩ := hSearch.terms_eq
  refine ⟨⟨others, hOthers, fun v hv => ?_⟩, hSearch.nodup_root, ?_, hSearch.shares.perm,
    hSearch.shares.length_le, ?_⟩
  · refine hSearch.isVar_of_ne_root (hOthers ▸ List.mem_cons_of_mem _ hv) ?_
    rintro rfl
    exact hRoot hv
  · rintro before anchor after rfl
    exact ⟨hSearch.shares.triples_eq, hSearch.shares.triples_ne_nil (by simp)⟩
  · intro before anchor after hSplit hBefore
    rcases hSearch.found_before hSplit with hWaits | hFound
    · refine absurd ?_ (hSearch.root_not_mem_after hBefore hSplit)
      rw [List.map_cons, List.mem_singleton.mp hWaits]
      exact List.mem_cons_self
    · exact hFound

open Term in
/-- Three variables in a circle: every triple stays with the first of its ends to have a turn. -/
theorem ofTriples_partition_circle :
    ∃ anchors, ofTriples (var "x")
        [⟨var "x", entity "r", var "y"⟩, ⟨var "y", entity "s", var "z"⟩, ⟨var "z", entity "r", var "x"⟩,
          ⟨var "z", entity "s", entity "m"⟩] = .ok anchors ∧
      (anchors.map term).Nodup ∧ anchors.length ≤ 4 := by
  refine ⟨[⟨var "x", [⟨var "x", entity "r", var "y"⟩, ⟨var "z", entity "r", var "x"⟩]⟩,
    ⟨var "y", [⟨var "y", entity "s", var "z"⟩]⟩, ⟨var "z", [⟨var "z", entity "s", entity "m"⟩]⟩],
    ?run, (ofTriples_partition ?run).2.1, (ofTriples_partition ?run).2.2.2.2.1⟩
  cbv

end Anchor

end LogicalForm
