import LogicalForm.Proofs.Nodes

/-!
# How often a triple stands in the form

Read from its root, a form asks for the clause of a term once for every place where the term is a far end.
So the clause of an anchor stands in the form as often as it is asked for, and its triples with it. Everyone
is asked for at least once, since everyone was found at the far end of a triple, and once only where no term
is a far end twice.
-/

namespace LogicalForm
set_option autoImplicit false

namespace Anchor

/-- The terms that are asked for once an anchor has answered: its far ends as often as it was asked for. -/
def demand (asked : Multiset Term) (anchor : Anchor) : Multiset Term :=
  asked.filter (· ≠ anchor.term) + asked.count anchor.term • (anchor.farEnds : Multiset Term)

/-- How often each anchor is asked for. -/
def counted : Multiset Term → List Anchor → List (Nat × Anchor)
  | _, [] => []
  | asked, anchor :: rest => (asked.count anchor.term, anchor) :: counted (demand asked anchor) rest

end Anchor

namespace Form

variable {condition : Condition}

theorem topDown_of_not_mem {anchors : List Anchor} {v : Term} (h : v ∉ anchors.map Anchor.term) :
    topDown condition anchors v = .atom v.name := by
  induction anchors with
  | nil => rfl
  | cons anchor rest ih =>
    rw [List.map_cons, List.mem_cons, not_or] at h
    rw [topDown_cons_of_ne h.1, ih h.2]

/-- The nodes of all clauses that are asked for: those of each anchor as often as it is asked for, and the
names of the constants that are left when all anchors have answered. -/
theorem sum_nodes_topDown {anchors : List Anchor} (hSupported : Anchor.Supported anchors)
    (hVars : ∀ v ∈ anchors.tail.map Anchor.term, v.isVar = true) (asked : Multiset Term) :
    (asked.map (nodes ∘ topDown condition anchors)).sum =
      ((Anchor.counted asked anchors).map fun entry => entry.1 • entry.2.own condition).sum +
        (anchors.foldl Anchor.demand asked).map (Node.atom ∘ Term.name) := by
  induction anchors generalizing asked with
  | nil =>
    rw [Anchor.counted, List.map_nil, List.sum_nil, zero_add, List.foldl_nil]
    have hNames := Multiset.sum_map_singleton (asked.map (Node.atom ∘ Term.name))
    rw [Multiset.map_map] at hNames
    exact hNames
  | cons anchor rest ih =>
    obtain ⟨hSome, hHeld, hRest⟩ := hSupported
    have hEntry : (ofEntry condition (topDown condition rest) anchor).nodes =
        anchor.own condition + (anchor.farEnds.map (nodes ∘ topDown condition rest)).sum := by
      refine nodes_ofEntry hSome fun t ht => ?_
      obtain ⟨w, hFar, hLater⟩ := hHeld t ht
      refine ⟨w, hFar, ?_⟩
      rw [standIn]
      cases hVar : w.isVar with
      | true => rfl
      | false =>
        have hConstant : w ∉ rest.map Anchor.term := fun hMem => by
          rw [hVars w hMem] at hVar
          cases hVar
        rw [topDown_of_not_mem hConstant]
        rfl
    -- whoever asked for this anchor now asks for its far ends, the others ask on
    have hOthers : ∀ v ∈ asked.filter (· ≠ anchor.term),
        (nodes ∘ topDown condition (anchor :: rest)) v = (nodes ∘ topDown condition rest) v := by
      intro v hv
      rw [Function.comp_apply, topDown_cons_of_ne (Multiset.mem_filter.mp hv).2, Function.comp_apply]
    rw [Anchor.counted, List.map_cons, List.sum_cons, List.foldl_cons, add_assoc,
      ← ih hRest fun v hv => hVars v (List.map_subset _ (List.tail_sublist rest).subset hv)]
    calc
      (asked.map (nodes ∘ topDown condition (anchor :: rest))).sum
          = ((asked.filter (· = anchor.term)).map (nodes ∘ topDown condition (anchor :: rest))).sum +
              ((asked.filter (· ≠ anchor.term)).map (nodes ∘ topDown condition (anchor :: rest))).sum := by
            rw [← Multiset.sum_add, ← Multiset.map_add, Multiset.filter_add_not]
      _ = asked.count anchor.term •
              (anchor.own condition + (anchor.farEnds.map (nodes ∘ topDown condition rest)).sum) +
            ((asked.filter (· ≠ anchor.term)).map (nodes ∘ topDown condition rest)).sum := by
            rw [Multiset.filter_eq', Multiset.map_replicate, Multiset.sum_replicate, Function.comp_apply,
              topDown_cons_self, hEntry, Multiset.map_congr rfl hOthers]
      _ = asked.count anchor.term • anchor.own condition +
            ((Anchor.demand asked anchor).map (nodes ∘ topDown condition rest)).sum := by
            rw [Anchor.demand, Multiset.map_add, Multiset.sum_add, Multiset.map_nsmul, Multiset.sum_nsmul,
              Multiset.map_coe, Multiset.sum_coe, nsmul_add]
            abel

end Form

namespace Anchor

variable {asked : Multiset Term} {anchors : List Anchor}

theorem count_demand {anchor : Anchor} {w : Term} (h : w ≠ anchor.term) :
    (demand asked anchor).count w = asked.count w + asked.count anchor.term * anchor.farEnds.count w := by
  have hOthers : (asked.filter (· ≠ anchor.term)).count w = asked.count w := Multiset.count_filter_of_pos h
  rw [demand, Multiset.count_add, hOthers, Multiset.count_nsmul, Multiset.coe_count]

theorem map_snd_counted (asked : Multiset Term) (anchors : List Anchor) :
    (counted asked anchors).map Prod.snd = anchors := by
  induction anchors generalizing asked with
  | nil => rfl
  | cons anchor rest ih => rw [counted, List.map_cons, ih]

theorem one_le_of_mem_counted {settled : List Term} (hReached : Reached settled anchors)
    (hNodup : (anchors.map term).Nodup) (hAsked : ∀ v ∈ settled, v ∈ anchors.map term → v ∈ asked) :
    ∀ entry ∈ counted asked anchors, 1 ≤ entry.1 := by
  induction anchors generalizing asked settled with
  | nil => simp [counted]
  | cons anchor rest ih =>
    obtain ⟨hTerm, hReached⟩ := hReached
    obtain ⟨hNew, hNodup⟩ := List.nodup_cons.mp hNodup
    have hHere : 1 ≤ asked.count anchor.term :=
      Multiset.one_le_count_iff_mem.mpr (hAsked _ hTerm List.mem_cons_self)
    refine List.forall_mem_cons.mpr ⟨hHere, ih hReached hNodup fun v hv hMem => ?_⟩
    have hNe : v ≠ anchor.term := by
      rintro rfl
      exact hNew hMem
    rw [← Multiset.one_le_count_iff_mem, count_demand hNe]
    rcases List.mem_append.mp hv with hv | hv
    · have hOld := Multiset.one_le_count_iff_mem.mpr (hAsked v hv (List.mem_cons_of_mem _ hMem))
      omega
    · have hFar := Nat.mul_le_mul hHere (List.one_le_count_iff.mpr hv)
      omega

theorem counted_eq_one_iff (hNodup : (anchors.map term).Nodup) :
    (∀ entry ∈ counted asked anchors, entry.1 = 1) ↔ ∀ before anchor after,
      anchors = before ++ anchor :: after →
        asked.count anchor.term + (before.flatMap farEnds).count anchor.term = 1 := by
  induction anchors generalizing asked with
  | nil => simp [counted]
  | cons first rest ih =>
    obtain ⟨hNew, hNodup⟩ := List.nodup_cons.mp hNodup
    have hNe : ∀ before anchor after, rest = before ++ anchor :: after → anchor.term ≠ first.term := by
      rintro before anchor after rfl hEq
      exact hNew (hEq ▸ List.mem_map_of_mem (List.mem_append_right _ List.mem_cons_self))
    rw [counted, List.forall_mem_cons, ih hNodup]
    constructor
    · rintro ⟨hHere, hRest⟩ before anchor after hSplit
      replace hHere : asked.count first.term = 1 := hHere
      cases before with
      | nil =>
        obtain ⟨rfl, _⟩ := List.cons.inj hSplit
        exact hHere
      | cons _ before =>
        obtain ⟨rfl, hTail⟩ := List.cons.inj hSplit
        have hOnce := hRest before anchor after hTail
        rw [count_demand (hNe before anchor after hTail), hHere, one_mul] at hOnce
        rw [List.flatMap_cons, List.count_append]
        omega
    · intro h
      have hHere : asked.count first.term = 1 := h [] first rest rfl
      refine ⟨hHere, fun before anchor after hTail => ?_⟩
      have hOnce := h (first :: before) anchor after (congrArg _ hTail)
      rw [List.flatMap_cons, List.count_append] at hOnce
      rw [count_demand (hNe before anchor after hTail), hHere, one_mul]
      omega

theorem Supported.of_append {before after : List Anchor} (h : Supported (before ++ after)) : Supported after := by
  induction before with
  | nil => exact h
  | cons first before ih => exact ih h.2.2

theorem Supported.mem_tail {w : Term} (h : Supported anchors) (hFar : w ∈ anchors.flatMap farEnds)
    (hVar : w.isVar = true) : w ∈ anchors.tail.map term := by
  induction anchors with
  | nil => cases hFar
  | cons first rest ih =>
    obtain ⟨_, hFirst, hRest⟩ := h
    rcases List.mem_append.mp hFar with hFar | hFar
    · obtain ⟨t, ht, hFar⟩ := mem_farEnds.mp hFar
      obtain ⟨w', hFar', hLater⟩ := hFirst t ht
      cases hFar.symm.trans hFar'
      exact hLater hVar
    · exact List.map_subset _ (List.tail_sublist rest).subset (ih hRest hFar)

theorem length_farEnds {anchor : Anchor} (h : ∀ t ∈ anchor.triples, ∃ w, t.opposite? anchor.term = some w) :
    anchor.farEnds.length = anchor.triples.length :=
  List.filterMap_length_eq_length.mpr fun t ht => Option.isSome_iff_exists.mpr (h t ht)

theorem card_foldl_demand (hSupported : Supported anchors) (asked : Multiset Term) :
    (anchors.foldl demand asked).card + ((counted asked anchors).map Prod.fst).sum =
      asked.card + ((counted asked anchors).map fun entry => entry.1 * entry.2.triples.length).sum := by
  induction anchors generalizing asked with
  | nil => rfl
  | cons anchor rest ih =>
    obtain ⟨_, hHeld, hRest⟩ := hSupported
    have hSplit : (asked.filter (· = anchor.term)).card + (asked.filter (· ≠ anchor.term)).card = asked.card := by
      rw [← Multiset.card_add, Multiset.filter_add_not]
    have hStep : (demand asked anchor).card + asked.count anchor.term =
        asked.card + asked.count anchor.term * anchor.triples.length := by
      rw [Multiset.filter_eq', Multiset.card_replicate] at hSplit
      rw [demand, Multiset.card_add, Multiset.card_nsmul, Multiset.coe_card,
        length_farEnds fun t ht => (hHeld t ht).imp fun _ h => h.1]
      omega
    have hLater := ih hRest (demand asked anchor)
    simp only [List.foldl_cons, counted, List.map_cons, List.sum_cons]
    omega

theorem card_sum_own_none (hSupported : Supported anchors) (asked : Multiset Term) :
    Multiset.card ((counted asked anchors).map fun entry => entry.1 • entry.2.own .none).sum +
        ((counted asked anchors).map Prod.fst).sum =
      2 * ((counted asked anchors).map fun entry => entry.1 * entry.2.triples.length).sum := by
  induction anchors generalizing asked with
  | nil => rfl
  | cons anchor rest ih =>
    obtain ⟨hSome, _, hRest⟩ := hSupported
    have hHere : asked.count anchor.term * ((anchor.own .none).card + 1) =
        asked.count anchor.term * (2 * anchor.triples.length) := by rw [card_own_none hSome]
    have hLater := ih hRest (demand asked anchor)
    rw [Nat.mul_add_one, Nat.mul_left_comm] at hHere
    simp only [counted, List.map_cons, List.sum_cons, Multiset.card_add, Multiset.card_nsmul]
    omega

theorem sum_links_le {entries : List (Nat × Anchor)} (h : ∀ entry ∈ entries, 1 ≤ entry.1) :
    ((entries.map Prod.snd).map links).sum ≤ (entries.map fun entry => entry.1 • entry.2.links).sum := by
  induction entries with
  | nil => exact le_rfl
  | cons entry entries ih =>
    obtain ⟨hHere, hRest⟩ := List.forall_mem_cons.mp h
    obtain ⟨k, hk⟩ := Nat.exists_eq_add_of_le' hHere
    simp only [List.map_cons, List.sum_cons, hk, succ_nsmul]
    exact add_le_add (Multiset.le_add_left _ _) (ih hRest)

theorem sum_links_eq_iff {entries : List (Nat × Anchor)} (h : ∀ entry ∈ entries, 1 ≤ entry.1)
    (hSome : ∀ entry ∈ entries, entry.2.triples ≠ []) :
    (entries.map fun entry => entry.1 • entry.2.links).sum = ((entries.map Prod.snd).map links).sum ↔
      ∀ entry ∈ entries, entry.1 = 1 := by
  induction entries with
  | nil => simp
  | cons entry entries ih =>
    obtain ⟨hHere, hRest⟩ := List.forall_mem_cons.mp h
    obtain ⟨hTriples, hSome⟩ := List.forall_mem_cons.mp hSome
    obtain ⟨k, hk⟩ := Nat.exists_eq_add_of_le' hHere
    have hLinks : 0 < entry.2.links.card := by
      rw [links, Multiset.coe_card, List.length_map]
      exact List.length_pos_iff.mpr hTriples
    rw [List.forall_mem_cons, ← ih hRest hSome]
    simp only [List.map_cons, List.sum_cons, hk, succ_nsmul', add_assoc, add_right_inj]
    constructor
    · -- the other anchors have no fewer joins than triples, so this one has no copies
      intro hEq
      have hCard := congrArg Multiset.card hEq
      rw [Multiset.card_add, Multiset.card_nsmul] at hCard
      have hLe := Multiset.card_le_card (sum_links_le hRest)
      obtain rfl : k = 0 := by
        refine (Nat.mul_eq_zero.mp ?_).resolve_right hLinks.ne'
        omega
      rw [zero_nsmul, zero_add] at hEq
      exact ⟨rfl, hEq⟩
    · rintro ⟨hZero, hEq⟩
      obtain rfl : k = 0 := by omega
      rw [zero_nsmul, zero_add, hEq]

end Anchor

namespace Search

variable {root : Term} {triples : List Triple} {anchors : List Anchor}

theorem counted_eq_one_iff_isTree (h : Search triples [root] [root] anchors) (hSupported : Anchor.Supported anchors) :
    (∀ entry ∈ Anchor.counted {root} anchors, entry.1 = 1) ↔ Anchor.IsTree root anchors := by
  have hFirst : ∀ before anchor after, anchors = before ++ anchor :: after → anchor.term = root → before = [] := by
    intro before anchor after hSplit hRoot
    by_contra hSome
    exact h.root_not_mem_after hSome hSplit (hRoot ▸ List.mem_cons_self)
  -- from its own turn on a term is no far end any more
  have hBefore : ∀ before anchor after, anchors = before ++ anchor :: after → anchor.term ≠ root →
      (anchors.flatMap Anchor.farEnds).count anchor.term = (before.flatMap Anchor.farEnds).count anchor.term := by
    rintro before anchor after rfl hNe
    have hVar := h.isVar_of_ne_root (List.mem_map_of_mem (List.mem_append_right _ List.mem_cons_self)) hNe
    have hNodup := h.nodup_root
    rw [List.map_append, List.map_cons] at hNodup
    have hNot : anchor.term ∉ (anchor :: after).flatMap Anchor.farEnds := fun hFar =>
      (List.nodup_cons.mp (List.nodup_append.mp hNodup).2.1).1 (hSupported.of_append.mem_tail hFar hVar)
    rw [List.flatMap_append, List.count_append, List.count_eq_zero_of_not_mem hNot, add_zero]
  rw [Anchor.counted_eq_one_iff h.nodup_root]
  constructor
  · intro hOnce v hv hNe
    obtain ⟨anchor, hAnchor, rfl⟩ := List.mem_map.mp hv
    obtain ⟨before, after, hSplit⟩ := List.append_of_mem hAnchor
    have hCount := hOnce before anchor after hSplit
    rw [Multiset.count_singleton, if_neg hNe, zero_add] at hCount
    rw [hBefore before anchor after hSplit hNe, hCount]
  · intro hTree before anchor after hSplit
    rw [Multiset.count_singleton]
    split
    case isTrue hRoot => rw [hFirst before anchor after hSplit hRoot, List.flatMap_nil, List.count_nil]
    case isFalse hNe =>
      rw [zero_add, ← hBefore before anchor after hSplit hNe]
      refine hTree _ ?_ hNe
      rw [hSplit]
      exact List.mem_map_of_mem (List.mem_append_right _ List.mem_cons_self)

theorem one_le_of_mem_counted (h : Search triples [root] [root] anchors) :
    ∀ entry ∈ Anchor.counted {root} anchors, 1 ≤ entry.1 :=
  Anchor.one_le_of_mem_counted h.reached h.nodup_root fun _ hv _ =>
    Multiset.mem_singleton.mpr (List.mem_singleton.mp hv)

end Search

namespace Form

variable {condition : Condition} {root : Term} {triples : List Triple} {anchors : List Anchor}

theorem nodes_topDown_root (condition : Condition) (h : Search triples [root] [root] anchors)
    (hSupported : Anchor.Supported anchors) :
    (topDown condition anchors root).nodes =
      ((Anchor.counted {root} anchors).map fun entry => entry.1 • entry.2.own condition).sum +
        (anchors.foldl Anchor.demand {root}).map (Node.atom ∘ Term.name) := by
  rw [← sum_nodes_topDown hSupported h.isVar_of_mem_tail, Multiset.map_singleton, Multiset.sum_singleton,
    Function.comp_apply]

theorem joins_topDown_none (h : Search triples [root] [root] anchors) (hSupported : Anchor.Supported anchors) :
    (topDown .none anchors root).joins =
      ((Anchor.counted {root} anchors).map fun entry => entry.1 • entry.2.links).sum := by
  have hNames : ∀ asked : Multiset Term, (asked.map (Node.atom ∘ Term.name)).filter (·.isJoin = true) = 0 := by
    intro asked
    rw [Multiset.filter_eq_nil]
    intro node hNode
    obtain ⟨_, _, rfl⟩ := Multiset.mem_map.mp hNode
    exact Bool.false_ne_true
  rw [joins, nodes_topDown_root .none h hSupported, Multiset.filter_add, hNames, add_zero]
  induction Anchor.counted {root} anchors with
  | nil => rfl
  | cons entry entries ih =>
    rw [List.map_cons, List.sum_cons, Multiset.filter_add, Multiset.filter_nsmul, Anchor.filter_own_none, ih,
      List.map_cons, List.sum_cons]

theorem links_le_joins (h : Search triples [root] [root] anchors) (hSupported : Anchor.Supported anchors) :
    (anchors.map Anchor.links).sum ≤ (topDown .none anchors root).joins := by
  have hLinks := Anchor.sum_links_le h.one_le_of_mem_counted
  rw [Anchor.map_snd_counted] at hLinks
  rw [joins_topDown_none h hSupported]
  exact hLinks

theorem joins_eq_links_iff (h : Search triples [root] [root] anchors) (hSupported : Anchor.Supported anchors) :
    (topDown .none anchors root).joins = (anchors.map Anchor.links).sum ↔ Anchor.IsTree root anchors := by
  have hSome : ∀ entry ∈ Anchor.counted {root} anchors, entry.2.triples ≠ [] := by
    intro entry hEntry
    have hAnchor := List.mem_map_of_mem (f := Prod.snd) hEntry
    rw [Anchor.map_snd_counted] at hAnchor
    exact h.shares.triples_ne_nil hAnchor
  rw [joins_topDown_none h hSupported, ← h.counted_eq_one_iff_isTree hSupported,
    ← Anchor.sum_links_eq_iff h.one_le_of_mem_counted hSome, Anchor.map_snd_counted]

theorem size_topDown_none (h : Search triples [root] [root] anchors) (hSupported : Anchor.Supported anchors) :
    (topDown .none anchors root).size + 2 * ((Anchor.counted {root} anchors).map Prod.fst).sum =
      3 * ((Anchor.counted {root} anchors).map fun entry => entry.1 * entry.2.triples.length).sum + 1 := by
  have hOwn := Anchor.card_sum_own_none hSupported {root}
  have hNames := Anchor.card_foldl_demand hSupported {root}
  rw [Multiset.card_singleton] at hNames
  rw [← card_nodes, nodes_topDown_root .none h hSupported, Multiset.card_add, Multiset.card_map]
  omega

/-- The condition is put around the clause of its pivot, as often as the pivot is asked for. -/
theorem exists_nodes_topDown {pivot : Term} (h : Search triples [root] [root] anchors)
    (hSupported : Anchor.Supported anchors) (hPivot : condition.pivot? = some pivot)
    (hMem : pivot ∈ anchors.map Anchor.term) :
    ∃ entry ∈ Anchor.counted {root} anchors,
      (topDown condition anchors root).nodes = (topDown .none anchors root).nodes + entry.1 • condition.nodes := by
  have hTerms : (Anchor.counted {root} anchors).map (Anchor.term ∘ Prod.snd) = anchors.map Anchor.term := by
    rw [← List.map_map, Anchor.map_snd_counted]
  have hNodup := h.nodup_root
  rw [← hTerms] at hMem hNodup
  obtain ⟨entry, hEntry, rfl⟩ := List.mem_map.mp hMem
  -- no other anchor is for the pivot, so none but this one has nodes of the condition
  obtain ⟨before, after, hSplit⟩ := List.append_of_mem hEntry
  rw [hSplit, List.map_append, List.map_cons, List.nodup_middle, ← List.map_append] at hNodup
  have hOthers : ∀ other ∈ before ++ after, other.1 • other.2.own condition = other.1 • other.2.own .none := by
    intro other hOther
    rw [Anchor.own_eq, if_neg, add_zero]
    intro hSame
    rw [hPivot, Option.some.injEq] at hSame
    exact (List.nodup_cons.mp hNodup).1 (hSame ▸ List.mem_map_of_mem hOther)
  refine ⟨entry, hEntry, ?_⟩
  rw [nodes_topDown_root condition h hSupported, nodes_topDown_root .none h hSupported, hSplit]
  simp only [List.map_append, List.map_cons, List.sum_append, List.sum_cons,
    List.map_congr_left fun other hOther => hOthers other (List.mem_append_left _ hOther),
    List.map_congr_left fun other hOther => hOthers other (List.mem_append_right _ hOther)]
  rw [Anchor.own_eq condition, hPivot, Function.comp_apply, if_pos rfl, nsmul_add]
  abel

theorem size_topDown_of_isTree (h : Search triples [root] [root] anchors) (hSupported : Anchor.Supported anchors)
    (hTree : Anchor.IsTree root anchors) :
    (topDown .none anchors root).size + 2 * anchors.length = 3 * triples.length + 1 := by
  have hOnce := (h.counted_eq_one_iff_isTree hSupported).mpr hTree
  have hAnchors := Anchor.map_snd_counted {root} anchors
  have hTurns : ((Anchor.counted {root} anchors).map Prod.fst).sum = anchors.length := by
    rw [List.map_congr_left hOnce, List.map_const', List.sum_replicate, ← congrArg List.length hAnchors,
      List.length_map, nsmul_one, Nat.cast_id]
  have hTriples : ((Anchor.counted {root} anchors).map fun entry => entry.1 * entry.2.triples.length).sum =
      triples.length := by
    have hLengths : ∀ entry ∈ Anchor.counted {root} anchors,
        entry.1 * entry.2.triples.length = (List.length ∘ Anchor.triples ∘ Prod.snd) entry := by
      intro entry hEntry
      rw [hOnce entry hEntry, one_mul]
      rfl
    rw [← h.shares.perm.length_eq, List.length_flatMap, List.map_congr_left hLengths, ← List.map_map,
      ← List.map_map, hAnchors, List.map_map]
    rfl
  have hSize := size_topDown_none h hSupported
  rw [hTurns, hTriples] at hSize
  exact hSize

theorem ofAnchors_none_eq_topDown (h : Search triples [root] [root] anchors) (hSupported : Anchor.Supported anchors) :
    ofAnchors .none anchors = .ok (topDown .none anchors root) := by
  obtain ⟨v, form, known, hTable⟩ := (@exists_table_iff .none anchors).mpr ⟨h.ne_nil, hSupported⟩
  have hForm := ofAnchors_eq_ok_iff.mpr ⟨rfl, v, known, hTable⟩
  rw [hForm, eq_topDown_of_ofAnchors h hForm]

theorem Carries.exists_counted {n : Nat} (h : Search triples [root] [root] anchors)
    (hSupported : Anchor.Supported anchors)
    (hCarries : Carries condition n (topDown .none anchors root) (topDown condition anchors root))
    (hLost : condition.lostPivot? anchors = none) (hSome : condition ≠ .none) :
    ∃ entry ∈ Anchor.counted {root} anchors, n = entry.1 := by
  obtain ⟨pivot, hPivot⟩ : ∃ pivot, condition.pivot? = some pivot := by
    cases condition with
    | none => exact absurd rfl hSome
    | superlative _ pivot _ | range pivot _ _ => exact ⟨pivot, rfl⟩
  have hMem := Condition.lostPivot?_eq_none_iff.mp hLost pivot hPivot
  obtain ⟨entry, hEntry, hNodes⟩ := exists_nodes_topDown h hSupported hPivot hMem
  rw [hCarries.nodes_eq, add_right_inj] at hNodes
  have hCard := congrArg Multiset.card hNodes
  rw [Multiset.card_nsmul, Multiset.card_nsmul, condition.card_nodes] at hCard
  exact ⟨entry, hEntry, Nat.eq_of_mul_eq_mul_right (Condition.weight_pos hSome) hCard⟩

/-- No triple is lost: without its condition the form has the join of every triple, and has each once exactly
where the variables make a tree, which settles the size. The condition stands in the form at least once. -/
theorem joins_ofAnchors {form : Form} (hAnchors : Anchor.ofTriples root triples = .ok anchors)
    (hForm : ofAnchors condition anchors = .ok form) :
    ∃ plain n, ofAnchors .none anchors = .ok plain ∧
      Carries condition n plain form ∧ form.nodes = plain.nodes + n • condition.nodes ∧
      (condition ≠ .none → 1 ≤ n) ∧
      (anchors.flatMap Anchor.triples).Perm triples ∧
      (anchors.map Anchor.links).sum ≤ plain.joins ∧
      (plain.joins = (anchors.map Anchor.links).sum ↔ Anchor.IsTree root anchors) ∧
      (Anchor.IsTree root anchors → (condition ≠ .none → n = 1) ∧
        form.size + 2 * anchors.length = 3 * triples.length + 1 + condition.weight) := by
  have hSearch := Anchor.ofTriples_eq_ok_iff.mp hAnchors
  obtain ⟨hLost, v, known, hTable⟩ := ofAnchors_eq_ok_iff.mp hForm
  have hSupported := Clauses.exists_ofAnchors_iff.mp ⟨_, hTable⟩
  obtain rfl := eq_topDown_of_ofAnchors hSearch hForm
  obtain ⟨n, hCarries⟩ := exists_carries_topDown condition anchors root
  have hTimes := hCarries.exists_counted hSearch hSupported hLost
  have hOnce : Anchor.IsTree root anchors → condition ≠ .none → n = 1 := by
    intro hTree hSome
    obtain ⟨entry, hEntry, rfl⟩ := hTimes hSome
    exact (hSearch.counted_eq_one_iff_isTree hSupported).mpr hTree entry hEntry
  refine ⟨_, n, ofAnchors_none_eq_topDown hSearch hSupported, hCarries, hCarries.nodes_eq, fun hSome => ?_,
    hSearch.shares.perm, links_le_joins hSearch hSupported, joins_eq_links_iff hSearch hSupported,
    fun hTree => ⟨hOnce hTree, ?_⟩⟩
  · obtain ⟨entry, hEntry, rfl⟩ := hTimes hSome
    exact hSearch.one_le_of_mem_counted entry hEntry
  · have hPlain := size_topDown_of_isTree hSearch hSupported hTree
    have hWeight : n * condition.weight = condition.weight := by
      cases condition with
      | none => rfl
      | superlative _ _ _ | range _ _ _ => rw [hOnce hTree (by simp), one_mul]
    rw [← card_nodes, hCarries.nodes_eq, Multiset.card_add, Multiset.card_nsmul, card_nodes, condition.card_nodes,
      hWeight]
    omega

open Term in
/-- Two triples of `x` lead to `y`: its clause and the year it is held to stand in the form twice. -/
theorem joins_ofAnchors_shared :
    ∃ anchors form, Anchor.ofTriples (var "x")
        [⟨var "y", entity "s", entity "m"⟩, ⟨var "x", entity "r", var "y"⟩, ⟨var "y", entity "q", var "x"⟩] =
          .ok anchors ∧
      ofAnchors (.range (var "y") "a.b.time" "2009") anchors = .ok form ∧
      ¬ Anchor.IsTree (var "x") anchors ∧ form.size = 13 ∧
      ∃ plain n, ofAnchors .none anchors = .ok plain ∧
        Carries (.range (var "y") "a.b.time" "2009") n plain form ∧ 1 ≤ n ∧
        (anchors.map Anchor.links).sum ≤ plain.joins ∧ plain.joins ≠ (anchors.map Anchor.links).sum := by
  refine ⟨[⟨var "x", [⟨var "x", entity "r", var "y"⟩, ⟨var "y", entity "q", var "x"⟩]⟩,
    ⟨var "y", [⟨var "y", entity "s", entity "m"⟩]⟩],
    .and (.inverse "q" (.and (.join "a.b.time" (.atom "2009")) (.join "s" (.atom "m"))))
      (.join "r" (.and (.join "a.b.time" (.atom "2009")) (.join "s" (.atom "m")))),
    ?run, ?form, ?shared, rfl, (joins_ofAnchors ?run ?form).imp fun plain => Exists.imp fun n => ?joins⟩
  · cbv
  · rfl
  · decide
  · rintro ⟨hPlain, hCarries, _, hOnce, _, hLinks, hTree, _⟩
    exact ⟨hPlain, hCarries, hOnce (by simp), hLinks, mt hTree.mp (by decide)⟩

end Form

end LogicalForm
