import LogicalForm.Proofs.Anchoring
import LogicalForm.Proofs.ClauseTable

/-!
# Which anchors make a form

The outcome of building a form is settled by three questions: are there anchors, is each supported by
those after it, and is the pivot of the condition among them. The anchors of a finished search are
supported as soon as no triple leads from a variable to itself, because the far end of a triple has its
turn after the term that holds the triple.
-/

namespace LogicalForm
set_option autoImplicit false

namespace Triple

/-- A triple from a variable to itself. -/
def IsLoop (t : Triple) : Prop := t.subject = t.object ∧ t.subject.isVar = true

theorem exists_opposite_of_touches {t : Triple} {v : Term} (h : t.touches v = true) :
    ∃ w, t.opposite? v = some w := by
  rw [← isSome_opposite?] at h
  exact Option.isSome_iff_exists.mp h

theorem touches_of_opposite {t : Triple} {v w : Term} (h : t.opposite? v = some w) :
    t.touches w = true := by
  rw [touches_eq_true_iff]
  rcases opposite?_eq_some_iff.mp h with ⟨_, hObject⟩ | ⟨_, _, hSubject⟩
  · exact Or.inr hObject
  · exact Or.inl hSubject

/-- A triple touches the term that it is held by and the one at the far end, and nothing else. -/
theorem touches_iff_of_opposite {t : Triple} {u v w : Term} (h : t.opposite? v = some w) :
    t.touches u = true ↔ u = v ∨ u = w := by
  rw [touches_eq_true_iff]
  rcases opposite?_eq_some_iff.mp h with ⟨rfl, rfl⟩ | ⟨_, rfl, rfl⟩
  · simp only [eq_comm]
  · simp only [eq_comm, or_comm]

theorem opposite?_eq_some_of_ne {t : Triple} {v w : Term} (hNe : v ≠ w) (hv : t.touches v = true)
    (hw : t.touches w = true) : t.opposite? v = some w := by
  obtain ⟨u, hFar⟩ := exists_opposite_of_touches hv
  rcases (touches_iff_of_opposite hFar).mp hw with rfl | rfl
  · exact absurd rfl hNe
  · exact hFar

theorem isLoop_of_opposite_self {t : Triple} {v : Term} (h : t.opposite? v = some v)
    (hVar : v.isVar = true) : t.IsLoop := by
  rcases opposite?_eq_some_iff.mp h with ⟨hSubject, hObject⟩ | ⟨hNot, _, hSubject⟩
  · exact ⟨hSubject.trans hObject.symm, hSubject ▸ hVar⟩
  · exact absurd hSubject hNot

theorem IsLoop.opposite {t : Triple} (h : t.IsLoop) {v : Term} (hTouch : t.touches v = true) :
    t.opposite? v = some v ∧ v.isVar = true := by
  have hSubject : t.subject = v := by
    rcases touches_eq_true_iff.mp hTouch with hSubject | hObject
    · exact hSubject
    · exact h.1.trans hObject
  exact ⟨opposite?_eq_some_iff.mpr (Or.inl ⟨hSubject, h.1 ▸ hSubject⟩), hSubject ▸ h.2⟩

end Triple

theorem Anchor.supported_iff_split {anchors : List Anchor} :
    Supported anchors ↔ ∀ before anchor after, anchors = before ++ anchor :: after →
      anchor.triples ≠ [] ∧ ∀ t ∈ anchor.triples, ∃ w, t.opposite? anchor.term = some w ∧
        (w.isVar = true → w ∈ after.map Anchor.term) := by
  induction anchors with
  | nil => simp [Supported]
  | cons first rest ih =>
    rw [Supported, ih]
    constructor
    · rintro ⟨hSome, hFirst, hRest⟩ before anchor after hSplit
      cases before with
      | nil =>
        cases hSplit
        exact ⟨hSome, hFirst⟩
      | cons _ before => exact hRest before anchor after (List.cons.inj hSplit).2
    · intro h
      obtain ⟨hSome, hFirst⟩ := h [] first rest rfl
      exact ⟨hSome, hFirst, fun before anchor after hSplit =>
        h (first :: before) anchor after (congrArg _ hSplit)⟩

namespace Search

variable {root : Term} {triples : List Triple} {anchors : List Anchor}

/-- The variable at the far end of a held triple has its turn later, unless the triple is a loop. -/
theorem opposite_mem_after (h : Search triples [root] [root] anchors) {before after : List Anchor}
    {anchor : Anchor} (hSplit : anchors = before ++ anchor :: after) {t : Triple}
    (ht : t ∈ anchor.triples) {w : Term} (hFar : t.opposite? anchor.term = some w)
    (hVar : w.isVar = true) (hLoop : ¬ t.IsLoop) : w ∈ after.map Anchor.term := by
  have hTerm : w ∈ anchors.map Anchor.term := by
    rcases h.opposite_mem (hSplit ▸ by simp) ht hFar hVar with hRoot | hTerm
    · exact h.waiting_isPrefix.subset hRoot
    · exact hTerm
  subst hSplit
  rw [List.map_append, List.map_cons, List.mem_append, List.mem_cons] at hTerm
  rcases hTerm with hBefore | hSelf | hAfter
  · -- an earlier term that touches the triple would have taken it
    obtain ⟨earlier, hEarlier, rfl⟩ := List.mem_map.mp hBefore
    rw [h.shares.triples_eq, List.mem_filter, Bool.and_eq_true, List.all_eq_true] at ht
    have hUntouched := ht.2.2 earlier hEarlier
    rw [Triple.touches_of_opposite hFar] at hUntouched
    cases hUntouched
  · subst hSelf
    exact absurd (Triple.isLoop_of_opposite_self hFar hVar) hLoop
  · exact hAfter

theorem supported_iff (h : Search triples [root] [root] anchors) :
    Anchor.Supported anchors ↔ ∀ t ∈ triples, ¬ t.IsLoop := by
  rw [Anchor.supported_iff_split]
  constructor
  · intro hSupported t ht hLoop
    obtain ⟨anchor, hAnchor, ht⟩ := h.mem_pool_iff.mp ht
    obtain ⟨before, after, rfl⟩ := List.append_of_mem hAnchor
    obtain ⟨hFar, hVar⟩ := hLoop.opposite (h.touches_of_held hAnchor ht)
    obtain ⟨w, hFound, hLater⟩ := (hSupported before anchor after rfl).2 t ht
    rw [hFar, Option.some.injEq] at hFound
    subst hFound
    have hNodup := h.nodup_root
    rw [List.map_append, List.map_cons] at hNodup
    exact absurd (hLater hVar) (List.nodup_cons.mp (List.nodup_append.mp hNodup).2.1).1
  · intro hLoops before anchor after hSplit
    have hAnchor : anchor ∈ anchors := hSplit ▸ by simp
    refine ⟨h.shares.triples_ne_nil hAnchor, fun t ht => ?_⟩
    obtain ⟨w, hFar⟩ := Triple.exists_opposite_of_touches (h.touches_of_held hAnchor ht)
    have hLoop := hLoops t (h.mem_pool_iff.mpr ⟨anchor, hAnchor, ht⟩)
    exact ⟨w, hFar, fun hVar => h.opposite_mem_after hSplit ht hFar hVar hLoop⟩

theorem ne_nil (h : Search triples [root] [root] anchors) : anchors ≠ [] := by
  rintro rfl
  exact absurd h.waiting_isPrefix (by simp)

end Search

theorem Condition.lostPivot?_eq_some_iff {condition : Condition} {anchors : List Anchor} {pivot : Term} :
    condition.lostPivot? anchors = some pivot ↔
      condition.pivot? = some pivot ∧ pivot ∉ anchors.map Anchor.term := by
  simp [lostPivot?, Option.filter_eq_some_iff]

theorem Condition.lostPivot?_eq_none_iff {condition : Condition} {anchors : List Anchor} :
    condition.lostPivot? anchors = Option.none ↔
      ∀ pivot, condition.pivot? = some pivot → pivot ∈ anchors.map Anchor.term := by
  simp only [Option.eq_none_iff_forall_ne_some, ne_eq, lostPivot?_eq_some_iff, not_and, not_not]

namespace Form

variable {condition : Condition} {anchors : List Anchor}

theorem ofAnchors_of_table_error {cause : Inconsistency} (hAnchors : anchors ≠ [])
    (hTable : Clauses.ofAnchors condition anchors = .error cause) :
    ofAnchors condition anchors = .error (.inconsistent cause) := by
  obtain ⟨first, rest, rfl⟩ := List.exists_cons_of_ne_nil hAnchors
  rw [ofAnchors, hTable]
  rfl

theorem ofAnchors_of_table {v : Term} {form : Form} {known : Clauses}
    (hTable : Clauses.ofAnchors condition anchors = .ok ((v, form) :: known)) :
    ofAnchors condition anchors =
      match condition.lostPivot? anchors with
      | some pivot => .error (.disconnected (.pivot pivot v))
      | none => .ok form := by
  obtain ⟨first, rest, rfl⟩ : ∃ first rest, anchors = first :: rest := by
    cases anchors with
    | nil => cases hTable
    | cons first rest => exact ⟨first, rest, rfl⟩
  have hFirst : v = first.term := (List.cons.inj (Clauses.keys_ofAnchors hTable)).1
  rw [ofAnchors, hTable]
  cases condition.lostPivot? (first :: rest) with
  | some pivot => simp [Except.mapError, bind, Except.bind, hFirst]
  | none => simp [Except.mapError, bind, Except.bind, hFirst]

theorem ofAnchors_eq_ok_iff {form : Form} :
    ofAnchors condition anchors = .ok form ↔ condition.lostPivot? anchors = none ∧
      ∃ v known, Clauses.ofAnchors condition anchors = .ok ((v, form) :: known) := by
  constructor
  · intro h
    cases hTable : Clauses.ofAnchors condition anchors with
    | error cause =>
      have hAnchors : anchors ≠ [] := by
        rintro rfl
        cases hTable
      rw [ofAnchors_of_table_error hAnchors hTable] at h
      cases h
    | ok table =>
      cases table with
      | nil =>
        rw [List.map_eq_nil_iff.mp (Clauses.keys_ofAnchors hTable).symm] at h
        cases h
      | cons entry known =>
        rw [ofAnchors_of_table hTable] at h
        split at h
        · cases h
        · cases h
          exact ⟨‹_›, entry.1, known, rfl⟩
  · rintro ⟨hLost, v, known, hTable⟩
    rw [ofAnchors_of_table hTable, hLost]

/-- A supported list of anchors has a table, and the table starts with the first of them. -/
theorem exists_table_iff :
    (∃ v form known, Clauses.ofAnchors condition anchors = .ok ((v, form) :: known)) ↔
      anchors ≠ [] ∧ Anchor.Supported anchors := by
  rw [← @Clauses.exists_ofAnchors_iff condition]
  constructor
  · rintro ⟨v, form, known, hTable⟩
    refine ⟨?_, _, hTable⟩
    rintro rfl
    cases hTable
  · rintro ⟨hAnchors, table, hTable⟩
    cases table with
    | nil => exact absurd (List.map_eq_nil_iff.mp (Clauses.keys_ofAnchors hTable).symm) hAnchors
    | cons entry known => exact ⟨entry.1, entry.2, known, hTable⟩

theorem exists_inconsistent_iff :
    (∃ cause, ofAnchors condition anchors = .error (.inconsistent cause)) ↔
      anchors = [] ∨ ¬ Anchor.Supported anchors := by
  by_cases hAnchors : anchors = []
  · subst hAnchors
    exact ⟨fun _ => Or.inl rfl, fun _ => ⟨.empty, rfl⟩⟩
  rw [or_iff_right hAnchors]
  constructor
  · rintro ⟨cause, h⟩ hSupported
    obtain ⟨v, form, known, hTable⟩ := (@exists_table_iff condition anchors).mpr ⟨hAnchors, hSupported⟩
    rw [ofAnchors_of_table hTable] at h
    split at h <;> cases h
  · intro hSupported
    cases hTable : Clauses.ofAnchors condition anchors with
    | error cause => exact ⟨cause, ofAnchors_of_table_error hAnchors hTable⟩
    | ok table => exact absurd (Clauses.exists_ofAnchors_iff.mp ⟨table, hTable⟩) hSupported

theorem exists_root_table {root : Term} {triples : List Triple} {form : Form}
    (hSearch : Search triples [root] [root] anchors) (hForm : ofAnchors condition anchors = .ok form) :
    ∃ known, Clauses.ofAnchors condition anchors = .ok ((root, form) :: known) := by
  obtain ⟨_, v, known, hTable⟩ := ofAnchors_eq_ok_iff.mp hForm
  obtain ⟨others, hOthers, _⟩ := hSearch.terms_eq
  have hKeys := Clauses.keys_ofAnchors hTable
  rw [hOthers, List.map_cons] at hKeys
  exact ⟨known, (List.cons.inj hKeys).1 ▸ hTable⟩

/-- Form building on the anchors of a finished search: a loop is the only inconsistency, a pivot that has
no anchor is the only disconnection, and the loop is reported first. -/
theorem ofAnchors_ofTriples {root : Term} {triples : List Triple} (condition : Condition)
    (h : Anchor.ofTriples root triples = .ok anchors) :
    ((∃ cause, ofAnchors condition anchors = .error (.inconsistent cause)) ↔ ∃ t ∈ triples, t.IsLoop) ∧
    ((∀ t ∈ triples, ¬ t.IsLoop) →
      ((∃ cause, ofAnchors condition anchors = .error (.disconnected cause)) ↔
        ∃ pivot, condition.pivot? = some pivot ∧ pivot ∉ anchors.map Anchor.term) ∧
      ((∀ pivot, condition.pivot? = some pivot → pivot ∈ anchors.map Anchor.term) →
        ∃ form, ofAnchors condition anchors = .ok form)) := by
  have hSearch := Anchor.ofTriples_eq_ok_iff.mp h
  constructor
  · rw [exists_inconsistent_iff, or_iff_right hSearch.ne_nil, hSearch.supported_iff]
    push Not
    rfl
  · intro hLoops
    obtain ⟨v, form, known, hTable⟩ :=
      (@exists_table_iff condition anchors).mpr ⟨hSearch.ne_nil, hSearch.supported_iff.mpr hLoops⟩
    rw [ofAnchors_of_table hTable]
    simp only [← Condition.lostPivot?_eq_some_iff]
    cases hLost : condition.lostPivot? anchors with
    | some pivot =>
      have hPivot := Condition.lostPivot?_eq_some_iff.mp hLost
      exact ⟨⟨fun _ => ⟨pivot, rfl⟩, fun _ => ⟨_, rfl⟩⟩, fun hAll => absurd (hAll pivot hPivot.1) hPivot.2⟩
    | none =>
      refine ⟨⟨?_, ?_⟩, fun _ => ⟨form, rfl⟩⟩
      · rintro ⟨_, hError⟩
        cases hError
      · rintro ⟨_, hSome⟩
        cases hSome

open Term in
/-- The loop of `y` is reported although the pivot `z` has no anchor either. -/
theorem ofAnchors_ofTriples_loop :
    ∃ anchors, Anchor.ofTriples (var "x")
        [⟨var "x", entity "r", var "y"⟩, ⟨var "y", entity "s", var "y"⟩] = .ok anchors ∧
      ∃ cause, ofAnchors (.superlative .max (var "z") "r") anchors = .error (.inconsistent cause) := by
  refine ⟨[⟨var "x", [⟨var "x", entity "r", var "y"⟩]⟩, ⟨var "y", [⟨var "y", entity "s", var "y"⟩]⟩],
    ?run, (ofAnchors_ofTriples _ ?run).1.mpr ⟨⟨var "y", entity "s", var "y"⟩, by simp, rfl, rfl⟩⟩
  cbv

end Form

end LogicalForm
