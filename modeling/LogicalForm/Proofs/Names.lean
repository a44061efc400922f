import LogicalForm.Proofs.Conversion
import LogicalForm.Proofs.Grammar
import LogicalForm.Proofs.TopDown
import LogicalForm.Proofs.Tree
import LogicalForm.Proofs.TripleLine

/-!
# The names in a form

A form names the relations of the triples, the constants at their ends and what the condition adds: all of
them, and nothing else, so no variable leaves a trace. Each of these names is a part of one word of the query
and has no blanks in it. Nothing more is asked of it. A word that is the mark of the namespace and no more has the
empty name, and a word may have parentheses in it. A form can be read back from its text exactly if no name of the
query is of these two kinds.
-/

namespace LogicalForm
set_option autoImplicit false

/-- The relation and the constants at the ends. -/
def Triple.names (t : Triple) : List String :=
  t.relation.name :: ([t.subject, t.object].filter (!·.isVar)).map Term.name

def Condition.names : Condition → List String
  | none => []
  | superlative _ _ relation => [relation]
  | range _ relation year => [relation, year]

section Clause

theorem Triple.constant_mem_names {t : Triple} {v w : Term} (h : t.opposite? v = some w) (hVar : w.isVar = false) :
    w.name ∈ t.names := by
  apply List.mem_cons_of_mem
  apply List.mem_map_of_mem
  rcases opposite?_eq_some_iff.mp h with ⟨_, rfl⟩ | ⟨_, _, rfl⟩
  · simp [hVar]
  · simp [hVar]

theorem Triple.mem_names_iff {t : Triple} {v w : Term} {name : String} (hVar : v.isVar = true)
    (h : t.opposite? v = some w) :
    name ∈ t.names ↔ name = t.relation.name ∨ w.isVar = false ∧ name = w.name := by
  rw [names, List.mem_cons]
  apply or_congr_right
  rcases opposite?_eq_some_iff.mp h with ⟨rfl, rfl⟩ | ⟨_, rfl, rfl⟩
  · cases hObject : t.object.isVar <;> simp [hVar, hObject]
  · cases hSubject : t.subject.isVar <;> simp [hVar, hSubject]

namespace Form

variable {condition : Condition} {name : String}

theorem mem_names_clause {t : Triple} {v : Term} {operand : Form} :
    name ∈ (t.clause v operand).names ↔ name = t.relation.name ∨ name ∈ operand.names := by
  rw [Triple.clause]
  split <;> exact List.mem_cons

theorem mem_names_conjoin {seed : Form} {parts : List Form} :
    name ∈ (conjoin seed parts).names ↔ ∃ part ∈ seed :: parts, name ∈ part.names := by
  induction parts generalizing seed with
  | nil => simp [conjoin]
  | cons part parts ih =>
    rw [conjoin, List.foldl_cons, ← conjoin, ih]
    simp only [List.exists_mem_cons_iff, names, List.mem_append]
    rw [or_comm (a := name ∈ part.names), or_assoc]

theorem mem_names_wrap {form : Form} :
    name ∈ (condition.wrap form).names ↔ name ∈ form.names ∨ name ∈ condition.names := by
  cases condition with
  | none => simp [Condition.wrap, Condition.names]
  | superlative direction pivot relation =>
    rw [Condition.wrap, names, List.mem_cons, or_comm, Condition.names, List.mem_singleton]
  | range pivot relation year =>
    rw [Condition.wrap, names, List.mem_append, or_comm]
    rfl

theorem mem_names_apply {v : Term} {form : Form} :
    name ∈ (condition.apply v form).names ↔
      name ∈ form.names ∨ condition.pivot? = some v ∧ name ∈ condition.names := by
  rw [Condition.apply]
  split
  case isTrue hPivot => rw [mem_names_wrap, and_iff_right hPivot]
  case isFalse hPivot => simp [hPivot]

theorem mem_names_ofEntry {clause : Term → Form} {anchor : Anchor} (hSome : anchor.triples ≠ []) :
    name ∈ (ofEntry condition clause anchor).names ↔
      (∃ t ∈ anchor.triples, name ∈ (part clause anchor.term t).names) ∨
        condition.pivot? = some anchor.term ∧ name ∈ condition.names := by
  obtain ⟨first, rest, hTriples⟩ := List.exists_cons_of_ne_nil hSome
  simp only [ofEntry, hTriples, ← apply_eq_conditioned, mem_names_apply, mem_names_conjoin, ← List.map_cons,
    List.mem_map, exists_exists_and_eq_and]

end Form

end Clause

section Source

variable {condition : Condition} {root : Term} {triples : List Triple} {anchors : List Anchor}

theorem Clauses.names_of_lookup {table : Clauses} (hTable : ofAnchors condition anchors = .ok table) :
    ∀ v form, table.lookup v = some form → ∀ name ∈ form.names,
      (∃ anchor ∈ anchors, ∃ t ∈ anchor.triples, name ∈ t.names) ∨ name ∈ condition.names := by
  refine forall_lookup_of_parts hTable (fun _ h => h) ?constant ?clause ?conjunction ?condition
  case constant =>
    intro anchor hAnchor t ht w hFar hVar name hName
    rw [List.mem_singleton.mp hName]
    exact Or.inl ⟨anchor, hAnchor, t, ht, Triple.constant_mem_names hFar hVar⟩
  case clause =>
    intro anchor hAnchor t ht operand hOperand name hName
    rcases Form.mem_names_clause.mp hName with rfl | hName
    · exact Or.inl ⟨anchor, hAnchor, t, ht, List.mem_cons_self⟩
    · exact hOperand name hName
  case conjunction =>
    intro left right hLeft hRight name hName
    rcases List.mem_append.mp hName with hName | hName
    · exact hLeft name hName
    · exact hRight name hName
  case condition =>
    intro form hForm name hName
    rcases Form.mem_names_wrap.mp hName with hName | hName
    · exact hForm name hName
    · exact Or.inr hName

/-- What holds of the settled terms and passes from a term to the far ends of its anchor holds of all. -/
theorem Anchor.Reached.forall_term {P : Term → Prop} {settled : List Term} (h : Reached settled anchors)
    (hSettled : ∀ v ∈ settled, P v)
    (hStep : ∀ anchor ∈ anchors, P anchor.term → ∀ w ∈ anchor.farEnds, P w) :
    ∀ anchor ∈ anchors, P anchor.term := by
  induction anchors generalizing settled with
  | nil => nofun
  | cons first rest ih =>
    obtain ⟨hFirst, hRest⟩ := h
    obtain ⟨hHere, hLater⟩ := List.forall_mem_cons.mp hStep
    have hTerm := hSettled first.term hFirst
    refine List.forall_mem_cons.mpr ⟨hTerm, ih hRest ?_ hLater⟩
    exact List.forall_mem_append.mpr ⟨hSettled, hHere hTerm⟩

namespace Form

/-- The form has the clause of every anchor in it, and the names of the clause with it. -/
theorem names_topDown_subset (hSearch : Search triples [root] [root] anchors)
    (hSupported : Anchor.Supported anchors) (hRoot : root.isVar = true) :
    ∀ anchor ∈ anchors, (topDown condition anchors anchor.term).names ⊆ (topDown condition anchors root).names := by
  have hVars := hSearch.isVar_of_mem hRoot
  have hReached := hSearch.reached.forall_term
    (P := fun v => v.isVar = true → (topDown condition anchors v).names ⊆ (topDown condition anchors root).names)
  intro anchor hAnchor
  -- in the order of the turns: a term was found at the far end of a triple, whose part has its clause in it
  refine hReached ?_ ?_ anchor hAnchor (hVars _ (List.mem_map_of_mem hAnchor))
  · rintro v hv _
    rw [List.mem_singleton.mp hv]
    exact List.Subset.refl _
  · intro anchor hAnchor hTerm w hw hVar name hName
    obtain ⟨t, ht, hFar⟩ := Anchor.mem_farEnds.mp hw
    apply hTerm (hVars _ (List.mem_map_of_mem hAnchor))
    rw [topDown_eq_ofEntry hSupported hSearch.nodup_root hAnchor,
      mem_names_ofEntry (hSearch.shares.triples_ne_nil hAnchor)]
    refine Or.inl ⟨t, ht, ?_⟩
    rw [part_eq_clause hFar, mem_names_clause, standIn, if_pos hVar]
    exact Or.inr hName

/-- The names of an accepted form are those of its triples and of its condition. -/
theorem mem_names_ofAnchors {form : Form} {name : String} (hRoot : root.isVar = true)
    (hAnchors : Anchor.ofTriples root triples = .ok anchors) (hForm : ofAnchors condition anchors = .ok form) :
    name ∈ form.names ↔ (∃ t ∈ triples, name ∈ t.names) ∨ name ∈ condition.names := by
  have hSearch := Anchor.ofTriples_eq_ok_iff.mp hAnchors
  obtain ⟨hLost, v, known, hTable⟩ := ofAnchors_eq_ok_iff.mp hForm
  have hSupported := Clauses.exists_ofAnchors_iff.mp ⟨_, hTable⟩
  have hVars := hSearch.isVar_of_mem hRoot
  constructor
  · intro hName
    rcases Clauses.names_of_lookup hTable v form List.lookup_cons_self name hName with
      ⟨anchor, hAnchor, t, ht, hName⟩ | hName
    · exact Or.inl ⟨t, hSearch.mem_pool_iff.mpr ⟨anchor, hAnchor, ht⟩, hName⟩
    · exact Or.inr hName
  · rw [eq_topDown_of_ofAnchors hSearch hForm]
    have hEntry : ∀ anchor ∈ anchors, name ∈ (ofEntry condition (topDown condition anchors) anchor).names →
        name ∈ (topDown condition anchors root).names := by
      intro anchor hAnchor hName
      rw [← topDown_eq_ofEntry hSupported hSearch.nodup_root hAnchor] at hName
      exact names_topDown_subset hSearch hSupported hRoot anchor hAnchor hName
    rintro (⟨t, ht, hName⟩ | hName)
    · obtain ⟨anchor, hAnchor, hHeld⟩ := hSearch.mem_pool_iff.mp ht
      obtain ⟨w, hFar⟩ := Triple.exists_opposite_of_touches (hSearch.touches_of_held hAnchor hHeld)
      apply hEntry anchor hAnchor
      rw [mem_names_ofEntry (hSearch.shares.triples_ne_nil hAnchor)]
      refine Or.inl ⟨t, hHeld, ?_⟩
      rw [part_eq_clause hFar, mem_names_clause]
      rcases (Triple.mem_names_iff (hVars _ (List.mem_map_of_mem hAnchor)) hFar).mp hName with hName | ⟨hVar, hName⟩
      · exact Or.inl hName
      · rw [standIn, hVar]
        exact Or.inr (List.mem_singleton.mpr hName)
    · -- the pivot is not lost, so it has an anchor, and the condition stands in the clause of that one
      obtain ⟨pivot, hPivot⟩ : ∃ pivot, condition.pivot? = some pivot := by
        cases condition with
        | none => cases hName
        | superlative _ pivot _ | range pivot _ _ => exact ⟨pivot, rfl⟩
      obtain ⟨anchor, hAnchor, rfl⟩ := List.mem_map.mp (Condition.lostPivot?_eq_none_iff.mp hLost pivot hPivot)
      apply hEntry anchor hAnchor
      rw [mem_names_ofEntry (hSearch.shares.triples_ne_nil hAnchor)]
      exact Or.inr ⟨hPivot, hName⟩

end Form

end Source

section Blanks

namespace Text

theorem isName_iff_isUnbroken {s : String} :
    IsName s ↔ IsUnbroken s ∧ s ≠ "" ∧ '(' ∉ s.toList ∧ ')' ∉ s.toList := by
  rw [IsName, IsWord, ne_eq, String.toList_eq_nil_iff, and_comm (a := ¬ s = ""), and_assoc]
  rfl

end Text

namespace Dialect

variable {d : Dialect} {word : String}

theorem isUnbroken_term (h : Text.IsUnbroken word) : Text.IsUnbroken (d.term word).name := by
  rw [term, Term.read]
  split
  · rename_i hAfter
    rw [Text.after?_eq_some_iff.mp hAfter, Text.isUnbroken_append] at h
    exact h.2
  · split
    · rename_i hAfter
      rw [Text.after?_eq_some_iff.mp hAfter, Text.isUnbroken_append] at h
      exact h.2
    · exact h

theorem isUnbroken_localName (h : Text.IsUnbroken word) : Text.IsUnbroken (d.localName word) := by
  rw [localName]
  cases hAfter : Text.after? d.namespaceMark word with
  | none => exact h
  | some name =>
    rw [Text.after?_eq_some_iff.mp hAfter, Text.isUnbroken_append] at h
    exact h.2

end Dialect

variable {d : Dialect}

theorem Triple.isUnbroken_of_ofLine {line : String} {t : Triple} (h : ofLine d line = .ok t) :
    Text.IsUnbroken t.subject.name ∧ Text.IsUnbroken t.relation.name ∧ Text.IsUnbroken t.object.name := by
  rw [ofLine] at h
  split at h
  · cases h
  · rename_i body _
    rw [mapError_eq_ok] at h
    have hWords := fun w (hw : w ∈ Text.words body) => Text.isUnbroken_of_mem_words hw
    unfold ofWords at h
    split at h
    · rename_i subject relation object hBody
      simp only [hBody, List.forall_mem_cons] at hWords
      obtain ⟨hSubject, hRelation, hObject, _⟩ := hWords
      split at h
      · rename_i name hName
        cases h
        refine ⟨d.isUnbroken_term hSubject, ?_, d.isUnbroken_term hObject⟩
        rw [← hName]
        exact d.isUnbroken_term hRelation
      · cases h
    · cases h

theorem Triple.isUnbroken_names {lines : List String} {triples : List Triple} (h : ofLines d lines = .ok triples) :
    ∀ t ∈ triples, ∀ name ∈ t.names, Text.IsUnbroken name := by
  intro t ht name hName
  obtain ⟨line, _, hLine⟩ := exists_of_mem_forall₂ (ofLines_eq_ok_iff.mp h) ht
  obtain ⟨hSubject, hRelation, hObject⟩ := isUnbroken_of_ofLine hLine
  rcases List.mem_cons.mp hName with rfl | hName
  · exact hRelation
  · obtain ⟨w, hEnd, rfl⟩ := List.mem_map.mp hName
    have hEnds : ∀ w ∈ [t.subject, t.object], Text.IsUnbroken w.name :=
      List.forall_mem_cons.mpr ⟨hSubject, List.forall_mem_singleton.mpr hObject⟩
    exact hEnds w (List.mem_of_mem_filter hEnd)

theorem Range.Segmented.isUnbroken_domain {relation domain : String} (h : Segmented relation domain)
    (hRelation : Text.IsUnbroken relation) : Text.IsUnbroken domain := by
  obtain ⟨first, second, rest, rfl, _, _, rfl⟩ := h
  simp only [Text.isUnbroken_append] at hRelation ⊢
  exact ⟨hRelation.1, hRelation.2.1.1⟩

theorem Range.Guards.isUnbroken {line pivot relation : String} (h : Guards line pivot relation) :
    Text.IsUnbroken relation := by
  obtain ⟨pattern, _, more, _, _, _, hWords⟩ := h
  exact Text.isUnbroken_of_mem_words (hWords ▸ List.mem_cons_of_mem _ List.mem_cons_self)

theorem Range.Bounded.isUnbroken {start stop : Bound} {pivot : Term} {relation year : String}
    (h : Bounded d start stop pivot relation year) (hSuffix : Text.IsUnbroken d.timeMacroSuffix)
    (hType : Text.IsUnbroken d.dateDatatype) : Text.IsUnbroken relation ∧ Text.IsUnbroken year := by
  obtain ⟨word, first, second, domain, digits, hGuard, _, hSegmented, _, hDates, _, _, rfl, rfl⟩ := h
  obtain ⟨_, _, _, _, _, _, _, hDigits⟩ := hDates
  have hDomain := hSegmented.isUnbroken_domain (d.isUnbroken_localName hGuard.isUnbroken)
  have hYear : Text.IsUnbroken digits := fun c hc => Text.not_isBlank_of_isDigit (List.all_eq_true.mp hDigits c hc)
  simp only [Text.isUnbroken_append]
  exact ⟨⟨⟨hDomain, by decide⟩, hSuffix⟩, ⟨hYear, by decide⟩, hType⟩

theorem Condition.isUnbroken_names {text : String} {reduced : Reduced} (hSuffix : Text.IsUnbroken d.timeMacroSuffix)
    (hType : Text.IsUnbroken d.dateDatatype) (h : Reduced.ofText d text = .ok reduced) :
    ∀ name ∈ reduced.condition.names, Text.IsUnbroken name := by
  obtain ⟨r, hYields, _⟩ := Reduced.ofText_eq_ok_iff.mp h
  have hCloses := hYields.closes
  have hLeaves := hYields.leaves
  cases hCondition : reduced.condition with
  | none => nofun
  | superlative direction pivot relation =>
    rw [hCondition] at hLeaves
    obtain ⟨_, _, _, _, _, _, _, _, hLine⟩ := hLeaves
    exact List.forall_mem_singleton.mpr (Triple.isUnbroken_of_ofLine hLine).2.1
  | range pivot relation year =>
    rw [hCondition] at hCloses
    obtain ⟨_, _, _, _, _, hBounded⟩ := hCloses
    obtain ⟨hRelation, hYear⟩ := hBounded.isUnbroken hSuffix hType
    exact List.forall_mem_cons.mpr ⟨hRelation, List.forall_mem_singleton.mpr hYear⟩

end Blanks

/-- Which forms can be read back. A form has the names that its query writes, and none of them has blanks. Its
text is a written form, with the form as its only parse, exactly if no such name is empty or has a parenthesis. -/
theorem Query.parse_of_convert_iff {q : Query} {form : Form} (h : (q.convert {}).outcome = .ok form) :
    (∀ name ∈ form.names, Text.IsUnbroken name) ∧
    ∃ reduced triples, Reduced.ofText {} q.text = .ok reduced ∧ Triple.ofLines {} reduced.body = .ok triples ∧
      (∀ name, name ∈ form.names ↔ (∃ t ∈ triples, name ∈ t.names) ∨ name ∈ reduced.condition.names) ∧
      ((∀ parsed, Form.Written form.render parsed ↔ parsed = form) ↔
        ∀ name, (∃ t ∈ triples, name ∈ t.names) ∨ name ∈ reduced.condition.names →
          name ≠ "" ∧ '(' ∉ name.toList ∧ ')' ∉ name.toList) := by
  obtain ⟨reduced, triples, anchors, hReduced, hTriples, hAnchors, hForm⟩ := (convert_eq_ok_iff {}).mp h
  have hNames := fun name => @Form.mem_names_ofAnchors _ _ _ _ form name rfl hAnchors hForm
  have hUnbroken : ∀ name ∈ form.names, Text.IsUnbroken name := by
    intro name hName
    rcases (hNames name).mp hName with ⟨t, ht, hName⟩ | hName
    · exact Triple.isUnbroken_names hTriples t ht name hName
    · exact Condition.isUnbroken_names (by decide) (by decide) hReduced name hName
  refine ⟨hUnbroken, reduced, triples, hReduced, hTriples, hNames, ?_⟩
  simp only [← hNames]
  constructor
  · intro hParse name hName
    have hWell := (Form.written_iff.mp ((hParse form).mpr rfl)).2
    exact (Text.isName_iff_isUnbroken.mp (hWell name hName)).2
  · intro hProper parsed
    have hWell : form.WellNamed :=
      fun name hName => Text.isName_iff_isUnbroken.mpr ⟨hUnbroken name hName, hProper name hName⟩
    have hWritten := Form.written_iff.mpr ⟨rfl, hWell⟩
    constructor
    · exact fun hParsed => hParsed.unique hWritten
    · rintro rfl
      exact hWritten

/-- A superlative: its relation stands last, behind the clause of the variable that it orders. -/
theorem Query.parse_of_convert_iff_superlative :
    let query : Query := { text := Text.unlines ["SELECT DISTINCT ?x", "WHERE \x7b", "?x ns:JOIN ?y .",
      "?y ns:f ?sk0 .", "?y ns:s ns:R .", "\x7d", "ORDER BY ?sk0", "LIMIT 1"] }
    let form : Form := .join "JOIN" (.extreme .min (.join "s" (.atom "R")) "f")
    (query.convert {}).outcome = .ok form ∧
      ∀ parsed, Form.Written "(JOIN JOIN (ARGMIN (JOIN s R) f))" parsed ↔ parsed = form := by
  intro query form
  have hYields : Reading.Yields {} ⟨[], "SELECT DISTINCT ?x", ["?x ns:JOIN ?y .", "?y ns:f ?sk0 .", "?y ns:s ns:R ."],
      ["\x7d", "ORDER BY ?sk0", "LIMIT 1"], ["?x ns:JOIN ?y .", "?y ns:s ns:R ."]⟩
      ⟨["?x ns:JOIN ?y .", "?y ns:s ns:R ."], .superlative .min (.var "y") "f"⟩ :=
    ⟨Reduced.isHead_select, by decide, ⟨"ORDER BY ?sk0", rfl, by decide, by decide⟩,
      ⟨["?x ns:JOIN ?y ."], "?y ns:f ?sk0 .", ["?y ns:s ns:R ."], rfl, rfl, by decide, by decide, rfl, rfl⟩,
      rfl, by decide⟩
  have hForm : (query.convert {}).outcome = .ok form := by
    refine (convert_eq_ok_iff {}).mpr ⟨_,
      [⟨.var "x", .entity "JOIN", .var "y"⟩, ⟨.var "y", .entity "s", .entity "R"⟩],
      [⟨.var "x", [⟨.var "x", .entity "JOIN", .var "y"⟩]⟩, ⟨.var "y", [⟨.var "y", .entity "s", .entity "R"⟩]⟩],
      hYields.ofText_unlines (by decide) rfl, rfl, ?_, rfl⟩
    cbv
  have hText : form.render = "(JOIN JOIN (ARGMIN (JOIN s R) f))" := by decide
  obtain ⟨_, reduced, triples, _, _, hNames, hParse⟩ := parse_of_convert_iff hForm
  rw [hText] at hParse
  refine ⟨hForm, hParse.mpr fun name hName => ?_⟩
  have hProper : ∀ name ∈ form.names, name ≠ "" ∧ '(' ∉ name.toList ∧ ')' ∉ name.toList := by decide
  exact hProper name ((hNames name).mpr hName)

/-- The mark of the namespace alone is taken for a relation without a name, and a word with a parenthesis for a
constant. Both texts are no written forms. -/
theorem Query.convert_unreadable :
    let query (line : String) : Query :=
      { text := Text.unlines ["SELECT DISTINCT ?x", "WHERE \x7b", line, "\x7d"] }
    (((query "?x ns: ns:ent.1 .").convert {}).outcome = .ok (.join "" (.atom "ent.1")) ∧
      ∀ parsed, ¬ Form.Written "(JOIN  ent.1)" parsed) ∧
    ((query "?x ns:rel.a (ent.1 .").convert {}).outcome = .ok (.join "rel.a" (.atom "(ent.1")) ∧
      ∀ parsed, ¬ Form.Written "(JOIN rel.a (ent.1)" parsed := by
  intro query
  have hNameless : Reading.Yields {}
      ⟨[], "SELECT DISTINCT ?x", ["?x ns: ns:ent.1 ."], ["\x7d"], ["?x ns: ns:ent.1 ."]⟩
      ⟨["?x ns: ns:ent.1 ."], .none⟩ :=
    ⟨Reduced.isHead_select, by decide, rfl, ⟨rfl, by decide⟩, rfl, by decide⟩
  have hParenthesis : Reading.Yields {}
      ⟨[], "SELECT DISTINCT ?x", ["?x ns:rel.a (ent.1 ."], ["\x7d"], ["?x ns:rel.a (ent.1 ."]⟩
      ⟨["?x ns:rel.a (ent.1 ."], .none⟩ :=
    ⟨Reduced.isHead_select, by decide, rfl, ⟨rfl, by decide⟩, rfl, by decide⟩
  refine ⟨⟨?_, Form.read?_eq_none_iff.mp (by decide)⟩, ?_, Form.read?_eq_none_iff.mp (by decide)⟩
  · refine (convert_eq_ok_iff {}).mpr ⟨_, [⟨.var "x", .entity "", .entity "ent.1"⟩],
      [⟨.var "x", [⟨.var "x", .entity "", .entity "ent.1"⟩]⟩], hNameless.ofText_unlines (by decide) rfl, rfl, ?_, rfl⟩
    cbv
  · refine (convert_eq_ok_iff {}).mpr ⟨_, [⟨.var "x", .entity "rel.a", .literal "(ent.1"⟩],
      [⟨.var "x", [⟨.var "x", .entity "rel.a", .literal "(ent.1"⟩]⟩], hParenthesis.ofText_unlines (by decide) rfl,
      rfl, ?_, rfl⟩
    cbv

end LogicalForm
