import LogicalForm.Proofs.Template

/-!
# What is read of an accepted query

Every line of an accepted query has a place in its reading, and the places say what was asked of the line.
Nothing is asked of the line after a leading filter, which is dropped with it, nor of the second and the
fifth line of a range. So a query may be accepted and lose a triple, and its tail may depart from the
template.
-/

namespace LogicalForm
set_option autoImplicit false

/-- Whatever line stands behind the filter, the query is reduced to the same body and condition. -/
def Reading.Unread (d : Dialect) (r : Reading) (filter : String) (reduced : Reduced) : Prop :=
  ∀ (other : String) (inner : List String) (text : String),
    reduced.condition.Leaves d inner (filter :: other :: reduced.body) →
    (∀ line ∈ inner, Text.contains Block.stringFilterMark line = false) →
    Text.contentLines text = { r with inner }.lines → Reduced.ofText d text = .ok reduced

namespace Reduced

variable {d : Dialect} {text : String} {reduced : Reduced}

/-- Where the lines of an accepted query went. The inner lines are the body, before it at most a filter and
one more line that is not read, and in a superlative the line that binds the auxiliary variable. -/
theorem ofText_accounts_for_lines (h : ofText d text = .ok reduced) :
    ∃ r : Reading, r.Yields d reduced ∧ Text.contentLines text = r.lines ∧
      (r.kept = reduced.body ∨ ∃ filter second, r.kept = filter :: second :: reduced.body ∧
        Text.startsWith filterMark filter = true ∧ r.Unread d filter reduced) := by
  obtain ⟨r, hYields, hLines⟩ := ofText_eq_ok_iff.mp h
  refine ⟨r, hYields, hLines, ?_⟩
  obtain ⟨hSome, ⟨hKept, _⟩ | ⟨filter, second, hKept, hFilter⟩⟩ := dropFilters_eq_ok_iff.mp hYields.drops
  · exact Or.inl hKept
  · refine Or.inr ⟨filter, second, hKept, hFilter, fun other inner text' hLeaves hClean hLines' => ?_⟩
    have hDrops : dropFilters (filter :: other :: reduced.body) = .ok reduced.body :=
      dropFilters_eq_ok_iff.mpr ⟨hSome, Or.inr ⟨filter, other, rfl, hFilter⟩⟩
    have hTail := (List.forall_mem_append.mp hYields.clean).2
    exact ofText_eq_ok_iff.mpr ⟨{ r with inner, kept := filter :: other :: reduced.body }, ⟨hYields.head,
      List.forall_mem_append.mpr ⟨hClean, hTail⟩, hYields.closes, hLeaves, hDrops, hYields.starts⟩, hLines'⟩

theorem ofText_accounts_for_lines_superlative :
    let text := Text.unlines ["SELECT DISTINCT ?x", "WHERE \x7b", "FILTER (?x != ns:m)",
      "FILTER (!isLiteral(?x))", "?y ns:r ?sk0 .", "?x ns:s ?y .", "\x7d", "ORDER BY ?sk0", "LIMIT 1"]
    let reduced : Reduced := ⟨["?x ns:s ?y ."], .superlative .min (.var "y") "r"⟩
    ofText {} text = .ok reduced ∧ ∃ r : Reading, r.Yields {} reduced ∧ Text.contentLines text = r.lines ∧
      (r.kept = reduced.body ∨ ∃ filter second, r.kept = filter :: second :: reduced.body ∧
        Text.startsWith filterMark filter = true ∧ r.Unread {} filter reduced) := by
  intro text reduced
  have hYields : Reading.Yields {}
      { declarations := []
        header := "SELECT DISTINCT ?x"
        inner := ["FILTER (?x != ns:m)", "FILTER (!isLiteral(?x))", "?y ns:r ?sk0 .", "?x ns:s ?y ."]
        tail := ["\x7d", "ORDER BY ?sk0", "LIMIT 1"]
        kept := ["FILTER (?x != ns:m)", "FILTER (!isLiteral(?x))", "?x ns:s ?y ."] } reduced :=
    ⟨isHead_select, by decide, ⟨_, rfl, by decide, by decide⟩,
      ⟨["FILTER (?x != ns:m)", "FILTER (!isLiteral(?x))"], _, ["?x ns:s ?y ."], rfl, rfl, by decide, by decide,
        rfl, rfl⟩, rfl, by decide⟩
  have hOk : ofText {} text = .ok reduced := hYields.ofText_unlines (by decide) rfl
  exact ⟨hOk, ofText_accounts_for_lines hOk⟩

/-- A query that is accepted and loses a string filter and a triple: the line after the filter is one. -/
theorem ofText_loses_triple :
    ofText {} (Text.unlines ["SELECT DISTINCT ?x", "WHERE \x7b", "FILTER(str(?x) != \"a\")",
      "?x ns:rel.b ns:ent.2 .", "?x ns:rel.a ns:ent.1 .", "\x7d"]) = .ok ⟨["?x ns:rel.a ns:ent.1 ."], .none⟩ ∧
    Triple.ofLine {} "?x ns:rel.b ns:ent.2 ." = .ok ⟨.var "x", .entity "rel.b", .entity "ent.2"⟩ := by
  have hYields : Reading.Yields {}
      { declarations := []
        header := "SELECT DISTINCT ?x"
        inner := ["FILTER(str(?x) != \"a\")", "?x ns:rel.b ns:ent.2 .", "?x ns:rel.a ns:ent.1 ."]
        tail := ["\x7d"]
        kept := ["FILTER(str(?x) != \"a\")", "?x ns:rel.b ns:ent.2 .", "?x ns:rel.a ns:ent.1 ."] }
      ⟨["?x ns:rel.a ns:ent.1 ."], .none⟩ :=
    ⟨isHead_select, by decide, rfl, ⟨rfl, by decide⟩, rfl, by decide⟩
  exact ⟨hYields.ofText_unlines (by decide) rfl, rfl⟩

/-- Which tails are accepted. Behind the same lines, a tail of the same length gives the same reduction
exactly if it closes the condition and filters no strings: of a range that is what its two guards and two
dates say, of a superlative that the line before the limit mentions the auxiliary variable. -/
theorem ofText_iff_closes (h : ofText d text = .ok reduced) :
    ∃ front tail, Text.contentLines text = front ++ tail ∧ reduced.condition.Closes d tail ∧
      ∀ (text' : String) (tail' : List String), Text.contentLines text' = front ++ tail' →
        tail'.length = tail.length →
        (ofText d text' = .ok reduced ↔ reduced.condition.Closes d tail' ∧
          ∀ line ∈ tail', Text.contains Block.stringFilterMark line = false) := by
  obtain ⟨r, hYields, hLines⟩ := ofText_eq_ok_iff.mp h
  refine ⟨r.front, r.tail, hLines, hYields.closes, fun text' tail' hText hLength => ⟨fun hOk => ?_, fun hTail => ?_⟩⟩
  · obtain ⟨r', hYields', hLines'⟩ := ofText_eq_ok_iff.mp hOk
    have hEqual : tail'.length = r'.tail.length := hLength.trans (hYields.closes.length_eq hYields'.closes)
    obtain ⟨_, rfl⟩ := List.append_inj' (hText.symm.trans hLines') hEqual
    exact ⟨hYields'.closes, (List.forall_mem_append.mp hYields'.clean).2⟩
  · have hInner := (List.forall_mem_append.mp hYields.clean).1
    exact ofText_eq_ok_iff.mpr ⟨{ r with tail := tail' }, ⟨hYields.head,
      List.forall_mem_append.mpr ⟨hInner, hTail.2⟩, hTail.1, hYields.leaves, hYields.drops, hYields.starts⟩, hText⟩

theorem ofText_iff_closes_range :
    let closing := ["FILTER(NOT EXISTS \x7b?y ns:a.b.from ?sk0\x7d ||", "EXISTS \x7b?y ns:a.b.from ?sk1 .",
      "FILTER(xsd:datetime(?sk1) <= \"2009-12-31\"^^xsd:dateTime) \x7d)",
      "FILTER(NOT EXISTS \x7b?y ns:a.b.to ?sk2\x7d ||", "EXISTS \x7b?y ns:a.b.to ?sk3 .",
      "FILTER(xsd:datetime(?sk3) >= \"2009-01-01\"^^xsd:dateTime) \x7d)", "\x7d"]
    let text := Text.unlines ("SELECT DISTINCT ?x" :: "WHERE \x7b" :: "?x ns:r ?y ." :: closing)
    let reduced : Reduced := ⟨["?x ns:r ?y ."],
      .range (.var "y") "a.b.time_macro" "2009^^http://www.w3.org/2001/XMLSchema#date"⟩
    ofText {} text = .ok reduced ∧
    ∃ front tail, Text.contentLines text = front ++ tail ∧ reduced.condition.Closes {} tail ∧
      ∀ (text' : String) (tail' : List String), Text.contentLines text' = front ++ tail' →
        tail'.length = tail.length →
        (ofText {} text' = .ok reduced ↔ reduced.condition.Closes {} tail' ∧
          ∀ line ∈ tail', Text.contains Block.stringFilterMark line = false) := by
  intro closing text reduced
  have hCloses : reduced.condition.Closes {} closing :=
    ⟨⟨_, _⟩, ⟨_, _⟩, _, _, rfl, "?y", "ns:a.b.from", "ns:a.b.to", "a.b", "2009",
      ⟨"?y ns:a.b.from ?sk0", " ||", ["?sk0"], rfl, by decide, rfl, rfl⟩,
      ⟨"?y ns:a.b.to ?sk2", " ||", ["?sk2"], rfl, by decide, rfl, rfl⟩,
      ⟨"a", "b", "from", rfl, by decide, by decide, rfl⟩, ⟨"a", "b", "to", rfl, by decide, by decide, rfl⟩,
      ⟨"FILTER(xsd:datetime(?sk1) <= ", "-12-31", "^^xsd:dateTime) \x7d)", rfl, by decide, by decide, rfl, rfl⟩,
      ⟨"FILTER(xsd:datetime(?sk3) >= ", "-01-01", "^^xsd:dateTime) \x7d)", rfl, by decide, by decide, rfl, rfl⟩,
      rfl, rfl, rfl⟩
  have hYields : Reading.Yields {} ⟨[], "SELECT DISTINCT ?x", ["?x ns:r ?y ."], closing, ["?x ns:r ?y ."]⟩ reduced :=
    ⟨isHead_select, by decide, hCloses, rfl, rfl, by decide⟩
  have hOk : ofText {} text = .ok reduced := hYields.ofText_unlines (by decide) rfl
  exact ⟨hOk, ofText_iff_closes hOk⟩

/-- Two queries that are accepted though their tails are none of the template. In the range the relations of
the guards are not qualified, the second and the fifth line are about something else, and the dates stand
alone. The superlative has no ordering, only a variable whose name starts as the auxiliary one. -/
theorem ofText_accepts_deviating_tails :
    ofText {} (Text.unlines ["SELECT DISTINCT ?x", "WHERE \x7b", "?x ns:r ?y .",
      "FILTER(NOT EXISTS \x7b?y a.b.from ?sk0\x7d ||", "EXISTS \x7b?z ns:c ?sk1 .", "\"2009\"",
      "FILTER(NOT EXISTS \x7b?y a.b.to ?sk2\x7d ||", "ANY", "\"2009\"", "\x7d"]) =
      .ok ⟨["?x ns:r ?y ."], .range (.var "y") "a.b.time_macro" "2009^^http://www.w3.org/2001/XMLSchema#date"⟩ ∧
    ofText {} (Text.unlines ["SELECT DISTINCT ?x", "WHERE \x7b", "?x ns:r ?sk0 .", "?x ns:s ns:a .", "\x7d",
      "?sk01", "LIMIT 1"]) = .ok ⟨["?x ns:s ns:a ."], .superlative .min (.var "x") "r"⟩ := by
  have hCloses : Condition.Closes {}
      (.range (.var "y") "a.b.time_macro" "2009^^http://www.w3.org/2001/XMLSchema#date")
      ["FILTER(NOT EXISTS \x7b?y a.b.from ?sk0\x7d ||", "EXISTS \x7b?z ns:c ?sk1 .", "\"2009\"",
        "FILTER(NOT EXISTS \x7b?y a.b.to ?sk2\x7d ||", "ANY", "\"2009\"", "\x7d"] :=
    ⟨⟨_, _⟩, ⟨_, _⟩, _, _, rfl, "?y", "a.b.from", "a.b.to", "a.b", "2009",
      ⟨"?y a.b.from ?sk0", " ||", ["?sk0"], rfl, by decide, rfl, rfl⟩,
      ⟨"?y a.b.to ?sk2", " ||", ["?sk2"], rfl, by decide, rfl, rfl⟩,
      ⟨"a", "b", "from", rfl, by decide, by decide, rfl⟩, ⟨"a", "b", "to", rfl, by decide, by decide, rfl⟩,
      ⟨"", "", "", rfl, by decide, by decide, rfl, rfl⟩, ⟨"", "", "", rfl, by decide, by decide, rfl, rfl⟩,
      rfl, rfl, rfl⟩
  have hRange : Reading.Yields {} ⟨[], "SELECT DISTINCT ?x", ["?x ns:r ?y ."], _, ["?x ns:r ?y ."]⟩
      ⟨["?x ns:r ?y ."], .range (.var "y") "a.b.time_macro" "2009^^http://www.w3.org/2001/XMLSchema#date"⟩ :=
    ⟨isHead_select, by decide, hCloses, rfl, rfl, by decide⟩
  have hSuperlative : Reading.Yields {}
      ⟨[], "SELECT DISTINCT ?x", ["?x ns:r ?sk0 .", "?x ns:s ns:a ."], ["\x7d", "?sk01", "LIMIT 1"],
        ["?x ns:s ns:a ."]⟩ ⟨["?x ns:s ns:a ."], .superlative .min (.var "x") "r"⟩ :=
    ⟨isHead_select, by decide, ⟨_, rfl, by decide, by decide⟩,
      ⟨[], _, ["?x ns:s ns:a ."], rfl, rfl, by decide, by decide, rfl, rfl⟩, rfl, by decide⟩
  exact ⟨hRange.ofText_unlines (by decide) rfl, hSuperlative.ofText_unlines (by decide) rfl⟩

end Reduced

end LogicalForm
