import LogicalForm.Proofs.Template
import LogicalForm.Proofs.TripleLine

/-!
# What a reduced query guarantees

The stages after the reduction see a body and a condition, and no longer the text. What they may rely on is
said here against the lines of the text: where the body comes from, how its lines start, and in which lines
of the block each part of the condition is written. A superlative is ambiguous exactly if the number of lines
with the auxiliary variable, which the rejection tells, is not one.
-/

namespace LogicalForm
set_option autoImplicit false

theorem Block.IsHead.openLine_notMem {d : Dialect} {declarations : List String} {header : String}
    (h : IsHead d declarations header) : openLine ∉ declarations ++ [header] := by
  have hDeclares : Text.startsWith declarationMark openLine = false := by decide
  have hSelects : Text.after? selectMark openLine = none := by decide
  intro hMem
  rcases List.mem_append.mp hMem with hMem | hMem
  · have hLine := h.declares openLine hMem
    rw [hDeclares] at hLine
    cases hLine
  · have hHeader := h.selects
    rw [← List.mem_singleton.mp hMem, Block.selects, hSelects] at hHeader
    cases hHeader

namespace Condition

variable {d : Dialect} {condition : Condition} {inner tail kept : List String}

/-- The lines after the one that opens the block have in them what the condition says. A superlative is written
in the one line with the auxiliary variable, and no such line is left in the body. A range is written in the last
six lines before the brace. -/
def WrittenIn (d : Dialect) (after body : List String) : Condition → Prop
  | .none => True
  | .superlative _ pivot relation =>
    (∀ line ∈ body, Text.contains d.auxiliaryVariable line = false) ∧
    ∃ inner order line, after = inner ++ [Block.closeLine, order, Block.limitLine] ∧
      inner.filter (Text.contains d.auxiliaryVariable) = [line] ∧
      Triple.ofLine d line = .ok ⟨pivot, .entity relation, d.term d.auxiliaryVariable⟩
  | .range _ relation year =>
    (∃ (inner : List String) (start stop : Range.Bound) (between between' : String),
      after = inner ++ [start.guardLine, between, start.dateLine, stop.guardLine, between', stop.dateLine,
        Block.closeLine] ∧
      ∃ digits, digits.toList.length = 4 ∧ digits.toList.all Char.isDigit = true ∧
        year = digits ++ "^^" ++ d.dateDatatype ∧
        Range.Dates start.dateLine digits ∧ Range.Dates stop.dateLine digits) ∧
    ∃ first second, '.' ∉ first.toList ∧ '.' ∉ second.toList ∧
      relation = first ++ "." ++ second ++ "." ++ d.timeMacroSuffix

theorem Leaves.sublist (h : condition.Leaves d inner kept) : kept.Sublist inner := by
  cases condition with
  | none => exact h.1 ▸ List.Sublist.refl kept
  | superlative direction pivot relation =>
    obtain ⟨front, line, back, rfl, rfl, _⟩ := h
    exact (List.sublist_cons_self line back).append_left front
  | range pivot relation year => exact h ▸ List.Sublist.refl kept

theorem isVar_of_pivot? (hCloses : condition.Closes d tail) (hLeaves : condition.Leaves d inner kept) {pivot : Term}
    (hPivot : condition.pivot? = some pivot) : pivot.isVar = true := by
  cases condition with
  | none => cases hPivot
  | superlative direction subject relation =>
    cases hPivot
    obtain ⟨_, _, _, _, _, _, _, hVar, _⟩ := hLeaves
    exact hVar
  | range subject relation year =>
    cases hPivot
    obtain ⟨_, _, _, _, _, word, _, _, _, _, hGuards, _, _, _, _, _, rfl, _⟩ := hCloses
    exact hGuards.isVar d

theorem writtenIn_of_leaves {body : List String} (hCloses : condition.Closes d tail)
    (hLeaves : condition.Leaves d inner kept) (hBody : body.Sublist kept) :
    condition.WrittenIn d (inner ++ tail) body := by
  cases condition with
  | none => trivial
  | superlative direction pivot relation =>
    obtain ⟨order, rfl, _⟩ := hCloses
    obtain ⟨front, line, back, rfl, rfl, hHere, hElsewhere, _, hLine⟩ := hLeaves
    refine ⟨fun other hOther => hElsewhere other (hBody.subset hOther), _, order, line, rfl, ?_, hLine⟩
    exact filter_eq_singleton_iff.mpr ⟨front, back, rfl, hHere, hElsewhere⟩
  | range pivot relation year =>
    obtain ⟨start, stop, between, between', rfl, word, _, _, domain, digits, _, _, hSegmented, _, hStart, hStop, _,
      rfl, rfl⟩ := hCloses
    obtain ⟨first, second, _, _, hFirst, hSecond, rfl⟩ := hSegmented
    have ⟨_, _, _, _, _, _, hLength, hDigits⟩ := hStart
    exact ⟨⟨inner, start, stop, between, between', rfl, digits, hLength, hDigits, rfl, hStart, hStop⟩,
      first, second, hFirst, hSecond, rfl⟩

end Condition

theorem Superlative.reduce_eq_ambiguous_iff {d : Dialect} {lines : List String} {count : Nat} :
    reduce d lines = .error (.ambiguous count) ↔ ∃ inner order, lines = inner ++ [Block.closeLine, order] ∧
      Text.contains d.auxiliaryVariable order = true ∧
      count = (inner.filter (Text.contains d.auxiliaryVariable)).length ∧ count ≠ 1 := by
  constructor
  · intro h
    rcases reduce_error_cases h with hCause | ⟨inner, order, hLines, hCause | ⟨hOrder, hCause | ⟨line, _, hLine⟩⟩⟩
    · cases hCause
    · cases hCause
    · obtain ⟨hCount, hMany⟩ := hCause
      cases hCount
      exact ⟨inner, order, hLines, hOrder, rfl, hMany⟩
    · rcases condition_error_cases hLine with hTriple | hCause | hCause
      · cases Triple.kind_of_ofLine_eq_error hTriple
      · cases hCause
      · cases hCause
  · rintro ⟨inner, order, rfl, hOrder, rfl, hMany⟩
    have hLines : (inner ++ [Block.closeLine, order]).reverse = order :: Block.closeLine :: inner.reverse := by simp
    rw [reduce, hLines]
    simp only [hOrder, ne_eq, not_true, if_false, Bool.not_true, Bool.false_eq_true, List.reverse_reverse]
    split
    · rename_i line hLine
      rw [hLine] at hMany
      exact absurd rfl hMany
    · rfl

namespace Reduced

variable {d : Dialect} {text : String}

theorem sublist_of_dropFilters {kept body : List String} (h : dropFilters kept = .ok body) : body.Sublist kept := by
  obtain ⟨_, ⟨rfl, _⟩ | ⟨first, second, rfl, _⟩⟩ := dropFilters_eq_ok_iff.mp h
  · exact List.Sublist.refl kept
  · exact List.sublist_append_right [first, second] body

theorem ofText_eq_ambiguous_iff {count : Nat} :
    ofText d text = .error (.ambiguous count) ↔ ∃ declarations header inner order,
      Block.IsHead d declarations header ∧
      Text.contentLines text =
        declarations ++ header :: Block.openLine :: (inner ++ [Block.closeLine, order, Block.limitLine]) ∧
      (∀ line ∈ inner ++ [Block.closeLine, order], Text.contains Block.stringFilterMark line = false) ∧
      Text.contains d.auxiliaryVariable order = true ∧
      count = (inner.filter (Text.contains d.auxiliaryVariable)).length ∧ count ≠ 1 := by
  constructor
  · intro h
    rcases ofText_error_cases h with ⟨_, _, hCause⟩ | hCause | ⟨block, hBlock, hSplit | ⟨_, _, _, hCause⟩⟩
    · cases hCause
    · cases hCause
    · obtain ⟨hTemplate, hClean⟩ := Block.ofText_eq_ok_iff.mp hBlock
      obtain ⟨declarations, header, hHead, hText⟩ := Block.ofTemplate_eq_ok_iff.mp hTemplate
      rw [split] at hSplit
      split at hSplit
      · cases hSplit
      · rename_i hShape
        obtain ⟨inner, order, hLines, hOrder⟩ := Superlative.reduce_eq_ambiguous_iff.mp hSplit
        rw [hLines] at hText hClean
        rw [Block.shape_eq_superlative_iff.mp hShape, List.append_assoc] at hText
        exact ⟨declarations, header, inner, order, hHead, hText, hClean, hOrder⟩
      · obtain ⟨_, _, hCause⟩ := mapError_eq_error.mp hSplit
        cases hCause
    · cases hCause
  · rintro ⟨declarations, header, inner, order, hHead, hText, hClean, hOrder⟩
    have hBlock : Block.ofText d text = .ok ⟨inner ++ [Block.closeLine, order], .limit⟩ := by
      refine Block.ofText_eq_ok_iff.mpr ⟨Block.ofTemplate_eq_ok_iff.mpr ⟨declarations, header, hHead, ?_⟩, hClean⟩
      rw [hText, List.append_assoc]
      rfl
    have hSplit : split d ⟨inner ++ [Block.closeLine, order], .limit⟩ = .error (.ambiguous count) :=
      Superlative.reduce_eq_ambiguous_iff.mpr ⟨inner, order, rfl, hOrder⟩
    rw [ofText, hBlock, ok_bind, ofBlock, hSplit]
    rfl

/-- What is known of every query that is reduced, and which queries are rejected as ambiguous. -/
theorem ofText_guarantees (d : Dialect) (text : String) :
    (∀ reduced, ofText d text = .ok reduced → ∃ before after,
      (Text.contentLines text = before ++ Block.openLine :: after ∧ Block.openLine ∉ before) ∧
      (reduced.body ≠ [] ∧ reduced.body.Sublist after) ∧
      (∀ line ∈ reduced.body, Text.startsWith "?" line = true ∨ Text.startsWith d.namespaceMark line = true) ∧
      (∀ pivot, reduced.condition.pivot? = some pivot → pivot.isVar = true) ∧
      reduced.condition.WrittenIn d after reduced.body) ∧
    ∀ count, ofText d text = .error (.ambiguous count) ↔ ∃ declarations header inner order,
      Block.IsHead d declarations header ∧
      Text.contentLines text =
        declarations ++ header :: Block.openLine :: (inner ++ [Block.closeLine, order, Block.limitLine]) ∧
      (∀ line ∈ inner ++ [Block.closeLine, order], Text.contains Block.stringFilterMark line = false) ∧
      Text.contains d.auxiliaryVariable order = true ∧
      count = (inner.filter (Text.contains d.auxiliaryVariable)).length ∧ count ≠ 1 := by
  refine ⟨fun reduced h => ?_, fun count => ofText_eq_ambiguous_iff⟩
  obtain ⟨r, hYields, hLines⟩ := ofText_eq_ok_iff.mp h
  have hBody := sublist_of_dropFilters hYields.drops
  refine ⟨r.declarations ++ [r.header], r.inner ++ r.tail, ⟨?_, hYields.head.openLine_notMem⟩,
    ⟨(dropFilters_eq_ok_iff.mp hYields.drops).1, ?_⟩, fun line hLine => ?_,
    fun pivot => Condition.isVar_of_pivot? hYields.closes hYields.leaves,
    Condition.writtenIn_of_leaves hYields.closes hYields.leaves hBody⟩
  · rw [hLines]
    simp [Reading.lines, Reading.front]
  · exact (hBody.trans hYields.leaves.sublist).trans (List.sublist_append_left r.inner r.tail)
  · exact Bool.or_eq_true_iff.mp (hYields.starts line hLine)

/-- A superlative behind two filters; with a second line that binds the auxiliary variable it is ambiguous. -/
theorem ofText_guarantees_superlative :
    let query := fun more : List String => Text.unlines (["SELECT DISTINCT ?x", "WHERE \x7b", "FILTER (?x != ns:m)",
      "FILTER (!isLiteral(?x))", "?y ns:r ?sk0 ."] ++ more ++ ["?x ns:s ?y .", "\x7d", "ORDER BY ?sk0", "LIMIT 1"])
    let reduced : Reduced := ⟨["?x ns:s ?y ."], .superlative .min (.var "y") "r"⟩
    (ofText {} (query []) = .ok reduced ∧ ∃ before after,
      Text.contentLines (query []) = before ++ Block.openLine :: after ∧ reduced.body.Sublist after ∧
      reduced.condition.WrittenIn {} after reduced.body) ∧
    ofText {} (query ["?x ns:t ?sk0 ."]) = .error (.ambiguous 2) := by
  intro query reduced
  have hYields : Reading.Yields {}
      { declarations := []
        header := "SELECT DISTINCT ?x"
        inner := ["FILTER (?x != ns:m)", "FILTER (!isLiteral(?x))", "?y ns:r ?sk0 .", "?x ns:s ?y ."]
        tail := ["\x7d", "ORDER BY ?sk0", "LIMIT 1"]
        kept := ["FILTER (?x != ns:m)", "FILTER (!isLiteral(?x))", "?x ns:s ?y ."] } reduced :=
    ⟨isHead_select, by decide, ⟨_, rfl, by decide, by decide⟩,
      ⟨["FILTER (?x != ns:m)", "FILTER (!isLiteral(?x))"], _, ["?x ns:s ?y ."], rfl, rfl, by decide, by decide,
        rfl, rfl⟩, rfl, by decide⟩
  have hOk : ofText {} (query []) = .ok reduced := hYields.ofText_unlines (by decide) rfl
  obtain ⟨before, after, ⟨hText, _⟩, ⟨_, hBody⟩, _, _, hWritten⟩ := (ofText_guarantees {} (query [])).1 reduced hOk
  refine ⟨⟨hOk, before, after, hText, hBody, hWritten⟩, ?_⟩
  exact ((ofText_guarantees {} (query ["?x ns:t ?sk0 ."])).2 2).mpr ⟨[], _, ["FILTER (?x != ns:m)",
    "FILTER (!isLiteral(?x))", "?y ns:r ?sk0 .", "?x ns:t ?sk0 .", "?x ns:s ?y ."], "ORDER BY ?sk0", isHead_select,
    (Text.contentLines_unlines (by decide)).trans rfl, by decide, by decide, by decide, by decide⟩

end Reduced

end LogicalForm
