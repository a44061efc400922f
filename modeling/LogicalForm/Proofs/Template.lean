import LogicalForm.Proofs.Bounds
import LogicalForm.Query.Reduced

/-!
# Which texts follow the template

The readers of a query take its lines apart from both ends. Said the other way round: a text is accepted
exactly if its lines are a head, the line that opens the block, the inner lines, and a tail that closes a
query with its condition. Of the inner lines a superlative takes out the one that binds its auxiliary
variable, and a filter at the front goes together with the line after it. What is left is the body. For a
text that is rejected the error cases say at which step, and for what cause.
-/

namespace LogicalForm
set_option autoImplicit false

/-- The last line of a query that ends so. -/
def Ending.line : Ending → String
  | .brace => Block.closeLine
  | .limit => Block.limitLine

theorem Ending.line_inj {e e' : Ending} (h : e.line = e'.line) : e = e' := by
  revert h
  cases e <;> cases e' <;> decide

namespace Block

variable {d : Dialect} {text : String} {block : Block}

/-- The lines before the one that opens the block: declarations, and a header that is none of them. -/
structure IsHead (d : Dialect) (declarations : List String) (header : String) : Prop where
  declares : ∀ line ∈ declarations, Text.startsWith declarationMark line = true
  ends : Text.startsWith declarationMark header = false
  selects : selects d header = true
  generated : (declarations ++ [header]).head? ≠ some d.manualMarker

/-- The header is the first line that declares nothing, so what stands behind it is determined. -/
theorem IsHead.rest_inj {declarations declarations' rest rest' : List String} {header header' : String}
    (h : IsHead d declarations header) (h' : IsHead d declarations' header')
    (hLines : declarations ++ header :: openLine :: rest = declarations' ++ header' :: openLine :: rest') :
    rest = rest' := by
  have hDrop : (declarations ++ header :: openLine :: rest).dropWhile (Text.startsWith declarationMark) =
      header :: openLine :: rest := Text.dropWhile_eq_cons_iff.mpr ⟨declarations, rfl, h.declares, h.ends⟩
  have hDrop' := Text.dropWhile_eq_cons_iff.mpr ⟨declarations', hLines, h'.declares, h'.ends⟩
  rw [hDrop] at hDrop'
  exact (List.cons.inj (List.cons.inj hDrop').2).2

theorem ending?_eq_some_iff {line : String} {ending : Ending} :
    ending? line = some ending ↔ line = ending.line := by
  have hApart : limitLine ≠ closeLine := by decide
  rw [ending?]
  by_cases hClose : line = closeLine
  · subst hClose
    cases ending <;> simp [Ending.line, hApart.symm]
  · by_cases hLimit : line = limitLine
    · subst hLimit
      cases ending <;> simp [Ending.line, hApart]
    · cases ending <;> simp [Ending.line, hClose, hLimit]

theorem ofOpened_eq_ok_iff {lines : List String} :
    ofOpened lines = .ok block ↔ lines = block.lines ++ [block.ending.line] := by
  rcases List.eq_nil_or_concat lines with rfl | ⟨before, last, rfl⟩
  · simp [ofOpened]
  · rw [ofOpened, List.concat_eq_append, List.reverse_append, List.reverse_singleton, List.singleton_append]
    constructor
    · intro h
      split at h
      · cases h
      · rename_i last' before' hLines
        obtain ⟨rfl, rfl⟩ := List.cons.inj hLines
        split at h
        · rename_i ending hEnding
          cases h
          rw [ending?_eq_some_iff.mp hEnding, List.reverse_reverse]
        · cases h
    · intro h
      obtain ⟨rfl, hLast⟩ := List.append_inj' h rfl
      have hEnding := ending?_eq_some_iff.mpr (List.singleton_inj.mp hLast)
      simp only [hEnding, List.reverse_reverse]

theorem afterOpening_eq_ok_iff {lines opened : List String} :
    afterOpening lines = .ok opened ↔ lines = openLine :: opened := by
  cases lines with
  | nil => simp [afterOpening]
  | cons line rest =>
    rw [afterOpening, List.cons.injEq]
    by_cases hLine : line = openLine <;> simp [hLine]

theorem afterHeader_eq_ok_iff {lines rest : List String} :
    afterHeader d lines = .ok rest ↔ ∃ declarations header, lines = declarations ++ header :: rest ∧
      (∀ line ∈ declarations, Text.startsWith declarationMark line = true) ∧
      Text.startsWith declarationMark header = false ∧ selects d header = true := by
  rw [afterHeader]
  constructor
  · intro h
    split at h
    · cases h
    · rename_i header rest' hDrop
      split at h
      · rename_i hSelects
        cases h
        obtain ⟨declarations, hLines, hDeclares, hHeader⟩ := Text.dropWhile_eq_cons_iff.mp hDrop
        exact ⟨declarations, header, hLines, hDeclares, hHeader, hSelects⟩
      · cases h
  · rintro ⟨declarations, header, hLines, hDeclares, hHeader, hSelects⟩
    rw [Text.dropWhile_eq_cons_iff.mpr ⟨declarations, hLines, hDeclares, hHeader⟩]
    exact if_pos hSelects

theorem templateLines_eq_ok_iff {lines : List String} :
    templateLines d text = .ok lines ↔
      Text.contentLines text = lines ∧ lines ≠ [] ∧ lines.head? ≠ some d.manualMarker := by
  rw [templateLines]
  cases Text.contentLines text with
  | nil => cases lines <;> simp
  | cons first rest =>
    by_cases hFirst : first = d.manualMarker
    · subst hFirst
      simp only [if_true, reduceCtorEq, false_iff]
      rintro ⟨rfl, _, hHead⟩
      exact hHead rfl
    · simp only [hFirst, if_false, Except.ok.injEq]
      constructor
      · rintro rfl
        exact ⟨rfl, by simp, by simpa using hFirst⟩
      · exact fun h => h.1

theorem ofTemplate_eq_ok_iff :
    ofTemplate d text = .ok block ↔ ∃ declarations header, IsHead d declarations header ∧
      Text.contentLines text =
        declarations ++ header :: openLine :: (block.lines ++ [block.ending.line]) := by
  simp only [ofTemplate, bind_eq_ok, templateLines_eq_ok_iff, afterHeader_eq_ok_iff, afterOpening_eq_ok_iff,
    ofOpened_eq_ok_iff]
  constructor
  · rintro ⟨lines, ⟨hText, _, hHead⟩, rest, ⟨declarations, header, rfl, hDeclares, hEnds, hSelects⟩, opened,
      rfl, rfl⟩
    refine ⟨declarations, header, ⟨hDeclares, hEnds, hSelects, ?_⟩, hText⟩
    cases declarations <;> exact hHead
  · rintro ⟨declarations, header, hHead, hText⟩
    refine ⟨_, ⟨hText, by simp, ?_⟩, _, ⟨declarations, header, rfl, hHead.declares, hHead.ends, hHead.selects⟩,
      _, rfl, rfl⟩
    have hGenerated := hHead.generated
    cases declarations <;> exact hGenerated

theorem ofText_eq_ok_iff :
    ofText d text = .ok block ↔ ofTemplate d text = .ok block ∧
      ∀ line ∈ block.lines, Text.contains stringFilterMark line = false := by
  simp only [ofText, bind_eq_ok, mapError_eq_ok, ite_error_eq_ok, Except.ok.injEq, Bool.not_eq_true,
    List.any_eq_false]
  constructor
  · rintro ⟨found, hFound, hClean, rfl⟩
    exact ⟨hFound, hClean⟩
  · rintro ⟨hFound, hClean⟩
    exact ⟨block, hFound, hClean, rfl⟩

theorem ofText_error_cases {cause : Rejection} (h : ofText d text = .error cause) :
    (∃ found, ofTemplate d text = .error found ∧ cause = .structural found) ∨ cause = .stringFilter := by
  rcases bind_eq_error.mp h with h | ⟨block, _, h⟩
  · obtain ⟨found, hFound, hCause⟩ := mapError_eq_error.mp h
    exact Or.inl ⟨found, hFound, hCause.symm⟩
  · split at h
    · exact Or.inr (Except.error.inj h).symm
    · cases h

theorem shape_eq_superlative_iff : block.shape = .superlative ↔ block.ending = .limit := by
  rw [shape]
  cases block.ending with
  | limit => simp
  | brace => simp only [reduceCtorEq, iff_false]; split <;> simp

theorem shape_eq_range_iff :
    block.shape = .range ↔
      block.ending = .brace ∧ ∃ line ∈ block.lines.reverse[2]?, Text.startsWith guardMark line = true := by
  rw [shape]
  cases block.ending with
  | limit => simp
  | brace => cases block.lines.reverse[2]? <;> simp

theorem shape_eq_plain_iff :
    block.shape = .plain ↔
      block.ending = .brace ∧ ∀ line ∈ block.lines.reverse[2]?, Text.startsWith guardMark line = false := by
  rw [shape]
  cases block.ending with
  | limit => simp
  | brace => cases block.lines.reverse[2]? <;> simp

end Block

theorem filter_eq_singleton_iff {α : Type} {p : α → Bool} {as : List α} {a : α} :
    as.filter p = [a] ↔
      ∃ front back, as = front ++ a :: back ∧ p a = true ∧ ∀ b ∈ front ++ back, p b = false := by
  simp only [List.filter_eq_cons_iff, List.filter_eq_nil_iff, Bool.not_eq_true]
  constructor
  · rintro ⟨front, back, hAll, hFront, ha, hBack⟩
    exact ⟨front, back, hAll, ha, List.forall_mem_append.mpr ⟨hFront, hBack⟩⟩
  · rintro ⟨front, back, hAll, ha, hOthers⟩
    obtain ⟨hFront, hBack⟩ := List.forall_mem_append.mp hOthers
    exact ⟨front, back, hAll, hFront, ha, hBack⟩

theorem filter_not_of_split {α : Type} {p : α → Bool} {front back : List α} {a : α} (ha : p a = true)
    (hOthers : ∀ b ∈ front ++ back, p b = false) :
    (front ++ a :: back).filter (!p ·) = front ++ back := by
  obtain ⟨hFront, hBack⟩ := List.forall_mem_append.mp hOthers
  rw [List.filter_append, List.filter_cons_of_neg (by simp [ha])]
  congr 1
  · exact List.filter_eq_self.mpr fun b hb => by simp [hFront b hb]
  · exact List.filter_eq_self.mpr fun b hb => by simp [hBack b hb]

theorem Triple.relation_of_ofLine {d : Dialect} {line : String} {t : Triple} (h : ofLine d line = .ok t) :
    ∃ name, t.relation = .entity name := by
  rw [ofLine] at h
  split at h
  · cases h
  · rw [mapError_eq_ok] at h
    unfold ofWords at h
    split at h
    · split at h
      · rename_i name _
        cases h
        exact ⟨name, rfl⟩
      · cases h
    · cases h

namespace Superlative

variable {d : Dialect} {line : String} {lines : List String}

theorem condition_eq_ok_iff {direction : Direction} {found : Condition} :
    condition d direction line = .ok found ↔ ∃ pivot relation, pivot.isVar = true ∧
      Triple.ofLine d line = .ok ⟨pivot, .entity relation, d.term d.auxiliaryVariable⟩ ∧
      found = .superlative direction pivot relation := by
  simp only [condition, bind_eq_ok, ite_error_eq_ok, ne_eq, not_not, Bool.not_eq_true', Bool.not_eq_false,
    Except.ok.injEq]
  constructor
  · rintro ⟨⟨subject, relation, object⟩, hLine, hObject, hSubject, rfl⟩
    obtain ⟨name, hName⟩ := Triple.relation_of_ofLine hLine
    subst hObject hName
    exact ⟨subject, name, hSubject, hLine, rfl⟩
  · rintro ⟨pivot, relation, hPivot, hLine, rfl⟩
    exact ⟨_, hLine, rfl, hPivot, rfl⟩

theorem reduce_eq_ok_iff {reduced : Reduced} :
    reduce d lines = .ok reduced ↔ ∃ inner order line,
      lines = inner ++ [Block.closeLine, order] ∧ Text.contains d.auxiliaryVariable order = true ∧
      inner.filter (Text.contains d.auxiliaryVariable) = [line] ∧
      condition d (direction order) line = .ok reduced.condition ∧
      reduced.body = inner.filter (!Text.contains d.auxiliaryVariable ·) := by
  constructor
  · intro h
    rw [reduce] at h
    split at h
    · rename_i order close before hLines
      simp only [ite_error_eq_ok, ne_eq, not_not, Bool.not_eq_true', Bool.not_eq_false] at h
      obtain ⟨rfl, hOrder, h⟩ := h
      split at h
      · rename_i line hCandidates
        obtain ⟨found, hFound, h⟩ := bind_eq_ok.mp h
        cases h
        refine ⟨before.reverse, order, line, ?_, hOrder, hCandidates, hFound, rfl⟩
        have hReverse := congrArg List.reverse hLines
        simpa using hReverse
      · cases h
    · cases h
  · rintro ⟨inner, order, line, rfl, hOrder, hCandidates, hCondition, hBody⟩
    have hLines : (inner ++ [Block.closeLine, order]).reverse = order :: Block.closeLine :: inner.reverse := by
      simp
    rw [reduce, hLines]
    simp only [ite_error_eq_ok, ne_eq, not_not, Bool.not_eq_true', Bool.not_eq_false, List.reverse_reverse,
      hCandidates, true_and]
    exact ⟨hOrder, bind_eq_ok.mpr ⟨_, hCondition, by rw [← hBody]⟩⟩

theorem condition_error_cases {direction : Direction} {cause : Rejection}
    (h : condition d direction line = .error cause) :
    Triple.ofLine d line = .error cause ∨ cause = .structural (.unbound line d.auxiliaryVariable) ∨
      cause = .structural (.constantSubject line) := by
  rcases bind_eq_error.mp h with h | ⟨triple, _, h⟩
  · exact Or.inl h
  · split at h
    · exact Or.inr (Or.inl (Except.error.inj h).symm)
    · split at h
      · exact Or.inr (Or.inr (Except.error.inj h).symm)
      · cases h

/-- Why a superlative is rejected: its end, the number of lines with the auxiliary variable, or the one such line. -/
theorem reduce_error_cases {cause : Rejection} (h : reduce d lines = .error cause) :
    cause = .structural .unclosed ∨ ∃ inner order, lines = inner ++ [Block.closeLine, order] ∧
      (cause = .structural (.ordering order d.auxiliaryVariable) ∨
        Text.contains d.auxiliaryVariable order = true ∧
          (cause = .ambiguous (inner.filter (Text.contains d.auxiliaryVariable)).length ∧
              (inner.filter (Text.contains d.auxiliaryVariable)).length ≠ 1 ∨
            ∃ line, inner.filter (Text.contains d.auxiliaryVariable) = [line] ∧
              condition d (direction order) line = .error cause)) := by
  rw [reduce] at h
  split at h
  · rename_i order close before hLines
    have hReverse : lines = before.reverse ++ [close, order] := by
      have hReverse := congrArg List.reverse hLines
      simpa using hReverse
    split at h
    · exact Or.inl (Except.error.inj h).symm
    · rename_i hClose
      obtain rfl := not_not.mp hClose
      refine Or.inr ⟨before.reverse, order, hReverse, ?_⟩
      split at h
      · exact Or.inl (Except.error.inj h).symm
      · rename_i hOrder
        refine Or.inr ⟨by simpa using hOrder, ?_⟩
        simp only at h
        split at h
        · rename_i line hLine
          rcases bind_eq_error.mp h with h | ⟨_, _, h⟩
          · exact Or.inr ⟨line, hLine, h⟩
          · cases h
        · rename_i hMany
          refine Or.inl ⟨(Except.error.inj h).symm, fun hOne => ?_⟩
          obtain ⟨line, hLine⟩ := List.length_eq_one_iff.mp hOne
          exact hMany line hLine
  · exact Or.inl (Except.error.inj h).symm

end Superlative

namespace Condition

/-- The lines that close a query with this condition, and what is read in them. -/
def Closes (d : Dialect) : Condition → List String → Prop
  | .none, tail => tail = [Block.closeLine]
  | .superlative direction _ _, tail => ∃ order, tail = [Block.closeLine, order, Block.limitLine] ∧
      Text.contains d.auxiliaryVariable order = true ∧ Superlative.direction order = direction
  | .range pivot relation year, tail => ∃ start stop first second,
      tail = [start.guardLine, first, start.dateLine, stop.guardLine, second, stop.dateLine,
        Block.closeLine] ∧ Range.Bounded d start stop pivot relation year

/-- Which of the inner lines are left when the condition has taken what it reads there. A plain query is one
that does not end as a range does. -/
def Leaves (d : Dialect) : Condition → List String → List String → Prop
  | .none, inner, kept => kept = inner ∧ ∀ line ∈ inner.reverse[2]?, Text.startsWith Block.guardMark line = false
  | .superlative _ pivot relation, inner, kept => ∃ front line back,
      inner = front ++ line :: back ∧ kept = front ++ back ∧ Text.contains d.auxiliaryVariable line = true ∧
      (∀ other ∈ kept, Text.contains d.auxiliaryVariable other = false) ∧ pivot.isVar = true ∧
      Triple.ofLine d line = .ok ⟨pivot, .entity relation, d.term d.auxiliaryVariable⟩
  | .range _ _ _, inner, kept => kept = inner

theorem Closes.exists_ending {d : Dialect} {condition : Condition} {tail : List String}
    (h : condition.Closes d tail) : ∃ (before : List String) (ending : Ending), tail = before ++ [ending.line] := by
  cases condition with
  | none => exact ⟨[], .brace, h⟩
  | superlative direction pivot relation =>
    obtain ⟨order, rfl, _⟩ := h
    exact ⟨[Block.closeLine, order], .limit, rfl⟩
  | range pivot relation year =>
    obtain ⟨start, stop, first, second, rfl, _⟩ := h
    exact ⟨[_, _, _, _, _, _], .brace, rfl⟩

theorem Closes.length_eq {d : Dialect} {condition : Condition} {tail tail' : List String}
    (h : condition.Closes d tail) (h' : condition.Closes d tail') : tail.length = tail'.length := by
  cases condition with
  | none => rw [h, h']
  | superlative direction pivot relation =>
    obtain ⟨_, rfl, _⟩ := h
    obtain ⟨_, rfl, _⟩ := h'
    rfl
  | range pivot relation year =>
    obtain ⟨_, _, _, _, rfl, _⟩ := h
    obtain ⟨_, _, _, _, rfl, _⟩ := h'
    rfl

theorem leaves_superlative_iff {d : Dialect} {direction : Direction} {pivot : Term} {relation line : String}
    {front back kept : List String} (hHere : Text.contains d.auxiliaryVariable line = true)
    (hPivot : pivot.isVar = true)
    (hLine : Triple.ofLine d line = .ok ⟨pivot, .entity relation, d.term d.auxiliaryVariable⟩) :
    (superlative direction pivot relation).Leaves d (front ++ line :: back) kept ↔
      kept = front ++ back ∧ ∀ other ∈ kept, Text.contains d.auxiliaryVariable other = false := by
  constructor
  · rintro ⟨front', line', back', hInner, rfl, hHere', hElsewhere, _, _⟩
    -- The one line with the variable is where it is, so the lines around it are the same.
    have hOne := filter_eq_singleton_iff.mpr ⟨front', back', hInner, hHere', hElsewhere⟩
    rw [List.filter_append, List.filter_cons_of_pos hHere] at hOne
    have hLength := congrArg List.length hOne
    rw [List.length_append, List.length_cons, List.length_singleton] at hLength
    have hFront : front.filter (Text.contains d.auxiliaryVariable) = [] := List.length_eq_zero_iff.mp (by omega)
    have hBack : back.filter (Text.contains d.auxiliaryVariable) = [] := List.length_eq_zero_iff.mp (by omega)
    have hNone : ∀ other ∈ front ++ back, Text.contains d.auxiliaryVariable other = false := by
      simpa using List.forall_mem_append.mpr ⟨List.filter_eq_nil_iff.mp hFront, List.filter_eq_nil_iff.mp hBack⟩
    have hKept := congrArg (List.filter (!Text.contains d.auxiliaryVariable ·)) hInner
    rw [filter_not_of_split hHere hNone, filter_not_of_split hHere' hElsewhere] at hKept
    exact ⟨hKept.symm, hElsewhere⟩
  · rintro ⟨rfl, hElsewhere⟩
    exact ⟨front, line, back, rfl, rfl, hHere, hElsewhere, hPivot, hLine⟩

end Condition

namespace Reduced

variable {d : Dialect} {block : Block}

theorem split_eq_ok_iff {parts : Reduced} :
    split d block = .ok parts ↔ ∃ inner tail, block.lines ++ [block.ending.line] = inner ++ tail ∧
      parts.condition.Closes d tail ∧ parts.condition.Leaves d inner parts.body := by
  obtain ⟨lines, ending⟩ := block
  obtain ⟨body, condition⟩ := parts
  constructor
  · intro h
    rw [split] at h
    split at h
    · rename_i hShape
      obtain ⟨rfl, hGuard⟩ := Block.shape_eq_plain_iff.mp hShape
      cases h
      exact ⟨lines, _, rfl, rfl, rfl, hGuard⟩
    · rename_i hShape
      obtain rfl := Block.shape_eq_superlative_iff.mp hShape
      obtain ⟨inner, order, line, hLines, hOrder, hCandidates, hCondition, hBody⟩ :=
        Superlative.reduce_eq_ok_iff.mp h
      obtain ⟨pivot, relation, hPivot, hLine, hFound⟩ := Superlative.condition_eq_ok_iff.mp hCondition
      obtain ⟨front, back, rfl, hHere, hElsewhere⟩ := filter_eq_singleton_iff.mp hCandidates
      simp only at hLines hFound hBody
      subst hLines hFound hBody
      refine ⟨_, [Block.closeLine, order, Block.limitLine], by simp [Ending.line], ⟨order, rfl, hOrder, rfl⟩,
        front, line, back, rfl, filter_not_of_split hHere hElsewhere, hHere, ?_, hPivot, hLine⟩
      rw [filter_not_of_split hHere hElsewhere]
      exact hElsewhere
    · rename_i hShape
      obtain ⟨rfl, _⟩ := Block.shape_eq_range_iff.mp hShape
      obtain ⟨start, stop, first, second, pivot, relation, year, hLines, hCondition, hBounded⟩ :=
        Range.reduce_eq_ok_iff.mp (mapError_eq_ok.mp h)
      simp only at hLines hCondition
      subst hLines hCondition
      exact ⟨body, _, by simp [Ending.line], ⟨start, stop, first, second, rfl, hBounded⟩, rfl⟩
  · rintro ⟨inner, tail, hLines, hCloses, hLeaves⟩
    cases condition with
    | none =>
      obtain ⟨rfl, hGuard⟩ := hLeaves
      obtain ⟨rfl, hEnding⟩ := List.append_inj' (hLines.trans (congrArg _ hCloses)) rfl
      obtain rfl := Ending.line_inj (List.singleton_inj.mp hEnding : _ = Ending.brace.line)
      rw [split, Block.shape_eq_plain_iff.mpr ⟨rfl, hGuard⟩]
    | superlative direction pivot relation =>
      obtain ⟨order, rfl, hOrder, rfl⟩ := hCloses
      obtain ⟨front, line, back, rfl, rfl, hHere, hElsewhere, hPivot, hLine⟩ := hLeaves
      obtain ⟨rfl, hEnding⟩ := List.append_inj'
        (hLines.trans (List.append_assoc _ [Block.closeLine, order] [Block.limitLine]).symm) rfl
      obtain rfl := Ending.line_inj (List.singleton_inj.mp hEnding : _ = Ending.limit.line)
      rw [split, Block.shape_eq_superlative_iff.mpr rfl]
      refine Superlative.reduce_eq_ok_iff.mpr ⟨_, order, line, rfl, hOrder,
        filter_eq_singleton_iff.mpr ⟨front, back, rfl, hHere, hElsewhere⟩,
        Superlative.condition_eq_ok_iff.mpr ⟨pivot, relation, hPivot, hLine, rfl⟩,
        (filter_not_of_split hHere hElsewhere).symm⟩
    | range pivot relation year =>
      obtain ⟨start, stop, first, second, rfl, hBounded⟩ := hCloses
      obtain rfl := hLeaves
      obtain ⟨rfl, hEnding⟩ := List.append_inj' (hLines.trans (List.append_assoc _
        [start.guardLine, first, start.dateLine, stop.guardLine, second, stop.dateLine]
        [Block.closeLine]).symm) rfl
      obtain rfl := Ending.line_inj (List.singleton_inj.mp hEnding : _ = Ending.brace.line)
      have hShape : Block.shape ⟨body ++ [start.guardLine, first, start.dateLine, stop.guardLine, second,
          stop.dateLine], .brace⟩ = .range := by
        obtain ⟨word, r, r', domain, digits, _, hStop, _⟩ := hBounded
        refine Block.shape_eq_range_iff.mpr ⟨rfl, stop.guardLine, by simp, hStop.startsWith_guardMark⟩
      rw [split, hShape]
      exact mapError_eq_ok.mpr
        (Range.reduce_eq_ok_iff.mpr ⟨start, stop, first, second, pivot, relation, year, rfl, rfl, hBounded⟩)

theorem ofText_eq_stringFilter {text : String} (hTemplate : Block.ofTemplate d text = .ok block)
    (hFilter : block.lines.any (Text.contains Block.stringFilterMark) = true) :
    ofText d text = .error .stringFilter := by
  have hBlock : Block.ofText d text = .error .stringFilter := by
    rw [Block.ofText, hTemplate]
    exact if_pos hFilter
  rw [ofText, hBlock]
  rfl

theorem dropFilters_eq_ok_iff {kept body : List String} :
    dropFilters kept = .ok body ↔ body ≠ [] ∧
      (kept = body ∧ (∀ line ∈ body.head?, Text.startsWith filterMark line = false) ∨
        ∃ first second, kept = first :: second :: body ∧ Text.startsWith filterMark first = true) := by
  constructor
  · intro h
    unfold dropFilters at h
    split at h
    · cases h
    · rename_i first rest
      split at h
      · rename_i hFirst
        split at h
        · rename_i second line more
          cases h
          exact ⟨by simp, Or.inr ⟨first, second, rfl, hFirst⟩⟩
        · cases h
      · rename_i hFirst
        cases h
        refine ⟨by simp, Or.inl ⟨rfl, ?_⟩⟩
        simpa using hFirst
  · rintro ⟨hSome, ⟨rfl, hFirst⟩ | ⟨first, second, rfl, hFirst⟩⟩
    · obtain ⟨first, rest, rfl⟩ := List.exists_cons_of_ne_nil hSome
      exact if_neg (by simp [hFirst first rfl])
    · obtain ⟨line, more, rfl⟩ := List.exists_cons_of_ne_nil hSome
      exact if_pos hFirst

theorem checkLines_eq_ok_iff {lines body : List String} :
    checkLines d lines = .ok body ↔ lines = body ∧ ∀ line ∈ body, startsTriple d line = true := by
  rw [checkLines]
  cases hFind : lines.find? (!startsTriple d ·) with
  | some line =>
    have hLine := List.find?_some hFind
    simp only [reduceCtorEq, false_iff, not_and]
    rintro rfl hAll
    rw [hAll line (List.mem_of_find?_eq_some hFind)] at hLine
    cases hLine
  | none =>
    simp only [Except.ok.injEq]
    refine ⟨fun h => ⟨h, ?_⟩, fun h => h.1⟩
    rw [← h]
    simpa using List.find?_eq_none.mp hFind

theorem ofBlock_eq_ok_iff {reduced : Reduced} :
    ofBlock d block = .ok reduced ↔ ∃ kept, split d block = .ok ⟨kept, reduced.condition⟩ ∧
      dropFilters kept = .ok reduced.body ∧ ∀ line ∈ reduced.body, startsTriple d line = true := by
  simp only [ofBlock, bind_eq_ok, mapError_eq_ok, Except.ok.injEq]
  constructor
  · rintro ⟨⟨kept, condition⟩, hSplit, triples, hTriples, rfl⟩
    obtain ⟨body, hBody, hCheck⟩ := bind_eq_ok.mp hTriples
    obtain ⟨rfl, hAll⟩ := checkLines_eq_ok_iff.mp hCheck
    exact ⟨kept, hSplit, hBody, hAll⟩
  · rintro ⟨kept, hSplit, hBody, hAll⟩
    exact ⟨_, hSplit, reduced.body, bind_eq_ok.mpr ⟨_, hBody, checkLines_eq_ok_iff.mpr ⟨rfl, hAll⟩⟩, rfl⟩

/-- Where a reduction stops: at the template, at a string filter, at the lines of the condition, or at the body. -/
theorem ofText_error_cases {text : String} {cause : Rejection} (h : ofText d text = .error cause) :
    (∃ found, Block.ofTemplate d text = .error found ∧ cause = .structural found) ∨ cause = .stringFilter ∨
    ∃ block, Block.ofText d text = .ok block ∧ (split d block = .error cause ∨
      ∃ (parts : Reduced) (found : Mismatch), (dropFilters parts.body).bind (checkLines d) = .error found ∧
        cause = .structural found) := by
  rcases bind_eq_error.mp h with h | ⟨block, hBlock, h⟩
  · rcases Block.ofText_error_cases h with h | h
    · exact Or.inl h
    · exact Or.inr (Or.inl h)
  · refine Or.inr (Or.inr ⟨block, hBlock, ?_⟩)
    rcases bind_eq_error.mp h with h | ⟨parts, _, h⟩
    · exact Or.inl h
    · rcases bind_eq_error.mp h with h | ⟨body, _, h⟩
      · obtain ⟨found, hFound, hCause⟩ := mapError_eq_error.mp h
        exact Or.inr ⟨parts, found, hFound, hCause.symm⟩
      · cases h

end Reduced

/-- The lines of a query taken apart: before the block, in it, after it, and those left for the body. -/
structure Reading where
  declarations : List String
  header : String
  inner : List String
  tail : List String
  kept : List String

namespace Reading

def front (r : Reading) : List String := r.declarations ++ r.header :: Block.openLine :: r.inner

def lines (r : Reading) : List String := r.front ++ r.tail

/-- What the parts of a query that is reduced so have to meet. -/
structure Yields (d : Dialect) (r : Reading) (reduced : Reduced) : Prop where
  head : Block.IsHead d r.declarations r.header
  clean : ∀ line ∈ r.inner ++ r.tail, Text.contains Block.stringFilterMark line = false
  closes : reduced.condition.Closes d r.tail
  leaves : reduced.condition.Leaves d r.inner r.kept
  drops : Reduced.dropFilters r.kept = .ok reduced.body
  starts : ∀ line ∈ reduced.body, Reduced.startsTriple d line = true

end Reading

theorem Reduced.ofText_eq_ok_iff {d : Dialect} {text : String} {reduced : Reduced} :
    ofText d text = .ok reduced ↔
      ∃ r : Reading, r.Yields d reduced ∧ Text.contentLines text = r.lines := by
  have hEnd : ∀ ending : Ending, Text.contains Block.stringFilterMark ending.line = false := by
    intro ending
    cases ending <;> decide
  simp only [ofText, bind_eq_ok, Block.ofText_eq_ok_iff, Block.ofTemplate_eq_ok_iff, ofBlock_eq_ok_iff,
    split_eq_ok_iff]
  constructor
  · rintro ⟨block, ⟨⟨declarations, header, hHead, hLines⟩, hClean⟩, kept, ⟨inner, tail, hBlock, hCloses,
      hLeaves⟩, hDrops, hStarts⟩
    rw [hBlock] at hLines
    refine ⟨⟨declarations, header, inner, tail, kept⟩, ⟨hHead, ?_, hCloses, hLeaves, hDrops, hStarts⟩,
      hLines.trans (by simp [Reading.lines, Reading.front])⟩
    intro line hLine
    rw [← hBlock] at hLine
    rcases List.mem_append.mp hLine with hLine | hLine
    · exact hClean line hLine
    · rw [List.mem_singleton.mp hLine]
      exact hEnd block.ending
  · rintro ⟨⟨declarations, header, inner, tail, kept⟩, ⟨hHead, hClean, hCloses, hLeaves, hDrops, hStarts⟩, hLines⟩
    obtain ⟨block, hBlock⟩ : ∃ block : Block, block.lines ++ [block.ending.line] = inner ++ tail := by
      obtain ⟨before, ending, rfl⟩ := hCloses.exists_ending
      exact ⟨⟨inner ++ before, ending⟩, List.append_assoc _ _ _⟩
    refine ⟨block, ⟨⟨declarations, header, hHead, ?_⟩, fun line hLine => hClean line ?_⟩, kept,
      ⟨inner, tail, hBlock, hCloses, hLeaves⟩, hDrops, hStarts⟩
    · rw [hLines, hBlock]
      simp [Reading.lines, Reading.front]
    · show line ∈ inner ++ tail
      rw [← hBlock]
      exact List.mem_append_left _ hLine

/-- If the head and the tail of a text are known, what is asked of the lines between them decides. -/
theorem Reduced.ofText_eq_ok_iff_of_closes {d : Dialect} {text header : String} {reduced : Reduced}
    {declarations inner tail : List String} (hHead : Block.IsHead d declarations header)
    (hCloses : reduced.condition.Closes d tail)
    (hText : Text.contentLines text = declarations ++ header :: Block.openLine :: (inner ++ tail)) :
    ofText d text = .ok reduced ↔
      (∀ line ∈ inner ++ tail, Text.contains Block.stringFilterMark line = false) ∧
      (∃ kept, reduced.condition.Leaves d inner kept ∧ dropFilters kept = .ok reduced.body) ∧
      ∀ line ∈ reduced.body, startsTriple d line = true := by
  rw [ofText_eq_ok_iff]
  constructor
  · rintro ⟨r, hYields, hLines⟩
    have hAll : r.declarations ++ r.header :: Block.openLine :: (r.inner ++ r.tail) =
        declarations ++ header :: Block.openLine :: (inner ++ tail) := by
      rw [← hText, hLines]
      simp [Reading.lines, Reading.front]
    obtain ⟨hInner, hTail⟩ := List.append_inj' (hYields.head.rest_inj hHead hAll)
      (hYields.closes.length_eq hCloses)
    exact ⟨hInner ▸ hTail ▸ hYields.clean, ⟨r.kept, hInner ▸ hYields.leaves, hYields.drops⟩, hYields.starts⟩
  · rintro ⟨hClean, ⟨kept, hLeaves, hDrops⟩, hStarts⟩
    refine ⟨⟨declarations, header, inner, tail, kept⟩, ⟨hHead, hClean, hCloses, hLeaves, hDrops, hStarts⟩, ?_⟩
    rw [hText]
    simp [Reading.lines, Reading.front]

theorem Reduced.isHead_select : Block.IsHead {} [] "SELECT DISTINCT ?x" :=
  ⟨by decide, by decide, by decide, by decide⟩

/-- How a written query is shown to be accepted. -/
theorem Reading.Yields.ofText_unlines {d : Dialect} {r : Reading} {reduced : Reduced} (h : r.Yields d reduced)
    {lines : List String} (hLines : ∀ line ∈ lines, '\n' ∉ line.toList)
    (hRead : (lines.map Text.trim).filter (· ≠ "") = r.lines) :
    Reduced.ofText d (Text.unlines lines) = .ok reduced :=
  Reduced.ofText_eq_ok_iff.mpr ⟨r, h, (Text.contentLines_unlines hLines).trans hRead⟩

end LogicalForm
