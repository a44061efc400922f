import LogicalForm.Proofs.Guarantees
import LogicalForm.Proofs.Pattern
import Mathlib.Data.List.Forall2

/-!
# Queries laid out in the template

A layout says how a query is written down: the words of its triples, the lines around them, and one of the
three ways to close. If its lines can be told apart, it is read back as it was written, with every triple in its
place. Two kinds of layout are refused on purpose: those with a filter on strings, and superlatives in which the
variable that orders the answers is bound twice.
-/

namespace LogicalForm
set_option autoImplicit false

/-- A pair of lines that may stand before the triples. -/
structure Filters where
  first : String
  second : String
  first_whole : '\n' ∉ first.toList
  second_whole : '\n' ∉ second.toList
  first_filters : Text.startsWith "FILTER" (Text.trim first) = true
  second_nonblank : Text.trim second ≠ ""
  not_guards : ∀ line ∈ [first, second], Text.startsWith "FILTER(NOT EXISTS \x7b?" (Text.trim line) = false

/-- The line of a superlative that binds the auxiliary variable. -/
structure Binding (n : Naming) where
  pivot : String
  name : String
  pivot_isWord : Text.IsWord ("?" ++ pivot)
  relation_isWord : Text.IsWord (n.mark ++ name)

def Binding.pattern {n : Naming} (b : Binding n) : Pattern n :=
  { subject := "?" ++ b.pivot
    name := b.name
    object := "?sk0"
    subject_isWord := b.pivot_isWord
    relation_isWord := b.relation_isWord
    object_isWord := by decide
    subject_starts := Or.inl (Text.startsWith_append "?" b.pivot) }

theorem Binding.contains_line {n : Naming} (b : Binding n) :
    Text.contains n.dialect.auxiliaryVariable b.pattern.line = true := b.pattern.contains_object_line

theorem Binding.ofLine_line {n : Naming} (b : Binding n) :
    Triple.ofLine n.dialect b.pattern.line =
      .ok ⟨.var b.pivot, .entity b.name, n.dialect.term n.dialect.auxiliaryVariable⟩ := by
  rw [b.pattern.ofLine_line, Pattern.triple]
  show Except.ok (⟨n.dialect.term ("?" ++ b.pivot), _, _⟩ : Triple) = _
  rw [n.dialect.term_var]
  rfl

/-- One end of a period: how its relation goes on after the domain, and its date after the year. -/
structure Limit (n : Naming) (domain : String) where
  suffix : String
  day : String
  relation_isWord : Text.IsWord (n.mark ++ (domain ++ "." ++ suffix))
  relation_open : '\x7d' ∉ (n.mark ++ (domain ++ "." ++ suffix)).toList
  day_open : '"' ∉ day.toList
  day_whole : '\n' ∉ day.toList

namespace Limit

variable {n : Naming} {domain : String} (l : Limit n domain) {pivot year auxiliary comparison : String}

def relation : String := n.mark ++ (domain ++ "." ++ l.suffix)

def guardLine (pivot auxiliary : String) : String :=
  "FILTER(NOT EXISTS \x7b" ++ (pivot ++ " " ++ l.relation ++ " " ++ auxiliary) ++ "\x7d ||"

def boundLine (pivot auxiliary : String) : String :=
  "EXISTS \x7b" ++ (pivot ++ " " ++ l.relation ++ " " ++ auxiliary ++ " ") ++ "."

def dateLine (year auxiliary comparison : String) : String :=
  "FILTER(xsd:datetime(" ++ (auxiliary ++ ") " ++ comparison ++ " \"" ++ year ++ l.day) ++
    "\"^^xsd:dateTime) \x7d)"

theorem whole_relation : '\n' ∉ l.relation.toList := l.relation_isWord.whole

theorem isLine_guardLine (hPivot : Text.IsWord pivot) (hAuxiliary : Text.IsWord auxiliary) :
    Text.IsLine (l.guardLine pivot auxiliary) := by
  have hMiddle : '\n' ∉ (pivot ++ " " ++ l.relation ++ " " ++ auxiliary).toList := by
    simp [hPivot.whole, l.whole_relation, hAuxiliary.whole]
  exact Text.IsLine.append (by decide) hMiddle (by decide)

theorem isLine_boundLine (hPivot : Text.IsWord pivot) (hAuxiliary : Text.IsWord auxiliary) :
    Text.IsLine (l.boundLine pivot auxiliary) := by
  have hMiddle : '\n' ∉ (pivot ++ " " ++ l.relation ++ " " ++ auxiliary ++ " ").toList := by
    simp [hPivot.whole, l.whole_relation, hAuxiliary.whole]
  exact Text.IsLine.append (by decide) hMiddle (by decide)

theorem isLine_dateLine (hYear : '\n' ∉ year.toList) (hAuxiliary : Text.IsWord auxiliary)
    (hComparison : Text.IsWord comparison) : Text.IsLine (l.dateLine year auxiliary comparison) := by
  have hMiddle : '\n' ∉ (auxiliary ++ ") " ++ comparison ++ " \"" ++ year ++ l.day).toList := by
    simp [hYear, l.day_whole, hAuxiliary.whole, hComparison.whole]
  exact Text.IsLine.append (by decide) hMiddle (by decide)

theorem guards_guardLine (hPivot : Text.IsWord pivot) (hStarts : Text.startsWith "?" pivot = true)
    (hOpen : '\x7d' ∉ pivot.toList) (hAuxiliary : Text.IsWord auxiliary) (hOpen' : '\x7d' ∉ auxiliary.toList) :
    Range.Guards (l.guardLine pivot auxiliary) pivot l.relation := by
  have hRelation : '\x7d' ∉ l.relation.toList := l.relation_open
  have hWord : Text.IsWord l.relation := l.relation_isWord
  refine ⟨pivot ++ " " ++ (l.relation ++ " " ++ auxiliary), " ||", [auxiliary], ?_, ?_, ?_, ?_⟩
  · show Range.openMark ++ (pivot ++ " " ++ l.relation ++ " " ++ auxiliary) ++ "\x7d ||" = _
    simp only [String.append_assoc, String.reduceAppend]
  · simp [hOpen, hRelation, hOpen']
  · rw [String.append_assoc]
    exact Text.startsWith_append_of_startsWith hStarts _
  · rw [Text.words_append_blank hPivot, Text.words_append_blank hWord, Text.words_of_isWord hAuxiliary]

theorem dates_dateLine (hYear : year.toList.length = 4 ∧ year.toList.all Char.isDigit = true)
    (hAuxiliary : '"' ∉ auxiliary.toList) (hComparison : '"' ∉ comparison.toList) :
    Range.Dates (l.dateLine year auxiliary comparison) year := by
  have hDigit : '"' ∉ year.toList := fun hMem => by cases List.all_eq_true.mp hYear.2 _ hMem
  refine ⟨"FILTER(xsd:datetime(" ++ (auxiliary ++ ") " ++ comparison ++ " "), l.day, "^^xsd:dateTime) \x7d)", ?_,
    ?_, ?_, hYear⟩
  · show "FILTER(xsd:datetime(" ++ (auxiliary ++ ") " ++ comparison ++ " \"" ++ year ++ l.day) ++
      "\"^^xsd:dateTime) \x7d)" = _
    simp only [String.append_assoc, String.reduceAppend]
  · simp [hAuxiliary, hComparison]
  · simp [hDigit, l.day_open]

theorem segmented_relation {first second : String} (l : Limit n (first ++ "." ++ second))
    (hFirst : '.' ∉ first.toList) (hSecond : '.' ∉ second.toList) :
    Range.Segmented (n.dialect.localName l.relation) (first ++ "." ++ second) := by
  refine ⟨first, second, l.suffix, ?_, hFirst, hSecond, rfl⟩
  rw [relation, n.localName_mark]
  simp only [String.append_assoc]

end Limit

/-- A year that a variable is held to, by two relations of one domain. -/
structure Period (n : Naming) where
  pivot : String
  first : String
  second : String
  year : String
  start : Limit n (first ++ "." ++ second)
  stop : Limit n (first ++ "." ++ second)
  pivot_isWord : Text.IsWord ("?" ++ pivot)
  pivot_open : '\x7d' ∉ ("?" ++ pivot).toList
  first_segment : '.' ∉ first.toList
  second_segment : '.' ∉ second.toList
  year_digits : year.toList.length = 4 ∧ year.toList.all Char.isDigit = true

namespace Period

variable {n : Naming} (p : Period n)

def domain : String := p.first ++ "." ++ p.second

def lines : List String :=
  [p.start.guardLine ("?" ++ p.pivot) "?sk0", p.start.boundLine ("?" ++ p.pivot) "?sk1",
    p.start.dateLine p.year "?sk1" "<=", p.stop.guardLine ("?" ++ p.pivot) "?sk2",
    p.stop.boundLine ("?" ++ p.pivot) "?sk3", p.stop.dateLine p.year "?sk3" ">="]

theorem isLine_lines : ∀ line ∈ p.lines, Text.IsLine line := by
  have hYear : '\n' ∉ p.year.toList := fun hMem => by cases List.all_eq_true.mp p.year_digits.2 _ hMem
  intro line hLine
  simp only [lines, List.mem_cons, List.not_mem_nil, or_false] at hLine
  rcases hLine with rfl | rfl | rfl | rfl | rfl | rfl
  · exact p.start.isLine_guardLine p.pivot_isWord (by decide)
  · exact p.start.isLine_boundLine p.pivot_isWord (by decide)
  · exact p.start.isLine_dateLine hYear (by decide) (by decide)
  · exact p.stop.isLine_guardLine p.pivot_isWord (by decide)
  · exact p.stop.isLine_boundLine p.pivot_isWord (by decide)
  · exact p.stop.isLine_dateLine hYear (by decide) (by decide)

theorem bounded :
    Range.Bounded n.dialect ⟨p.start.guardLine ("?" ++ p.pivot) "?sk0", p.start.dateLine p.year "?sk1" "<="⟩
      ⟨p.stop.guardLine ("?" ++ p.pivot) "?sk2", p.stop.dateLine p.year "?sk3" ">="⟩ (.var p.pivot)
      (p.domain ++ ".time_macro") (p.year ++ "^^http://www.w3.org/2001/XMLSchema#date") := by
  have hStarts := Text.startsWith_append "?" p.pivot
  refine ⟨"?" ++ p.pivot, p.start.relation, p.stop.relation, p.domain, p.year, ?_, ?_, ?_, ?_, ?_, ?_,
    (n.dialect.term_var p.pivot).symm, ?_, ?_⟩
  · exact p.start.guards_guardLine p.pivot_isWord hStarts p.pivot_open (by decide) (by decide)
  · exact p.stop.guards_guardLine p.pivot_isWord hStarts p.pivot_open (by decide) (by decide)
  · exact p.start.segmented_relation p.first_segment p.second_segment
  · exact p.stop.segmented_relation p.first_segment p.second_segment
  · exact p.start.dates_dateLine p.year_digits (by decide) (by decide)
  · exact p.stop.dates_dateLine p.year_digits (by decide) (by decide)
  · rw [String.append_assoc]
    rfl
  · rw [String.append_assoc]
    rfl

end Period

/-- The three ways to close a query. -/
inductive Closing (n : Naming) where
  | plain
  | superlative (binding : Binding n) (descending : Bool)
  | range (period : Period n)

namespace Closing

variable {n : Naming}

/-- The lines that the closing adds between the triples. -/
def inserted : Closing n → List String
  | .plain | .range _ => []
  | .superlative binding _ => [binding.pattern.line]

def orderLine : Bool → String
  | true => "ORDER BY DESC(xsd:datetime(?sk0))"
  | false => "ORDER BY xsd:datetime(?sk0)"

def tail : Closing n → List String
  | .plain => ["\x7d"]
  | .superlative _ descending => ["\x7d", orderLine descending, "LIMIT 1"]
  | .range period => period.lines ++ ["\x7d"]

def condition : Closing n → Condition
  | .plain => .none
  | .superlative binding descending =>
    .superlative (if descending then .max else .min) (.var binding.pivot) binding.name
  | .range period =>
    .range (.var period.pivot) (period.domain ++ ".time_macro")
      (period.year ++ "^^http://www.w3.org/2001/XMLSchema#date")

def isSuperlative : Closing n → Bool
  | .plain | .range _ => false
  | .superlative _ _ => true

theorem exists_of_isSuperlative {c : Closing n} (h : c.isSuperlative = true) :
    ∃ binding descending, c = .superlative binding descending := by
  cases c with
  | plain => cases h
  | superlative binding descending => exact ⟨binding, descending, rfl⟩
  | range period => cases h

theorem orders_orderLine : ∀ descending, Text.contains "?sk0" (orderLine descending) = true ∧
    Superlative.direction (orderLine descending) = if descending then .max else .min := by
  decide

theorem isLine_inserted (c : Closing n) : ∀ line ∈ c.inserted, Text.IsLine line := by
  cases c with
  | plain => simp [inserted]
  | superlative binding descending => simpa [inserted] using binding.pattern.isLine_line
  | range period => simp [inserted]

theorem isLine_tail (c : Closing n) : ∀ line ∈ c.tail, Text.IsLine line := by
  have hFixed : ∀ line ∈ ["\x7d", orderLine true, orderLine false, "LIMIT 1"], Text.IsLine line := by
    decide
  cases c with
  | plain => exact fun line hLine => hFixed line (by simpa [tail] using Or.inl hLine)
  | superlative binding descending =>
    refine List.forall_mem_cons.mpr ⟨hFixed _ (by simp), List.forall_mem_cons.mpr ⟨hFixed _ ?_, ?_⟩⟩
    · cases descending <;> simp
    · exact List.forall_mem_singleton.mpr (hFixed _ (by simp))
  | range period =>
    exact List.forall_mem_append.mpr ⟨period.isLine_lines, List.forall_mem_singleton.mpr (hFixed _ (by simp))⟩

theorem closes_tail (c : Closing n) : c.condition.Closes n.dialect c.tail := by
  cases c with
  | plain => rfl
  | superlative binding descending => exact ⟨orderLine descending, rfl, orders_orderLine descending⟩
  | range period => exact ⟨⟨_, _⟩, ⟨_, _⟩, _, _, rfl, period.bounded⟩

end Closing

/-- A query as it is written down. The line that a superlative adds stands behind the leading triples. -/
structure Layout (n : Naming) where
  declarations : List String
  filters : Option Filters
  leading : List (Pattern n)
  trailing : List (Pattern n)
  closing : Closing n
  declarations_whole : ∀ line ∈ declarations, '\n' ∉ line.toList
  declarations_start : ∀ line ∈ declarations, Text.startsWith "PREFIX" (Text.trim line) = true
  patterns_ne_nil : leading ++ trailing ≠ []

namespace Layout

variable {n : Naming} (l : Layout n)

def patterns : List (Pattern n) := l.leading ++ l.trailing

def filterLines : List String :=
  match l.filters with
  | some filters => [filters.first, filters.second]
  | none => []

/-- The lines of the block, with the filters as they are given. -/
def block (filters : List String) : List String :=
  filters ++ l.leading.map Pattern.line ++ l.closing.inserted ++ l.trailing.map Pattern.line

def text : String :=
  Text.unlines (l.declarations ++ n.header :: "WHERE \x7b" :: (l.block l.filterLines ++ l.closing.tail))

def filterContents : List String := l.filterLines.map Text.trim

def body : List String := l.patterns.map Pattern.line

/-- No line can be taken for something else: none filters strings, the first triple does not start as a
filter where none is expected, and only one line mentions the variable that a superlative orders by. -/
structure Clear : Prop where
  strings : ∀ line ∈ l.block l.filterContents ++ l.closing.tail, Text.contains "FILTER (str" line = false
  first : l.filters = none → ∀ line ∈ l.body.head?, Text.startsWith "FILTER" line = false
  auxiliary : l.closing.isSuperlative = true → ∀ line ∈ l.filterContents ++ l.body, Text.contains "?sk0" line = false

theorem whole_filterLines : ∀ line ∈ l.filterLines, '\n' ∉ line.toList ∧ Text.trim line ≠ "" := by
  rw [filterLines]
  cases l.filters with
  | none => simp
  | some filters =>
    have hFirst := Text.ne_empty_of_startsWith (by decide) filters.first_filters
    simpa using ⟨⟨filters.first_whole, hFirst⟩, filters.second_whole, filters.second_nonblank⟩

theorem contentLines_text :
    Text.contentLines l.text = l.declarations.map Text.trim ++
      n.header :: Block.openLine :: (l.block l.filterContents ++ l.closing.tail) := by
  have hPatterns : ∀ ps : List (Pattern n), ∀ line ∈ ps.map Pattern.line, Text.IsLine line :=
    fun ps => List.forall_mem_map.mpr fun p _ => p.isLine_line
  have hOpen : Text.IsLine "WHERE \x7b" := by decide
  have hRead : ∀ {line : String}, Text.IsLine line → '\n' ∉ line.toList ∧ Text.trim line ≠ "" := by
    intro line hLine
    rw [hLine.trimmed]
    exact ⟨hLine.whole, hLine.ne_empty⟩
  rw [text, Text.contentLines_unlines_of_nonblank]
  · rw [List.map_append, List.map_cons, List.map_cons, List.map_append, n.isLine_header.trimmed, hOpen.trimmed,
      Text.map_trim l.closing.isLine_tail, block, List.map_append, List.map_append, List.map_append,
      Text.map_trim (hPatterns _), Text.map_trim (hPatterns _), Text.map_trim l.closing.isLine_inserted]
    rfl
  · intro line hLine
    simp only [block, List.mem_append, List.mem_cons] at hLine
    rcases hLine with hLine | rfl | rfl | (((hLine | hLine) | hLine) | hLine) | hLine
    · exact ⟨l.declarations_whole line hLine,
        Text.ne_empty_of_startsWith (by decide) (l.declarations_start line hLine)⟩
    · exact hRead n.isLine_header
    · exact hRead hOpen
    · exact l.whole_filterLines line hLine
    · exact hRead (hPatterns _ line hLine)
    · exact hRead (l.closing.isLine_inserted line hLine)
    · exact hRead (hPatterns _ line hLine)
    · exact hRead (l.closing.isLine_tail line hLine)

theorem isHead : Block.IsHead n.dialect (l.declarations.map Text.trim) n.header := by
  refine ⟨List.forall_mem_map.mpr l.declarations_start, n.not_declares_header, n.selects_header, ?_⟩
  have hHeader : Text.startsWith "SELECT" n.header = true := Text.startsWith_append_of_startsWith rfl _
  have hStarts := l.declarations_start
  cases hDeclarations : l.declarations with
  | nil =>
    intro hManual
    have hLine : n.header = "#MANUAL SPARQL" := Option.some.inj hManual
    rw [hLine] at hHeader
    exact absurd hHeader (by decide)
  | cons line lines =>
    intro hManual
    have hLine : Text.trim line = "#MANUAL SPARQL" := Option.some.inj hManual
    have hDeclares := hStarts line (hDeclarations ▸ List.mem_cons_self)
    rw [hLine] at hDeclares
    exact absurd hDeclares (by decide)

theorem not_guard_block : ∀ line ∈ l.filterContents ++ l.body, Text.startsWith Block.guardMark line = false := by
  refine List.forall_mem_append.mpr ⟨?_, List.forall_mem_map.mpr fun p _ => p.not_guard_line⟩
  rw [filterContents, filterLines]
  cases l.filters with
  | none => simp
  | some filters => exact List.forall_mem_map.mpr filters.not_guards

theorem leaves_iff {kept : List String} :
    l.closing.condition.Leaves n.dialect (l.block l.filterContents) kept ↔ kept = l.filterContents ++ l.body ∧
      (l.closing.isSuperlative = true → ∀ line ∈ kept, Text.contains "?sk0" line = false) := by
  have hBlock : l.closing.inserted = [] → l.block l.filterContents = l.filterContents ++ l.body := by
    intro hNone
    rw [block, hNone, List.append_nil, body, patterns, List.map_append, List.append_assoc]
  cases hClosing : l.closing with
  | plain =>
    rw [hBlock (by rw [hClosing, Closing.inserted])]
    refine ⟨fun h => ⟨h.1, fun h' => by cases h'⟩, fun h => ⟨h.1, fun line hLine => ?_⟩⟩
    exact l.not_guard_block line (List.mem_reverse.mp (List.mem_of_getElem? hLine))
  | superlative binding descending =>
    have hInserted : l.block l.filterContents = l.filterContents ++ l.leading.map Pattern.line ++
        binding.pattern.line :: l.trailing.map Pattern.line := by
      rw [block, hClosing, Closing.inserted, List.append_assoc, List.singleton_append]
    have hKept : l.filterContents ++ l.body =
        l.filterContents ++ l.leading.map Pattern.line ++ l.trailing.map Pattern.line := by
      rw [body, patterns, List.map_append, List.append_assoc]
    rw [hInserted, hKept]
    refine (Condition.leaves_superlative_iff binding.contains_line rfl binding.ofLine_line).trans ?_
    exact and_congr_right fun _ => (imp_iff_right rfl).symm
  | range period =>
    rw [hBlock (by rw [hClosing, Closing.inserted])]
    exact ⟨fun h => ⟨h, fun h' => by cases h'⟩, fun h => h.1⟩

theorem dropFilters_iff :
    Reduced.dropFilters (l.filterContents ++ l.body) = .ok l.body ↔
      (l.filters = none → ∀ line ∈ l.body.head?, Text.startsWith "FILTER" line = false) := by
  have hSome : l.body ≠ [] := by
    rw [body, ne_eq, List.map_eq_nil_iff]
    exact l.patterns_ne_nil
  rw [Reduced.dropFilters_eq_ok_iff]
  cases hFilters : l.filters with
  | none =>
    have hFiltered : l.filterContents = [] := by rw [filterContents, filterLines, hFilters]; rfl
    rw [hFiltered, List.nil_append]
    constructor
    · rintro ⟨_, ⟨_, hFirst⟩ | ⟨first, second, hAll, _⟩⟩ _
      · exact hFirst
      · have hLength := congrArg List.length hAll
        simp only [List.length_cons] at hLength
        omega
    · intro hFirst
      exact ⟨hSome, Or.inl ⟨rfl, hFirst rfl⟩⟩
  | some filters =>
    have hFiltered : l.filterContents = [Text.trim filters.first, Text.trim filters.second] := by
      rw [filterContents, filterLines, hFilters]
      rfl
    rw [hFiltered]
    refine iff_of_true ⟨hSome, Or.inr ⟨_, _, rfl, filters.first_filters⟩⟩ ?_
    intro hNone
    cases hNone

/-- A query is read as it was laid out exactly if no line of it can be taken for something else. -/
theorem ofText_text_eq_ok_iff :
    Reduced.ofText n.dialect l.text = .ok ⟨l.body, l.closing.condition⟩ ↔ l.Clear := by
  rw [Reduced.ofText_eq_ok_iff_of_closes l.isHead l.closing.closes_tail l.contentLines_text]
  constructor
  · rintro ⟨hStrings, ⟨kept, hLeaves, hDrops⟩, _⟩
    obtain ⟨rfl, hAuxiliary⟩ := l.leaves_iff.mp hLeaves
    exact ⟨hStrings, l.dropFilters_iff.mp hDrops, hAuxiliary⟩
  · intro hClear
    refine ⟨hClear.strings, ⟨_, l.leaves_iff.mpr ⟨rfl, hClear.auxiliary⟩, l.dropFilters_iff.mpr hClear.first⟩, ?_⟩
    exact List.forall_mem_map.mpr fun p _ => p.startsTriple_line

theorem ofText_text_eq_stringFilter
    (hStrings : ∃ line ∈ l.block l.filterContents ++ l.closing.tail, Text.contains "FILTER (str" line = true) :
    Reduced.ofText n.dialect l.text = .error .stringFilter := by
  obtain ⟨before, ending, hTail⟩ := l.closing.closes_tail.exists_ending
  have hLines : l.block l.filterContents ++ l.closing.tail =
      (l.block l.filterContents ++ before) ++ [ending.line] := by
    rw [hTail, List.append_assoc]
  have hTemplate : Block.ofTemplate n.dialect l.text = .ok ⟨l.block l.filterContents ++ before, ending⟩ :=
    Block.ofTemplate_eq_ok_iff.mpr ⟨_, _, l.isHead, l.contentLines_text.trans (by rw [hLines])⟩
  -- The line that ends the block is fixed, and no filter.
  have hEnding : Text.contains "FILTER (str" ending.line = false := by cases ending <;> decide
  obtain ⟨line, hLine, hFilter⟩ := hStrings
  rw [hLines, List.mem_append, List.mem_singleton] at hLine
  rcases hLine with hLine | rfl
  · exact Reduced.ofText_eq_stringFilter hTemplate (List.any_eq_true.mpr ⟨line, hLine, hFilter⟩)
  · rw [hEnding] at hFilter
    cases hFilter

theorem two_le_length_bindings {binding : Binding n} {descending : Bool} {p : Pattern n}
    (hClosing : l.closing = .superlative binding descending) (hMem : p ∈ l.patterns) (hObject : p.object = "?sk0") :
    2 ≤ ((l.block l.filterContents).filter (Text.contains "?sk0")).length := by
  have hPattern : ∀ ps : List (Pattern n), p ∈ ps →
      0 < ((ps.map Pattern.line).filter (Text.contains "?sk0")).length := by
    intro ps hMem
    have hLine : Text.contains "?sk0" p.line = true := hObject ▸ p.contains_object_line
    exact List.length_pos_of_mem (List.mem_filter.mpr ⟨List.mem_map_of_mem hMem, hLine⟩)
  have hBinding : (l.closing.inserted.filter (Text.contains "?sk0")).length = 1 := by
    have hLine : Text.contains "?sk0" binding.pattern.line = true := binding.contains_line
    rw [hClosing, Closing.inserted, List.filter_cons_of_pos hLine]
    rfl
  simp only [block, List.filter_append, List.length_append, hBinding]
  rcases List.mem_append.mp hMem with hMem | hMem
  · have hLeading := hPattern _ hMem
    omega
  · have hTrailing := hPattern _ hMem
    omega

theorem exists_ofText_text_eq_ambiguous (hSuperlative : l.closing.isSuperlative = true)
    (hAgain : ∃ p ∈ l.patterns, p.object = "?sk0")
    (hStrings : ∀ line ∈ l.block l.filterContents ++ l.closing.tail, Text.contains "FILTER (str" line = false) :
    ∃ count, 2 ≤ count ∧ Reduced.ofText n.dialect l.text = .error (.ambiguous count) := by
  obtain ⟨p, hMem, hObject⟩ := hAgain
  obtain ⟨binding, descending, hClosing⟩ := Closing.exists_of_isSuperlative hSuperlative
  have hCount := l.two_le_length_bindings hClosing hMem hObject
  have hOrder := (Closing.orders_orderLine descending).1
  have hLines := l.contentLines_text
  rw [hClosing] at hLines hStrings
  refine ⟨_, hCount, Reduced.ofText_eq_ambiguous_iff.mpr ⟨_, _, l.block l.filterContents,
    Closing.orderLine descending, l.isHead, hLines, fun line hLine => hStrings line ?_, hOrder, rfl, by omega⟩⟩
  rcases List.mem_append.mp hLine with hLine | hLine
  · exact List.mem_append_left _ hLine
  · exact List.mem_append_right _ (List.mem_append_left ["LIMIT 1"] hLine)

/-- If the lines of a query can be told apart, it is read as it was laid out. Its triples always read as they were
written, word by word. A filter on strings is refused wherever it stands, and so is a superlative with one more
triple that binds the variable it orders by. -/
theorem ofText_text (l : Layout n) :
    (l.Clear → Reduced.ofText n.dialect l.text = .ok ⟨l.body, l.closing.condition⟩) ∧
    (∃ triples, Triple.ofLines n.dialect l.body = .ok triples ∧ List.Forall₂ Pattern.Spells l.patterns triples) ∧
    ((∃ line ∈ l.block l.filterContents ++ l.closing.tail, Text.contains "FILTER (str" line = true) →
      Reduced.ofText n.dialect l.text = .error .stringFilter) ∧
    (l.closing.isSuperlative = true → (∃ p ∈ l.patterns, p.object = "?sk0") →
      (∀ line ∈ l.block l.filterContents ++ l.closing.tail, Text.contains "FILTER (str" line = false) →
      ∃ count, 2 ≤ count ∧ Reduced.ofText n.dialect l.text = .error (.ambiguous count)) := by
  have hSpells : List.Forall₂ Pattern.Spells l.patterns (l.patterns.map Pattern.triple) :=
    List.forall₂_map_right_iff.mpr (List.forall₂_same.mpr fun p _ => p.spells_triple)
  exact ⟨l.ofText_text_eq_ok_iff.mpr, ⟨_, Pattern.ofLines_line l.patterns, hSpells⟩,
    l.ofText_text_eq_stringFilter, l.exists_ofText_text_eq_ambiguous⟩

theorem ofText_text_superlative :
    ∃ (n : Naming) (l : Layout n), n.dialect = {} ∧ l.filters.isSome = true ∧ l.Clear ∧
      Reduced.ofText {} l.text = .ok ⟨["?x ns:r ?y .", "?y ns:s ns:e ."], .superlative .max (.var "y") "t"⟩ := by
  let n : Naming := ⟨"?x", "ns:", by decide, by decide, by decide⟩
  let filters : Filters :=
    ⟨"FILTER (?x != ns:e)", "FILTER (!isLiteral(?x))", by decide, by decide, by decide, by decide, by decide⟩
  let l : Layout n :=
    ⟨["PREFIX ns: <http://rdf.freebase.com/ns/>"], some filters,
      [⟨"?x", "r", "?y", by decide, by decide, by decide, by decide⟩],
      [⟨"?y", "s", "ns:e", by decide, by decide, by decide, by decide⟩],
      .superlative ⟨"y", "t", by decide, by decide⟩ true, by decide, by decide, by decide⟩
  have hClear : l.Clear := ⟨by decide, by decide, by decide⟩
  exact ⟨n, l, rfl, rfl, hClear, l.ofText_text.1 hClear⟩

/-- Two layouts that are refused: one has a filter on strings in its pair of filters, in the other two triples
bind the variable that orders the answers. -/
theorem ofText_text_refused :
    (∃ (n : Naming) (l : Layout n), n.dialect = {} ∧
      l.text = Text.unlines ["SELECT DISTINCT ?x", "WHERE \x7b", "FILTER (str(?x) != \"a\")",
        "FILTER (!isLiteral(?x))", "?x ns:rel.a ns:ent.1 .", "\x7d"] ∧
      Reduced.ofText {} l.text = .error .stringFilter) ∧
    ∃ (n : Naming) (l : Layout n), n.dialect = {} ∧
      l.text = Text.unlines ["SELECT DISTINCT ?x", "WHERE \x7b", "?x ns:r ?sk0 .", "?x ns:s ?sk0 .", "\x7d",
        "ORDER BY xsd:datetime(?sk0)", "LIMIT 1"] ∧
      ∃ count, 2 ≤ count ∧ Reduced.ofText {} l.text = .error (.ambiguous count) := by
  let n : Naming := ⟨"?x", "ns:", by decide, by decide, by decide⟩
  constructor
  · let filters : Filters :=
      ⟨"FILTER (str(?x) != \"a\")", "FILTER (!isLiteral(?x))", by decide, by decide, by decide, by decide, by decide⟩
    let l : Layout n :=
      ⟨[], some filters, [⟨"?x", "rel.a", "ns:ent.1", by decide, by decide, by decide, by decide⟩], [], .plain,
        by decide, by decide, by decide⟩
    exact ⟨n, l, rfl, by decide, l.ofText_text_eq_stringFilter (by decide)⟩
  · let l : Layout n :=
      ⟨[], none, [], [⟨"?x", "s", "?sk0", by decide, by decide, by decide, by decide⟩],
        .superlative ⟨"x", "r", by decide, by decide⟩ false, by decide, by decide, by decide⟩
    have hAgain : ∃ p ∈ l.patterns, p.object = "?sk0" := ⟨_, List.mem_singleton.mpr rfl, rfl⟩
    exact ⟨n, l, rfl, by decide, l.exists_ofText_text_eq_ambiguous rfl hAgain (by decide)⟩

end Layout

end LogicalForm
