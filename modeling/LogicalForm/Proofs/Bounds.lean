import LogicalForm.Proofs.Outcome
import LogicalForm.Proofs.Text
import LogicalForm.Query.Range

/-!
# Which lines bound a year

What the readers of a time bound ask of its lines, said as a way to write them. Of the three lines of a
bound two are read, and of these only a part: the start of a guard and the two words after its brace, and
the first four characters in quotes.
-/

namespace LogicalForm
set_option autoImplicit false

theorem Dialect.isVar_term_iff {d : Dialect} {word : String} :
    (d.term word).isVar = true ↔ Text.startsWith "?" word = true := by
  rw [term, Term.read]
  cases hWord : Text.after? "?" word with
  | some name =>
    rw [Text.after?_eq_some_iff.mp hWord]
    exact iff_of_true rfl (Text.startsWith_append "?" name)
  | none =>
    rw [Text.after?_eq_none_iff.mp hWord]
    cases Text.after? d.namespaceMark word <;> simp [Term.isVar]

namespace Range

/-- How a guard starts, up to its brace. -/
def openMark : String := "FILTER(NOT EXISTS \x7b"

/-- The line starts as a guard does, and the text up to its first closing brace starts with the two words. -/
def Guards (line pivot relation : String) : Prop :=
  ∃ pattern rest more, line = openMark ++ (pattern ++ "\x7d" ++ rest) ∧ '\x7d' ∉ pattern.toList ∧
    Text.startsWith "?" pattern = true ∧ Text.words pattern = pivot :: relation :: more

/-- The relation has at least three segments, and the domain is the first two. -/
def Segmented (relation domain : String) : Prop :=
  ∃ first second rest, relation = first ++ "." ++ (second ++ "." ++ rest) ∧ '.' ∉ first.toList ∧
    '.' ∉ second.toList ∧ domain = first ++ "." ++ second

/-- The first text in quotes on the line starts with the four digits. -/
def Dates (line digits : String) : Prop :=
  ∃ before rest after, line = before ++ "\"" ++ (digits ++ rest ++ "\"" ++ after) ∧ '"' ∉ before.toList ∧
    '"' ∉ (digits ++ rest).toList ∧ digits.toList.length = 4 ∧ digits.toList.all Char.isDigit = true

/-- The two bounds hold one variable to one year by relations of one domain. -/
def Bounded (d : Dialect) (start stop : Bound) (pivot : Term) (relation year : String) : Prop :=
  ∃ word first second domain digits,
    Guards start.guardLine word first ∧ Guards stop.guardLine word second ∧
    Segmented (d.localName first) domain ∧ Segmented (d.localName second) domain ∧
    Dates start.dateLine digits ∧ Dates stop.dateLine digits ∧
    pivot = d.term word ∧ relation = domain ++ "." ++ d.timeMacroSuffix ∧ year = digits ++ "^^" ++ d.dateDatatype

section Guard

variable {line pivot relation : String}

theorem guardMark_eq : Block.guardMark = openMark ++ "?" := rfl

theorem braced?_eq_some_iff {rest pattern : String} :
    braced? (openMark ++ rest) = some pattern ↔
      ∃ after, rest = pattern ++ "\x7d" ++ after ∧ '\x7d' ∉ pattern.toList := by
  have hMark : openMark = "FILTER(NOT EXISTS " ++ "\x7b" := by decide
  have hOpen : Text.cutAt? '\x7b' (openMark ++ rest) = some ("FILTER(NOT EXISTS ", rest) := by
    rw [Text.cutAt?_eq_some_iff_append '\x7b' "\x7b" rfl, hMark]
    exact ⟨rfl, by decide⟩
  simp only [braced?, hOpen, Option.bind_some, Option.map_eq_some_iff, Prod.exists, exists_and_right,
    exists_eq_right, Text.cutAt?_eq_some_iff_append '\x7d' "\x7d" rfl]

theorem startsWith_guardMark_iff {pattern rest : String} :
    Text.startsWith Block.guardMark (openMark ++ (pattern ++ "\x7d" ++ rest)) = true ↔
      Text.startsWith "?" pattern = true := by
  have hOne : ("?" : String).toList = ['?'] := rfl
  rw [Text.startsWith_iff_head? '?' hOne, guardMark_eq, Text.startsWith, List.isPrefixOf_iff_prefix,
    String.toList_append, String.toList_append, List.prefix_append_right_inj, hOne, String.toList_append,
    String.toList_append]
  cases hList : pattern.toList with
  | nil => simp
  | cons c cs => simp [eq_comm]

theorem guard_ofLine_eq_ok_iff :
    Guard.ofLine line = .ok ⟨pivot, relation⟩ ↔ Guards line pivot relation := by
  simp only [Guard.ofLine, ite_error_eq_ok, Bool.not_eq_true', Bool.not_eq_false]
  constructor
  · rintro ⟨hStart, h⟩
    obtain ⟨tail, rfl⟩ : ∃ tail, line = openMark ++ tail := by
      obtain ⟨tail, rfl⟩ := Text.startsWith_eq_true_iff.mp hStart
      refine ⟨"?" ++ tail, ?_⟩
      rw [guardMark_eq, String.append_assoc]
    split at h
    · cases h
    · rename_i pattern hBraced
      obtain ⟨rest, rfl, hPattern⟩ := braced?_eq_some_iff.mp hBraced
      split at h
      · rename_i pivot' relation' more hWords
        cases h
        exact ⟨pattern, rest, more, rfl, hPattern, startsWith_guardMark_iff.mp hStart, hWords⟩
      · cases h
  · rintro ⟨pattern, rest, more, rfl, hPattern, hStart, hWords⟩
    refine ⟨startsWith_guardMark_iff.mpr hStart, ?_⟩
    rw [braced?_eq_some_iff.mpr ⟨rest, rfl, hPattern⟩]
    simp only [hWords]

theorem Guards.startsWith_guardMark (h : Guards line pivot relation) :
    Text.startsWith Block.guardMark line = true := by
  obtain ⟨pattern, rest, more, rfl, _, hStart, _⟩ := h
  exact startsWith_guardMark_iff.mpr hStart

/-- A guard is always about a variable. -/
theorem Guards.isVar (h : Guards line pivot relation) (d : Dialect) : (d.term pivot).isVar = true := by
  obtain ⟨pattern, rest, more, _, _, hStart, hWords⟩ := h
  have hHead := Text.head?_of_words_eq_cons rfl ((Text.startsWith_iff_head? '?' rfl).mp hStart) hWords
  exact Dialect.isVar_term_iff.mpr ((Text.startsWith_iff_head? '?' rfl).mpr hHead)

end Guard

theorem domain_eq_ok_iff {relation found : String} : domain relation = .ok found ↔ Segmented relation found := by
  have hDot : ∀ {cs : List Char}, (∀ c ∈ cs, (c == '.') = false) ↔ '.' ∉ cs := by
    simp [List.forall_mem_ne']
  rw [domain]
  constructor
  · intro h
    split at h
    · rename_i first second third more hSegments
      cases h
      obtain ⟨p, _, hPieces, rfl, hRest⟩ := List.map_eq_cons_iff.mp hSegments
      obtain ⟨q, _, rfl, rfl, hMore⟩ := List.map_eq_cons_iff.mp hRest
      obtain ⟨r, ps, rfl, _, _⟩ := List.map_eq_cons_iff.mp hMore
      obtain ⟨a, back, hAll, ha, hp, hBack⟩ := Text.pieces_eq_cons_cons_iff.mp hPieces
      obtain ⟨b, rest, rfl, hb, hq, _⟩ := Text.pieces_eq_cons_cons_iff.mp hBack
      obtain rfl := eq_of_beq ha
      obtain rfl := eq_of_beq hb
      refine ⟨String.ofList p, String.ofList q, String.ofList rest, ?_, ?_, ?_, rfl⟩
      · simp [← String.toList_inj, hAll]
      · simpa using hDot.mp hp
      · simpa using hDot.mp hq
    · cases h
  · rintro ⟨first, second, rest, rfl, hFirst, hSecond, rfl⟩
    obtain ⟨third, more, hPieces⟩ := List.exists_cons_of_ne_nil (Text.pieces_ne_nil (· == '.') rest.toList)
    have hSegments : Text.segments (first ++ "." ++ (second ++ "." ++ rest)) =
        first :: second :: String.ofList third :: more.map String.ofList := by
      have hAll : (first ++ "." ++ (second ++ "." ++ rest)).toList =
          first.toList ++ '.' :: (second.toList ++ '.' :: rest.toList) := by simp
      rw [Text.segments, hAll, Text.pieces_append_cons _ (hDot.mpr hFirst) rfl,
        Text.pieces_append_cons _ (hDot.mpr hSecond) rfl, hPieces]
      simp
    rw [hSegments]

theorem quoted_eq_ok_iff {line date : String} :
    quoted line = .ok date ↔ ∃ before after, line = before ++ "\"" ++ (date ++ "\"" ++ after) ∧
      '"' ∉ before.toList ∧ '"' ∉ date.toList := by
  rw [quoted]
  constructor
  · intro h
    split at h
    · rename_i after hCuts
      cases h
      obtain ⟨⟨before, rest⟩, hFirst, hSecond⟩ := Option.bind_eq_some_iff.mp hCuts
      obtain ⟨rfl, hBefore⟩ := (Text.cutAt?_eq_some_iff_append '"' "\"" rfl).mp hFirst
      obtain ⟨rfl, hDate⟩ := (Text.cutAt?_eq_some_iff_append '"' "\"" rfl).mp hSecond
      exact ⟨before, after, rfl, hBefore, hDate⟩
    · cases h
  · rintro ⟨before, after, rfl, hBefore, hDate⟩
    rw [(Text.cutAt?_eq_some_iff_append '"' "\"" rfl).mpr ⟨rfl, hBefore⟩, Option.bind_some,
      (Text.cutAt?_eq_some_iff_append '"' "\"" rfl).mpr ⟨rfl, hDate⟩]

theorem year_eq_ok_iff {date digits : String} :
    year date = .ok digits ↔ ∃ rest, date = digits ++ rest ∧ digits.toList.length = 4 ∧
      digits.toList.all Char.isDigit = true := by
  rw [year]
  constructor
  · intro h
    split at h
    · rename_i hDigits
      cases h
      refine ⟨String.ofList (date.toList.drop 4), ?_, ?_⟩
      · rw [← String.ofList_append, List.take_append_drop, String.ofList_toList]
      · rw [String.toList_ofList]
        exact hDigits
    · cases h
  · rintro ⟨rest, rfl, hLength, hAll⟩
    have hTake : (digits ++ rest).toList.take 4 = digits.toList := by
      rw [String.toList_append, ← hLength, List.take_left]
    simp only [hTake, hLength, hAll, and_self, if_true, String.ofList_toList]

theorem bound_year_eq_ok_iff {bound : Bound} {digits : String} :
    bound.year = .ok digits ↔ Dates bound.dateLine digits := by
  have hBind : bound.year = .ok digits ↔ ∃ date, quoted bound.dateLine = .ok date ∧ year date = .ok digits :=
    bind_eq_ok
  simp only [hBind, quoted_eq_ok_iff, year_eq_ok_iff]
  constructor
  · rintro ⟨_, ⟨before, after, hLine, hBefore, hDate⟩, rest, rfl, hDigits⟩
    exact ⟨before, rest, after, hLine, hBefore, hDate, hDigits⟩
  · rintro ⟨before, rest, after, hLine, hBefore, hDate, hDigits⟩
    exact ⟨digits ++ rest, ⟨before, after, hLine, hBefore, hDate⟩, rest, rfl, hDigits⟩

theorem commonYear_eq_ok_iff {start stop : Bound} {digits : String} :
    commonYear start stop = .ok digits ↔ Dates start.dateLine digits ∧ Dates stop.dateLine digits := by
  simp only [commonYear, bind_eq_ok, ite_error_eq_ok, ne_eq, not_not, Except.ok.injEq, bound_year_eq_ok_iff]
  constructor
  · rintro ⟨first, hStart, second, hStop, rfl, rfl⟩
    exact ⟨hStart, hStop⟩
  · rintro ⟨hStart, hStop⟩
    exact ⟨digits, hStart, digits, hStop, rfl, rfl⟩

theorem readBounds_eq_ok_iff {d : Dialect} {start stop : Bound} {bounds : Bounds} :
    readBounds d start stop = .ok bounds ↔ ∃ first second,
      Guards start.guardLine bounds.pivot first ∧ Guards stop.guardLine bounds.pivot second ∧
      bounds.start = d.localName first ∧ bounds.stop = d.localName second ∧
      Segmented bounds.start bounds.domain ∧ Segmented bounds.stop bounds.domain := by
  simp only [readBounds, bind_eq_ok, ite_error_eq_ok, ne_eq, not_not, Except.ok.injEq, domain_eq_ok_iff]
  constructor
  · rintro ⟨⟨pivot, first⟩, hStart, ⟨pivot', second⟩, hStop, rfl, domain, hFirst, domain', hSecond, rfl, rfl⟩
    exact ⟨first, second, guard_ofLine_eq_ok_iff.mp hStart, guard_ofLine_eq_ok_iff.mp hStop, rfl, rfl, hFirst,
      hSecond⟩
  · obtain ⟨pivot, start, stop, domain⟩ := bounds
    rintro ⟨first, second, hStart, hStop, rfl, rfl, hFirst, hSecond⟩
    exact ⟨_, guard_ofLine_eq_ok_iff.mpr hStart, _, guard_ofLine_eq_ok_iff.mpr hStop, rfl, domain, hFirst,
      domain, hSecond, rfl, rfl⟩

theorem bounds?_eq_some_iff {lines body : List String} {start stop : Bound} :
    bounds? lines = some (body, start, stop) ↔ ∃ first second, lines =
      body ++ [start.guardLine, first, start.dateLine, stop.guardLine, second, stop.dateLine] := by
  constructor
  · intro h
    rw [bounds?] at h
    split at h
    · rename_i stopDate second stopGuard startDate first startGuard before hLines
      cases h
      refine ⟨first, second, ?_⟩
      have hReverse := congrArg List.reverse hLines
      simpa using hReverse
    · cases h
  · rintro ⟨first, second, rfl⟩
    simp [bounds?]

theorem condition_eq_ok_iff {d : Dialect} {bounds : Bounds} {year : String} {found : Condition} :
    condition d bounds year = .ok found ↔ (d.term bounds.pivot).isVar = true ∧
      found = .range (d.term bounds.pivot) (bounds.domain ++ "." ++ d.timeMacroSuffix)
        (year ++ "^^" ++ d.dateDatatype) := by
  simp only [condition, ite_error_eq_ok, Bool.not_eq_true', Bool.not_eq_false, Except.ok.injEq]
  exact and_congr_right fun _ => eq_comm

theorem reduce_eq_ok_iff {d : Dialect} {lines : List String} {reduced : Reduced} :
    reduce d lines = .ok reduced ↔ ∃ start stop first second pivot relation year,
      lines = reduced.body ++
        [start.guardLine, first, start.dateLine, stop.guardLine, second, stop.dateLine] ∧
      reduced.condition = .range pivot relation year ∧ Bounded d start stop pivot relation year := by
  constructor
  · intro h
    rw [reduce] at h
    split at h
    · cases h
    · rename_i body start stop hLines
      obtain ⟨first, second, rfl⟩ := bounds?_eq_some_iff.mp hLines
      obtain ⟨bounds, hBounds, h⟩ := bind_eq_ok.mp h
      obtain ⟨digits, hDigits, h⟩ := bind_eq_ok.mp h
      obtain ⟨found, hFound, h⟩ := bind_eq_ok.mp h
      cases h
      obtain ⟨r, r', hStart, hStop, hr, hr', hDomain, hDomain'⟩ := readBounds_eq_ok_iff.mp hBounds
      obtain ⟨_, rfl⟩ := condition_eq_ok_iff.mp hFound
      obtain ⟨hFirst, hSecond⟩ := commonYear_eq_ok_iff.mp hDigits
      exact ⟨start, stop, first, second, _, _, _, rfl, rfl, bounds.pivot, r, r', bounds.domain, digits, hStart,
        hStop, hr ▸ hDomain, hr' ▸ hDomain', hFirst, hSecond, rfl, rfl, rfl⟩
  · rintro ⟨start, stop, first, second, pivot, relation, year, rfl, hCondition, word, r, r', domain, digits,
      hStart, hStop, hDomain, hDomain', hFirst, hSecond, rfl, rfl, rfl⟩
    have hBounds : readBounds d start stop = .ok ⟨word, d.localName r, d.localName r', domain⟩ :=
      readBounds_eq_ok_iff.mpr ⟨r, r', hStart, hStop, rfl, rfl, hDomain, hDomain'⟩
    have hYear := commonYear_eq_ok_iff.mpr ⟨hFirst, hSecond⟩
    rw [reduce, bounds?_eq_some_iff.mpr ⟨first, second, rfl⟩]
    refine bind_eq_ok.mpr ⟨_, hBounds, bind_eq_ok.mpr ⟨_, hYear, bind_eq_ok.mpr ⟨_,
      condition_eq_ok_iff.mpr ⟨hStart.isVar d, rfl⟩, ?_⟩⟩⟩
    rw [← hCondition]

end Range

end LogicalForm
