import LogicalForm.Command.Run
import LogicalForm.Proofs.Lines
import LogicalForm.Proofs.Names
import LogicalForm.Proofs.Tally
import Mathlib.Data.Prod.Lex
import Mathlib.Data.String.Basic

/-!
# The listing of time macros

A collection of queries is listed by its time macros, in ascending order and each with the number of queries that have
it. The queries are counted one after another, and the tally keeps the order. Nothing in a macro is blank, since its
parts come from words; so a row is one line, and its tabs divide its four fields.
-/

namespace LogicalForm
set_option autoImplicit false

theorem Range.isUnbroken_lastSegment {relation : String} (h : Text.IsUnbroken relation) :
    Text.IsUnbroken (lastSegment relation) := by
  rw [lastSegment]
  cases hLast : (Text.segments relation).getLast? with
  | none => exact h
  | some segment =>
    obtain ⟨piece, hPiece, rfl⟩ := List.mem_map.mp (List.mem_of_getLast? hLast)
    rw [Option.getD_some, Text.IsUnbroken, String.toList_ofList]
    exact fun c hc => h c (Text.mem_of_mem_pieces hPiece hc)

namespace Range.TimeMacro

variable {d : Dialect}

section Order

/-- What time macros are ordered by: the domain, then the start suffix, then the end suffix. -/
def key (m : TimeMacro) : String ×ₗ String ×ₗ String := toLex (m.domain, toLex (m.startSuffix, m.endSuffix))

theorem before_iff_key (m n : TimeMacro) : ranking.before m n = true ↔ m.key < n.key := by
  simp only [ranking, Ranking.byKey, Ranking.pair, Ranking.text, parts, key, Bool.or_eq_true, Bool.and_eq_true,
    decide_eq_true_eq, Prod.Lex.toLex_lt_toLex]

end Order

section Counting

theorem ofText?_eq_some_iff {text : String} {m : TimeMacro} :
    ofText? d text = some m ↔ timeMacro? d text = .ok (some m) := by
  rw [ofText?]
  cases timeMacro? d text <;> simp

variable (d) (texts : List String)

theorem counts_tally : (tally d texts).Counts (texts.filterMap (ofText? d)) := Tally.Counts.empty.foldl_note _ texts

theorem pairwise_counts : ((counts d texts).map fun entry => entry.1.key).Pairwise (· < ·) :=
  (tally d texts).ordered.map _ fun entry later => (before_iff_key entry.1 later.1).mp

theorem mem_counts {m : TimeMacro} {count : Nat} :
    (m, count) ∈ counts d texts ↔ count = texts.countP (fun text => ofText? d text == some m) ∧ 1 ≤ count := by
  rw [counts, (counts_tally d texts).mem_entries, List.count_filterMap]

theorem sum_counts : ((counts d texts).map Prod.snd).sum = texts.countP fun text => (ofText? d text).isSome := by
  rw [counts, (counts_tally d texts).sum, List.length_filterMap_eq_countP]

theorem counts_perm {texts texts' : List String} (h : texts.Perm texts') : counts d texts = counts d texts' :=
  (counts_tally d texts).entries_eq_of_perm (counts_tally d texts') (h.filterMap _)

end Counting

section Fields

/-- A time macro without blanks. -/
structure Unbroken (m : TimeMacro) : Prop where
  domain : Text.IsUnbroken m.domain
  startSuffix : Text.IsUnbroken m.startSuffix
  endSuffix : Text.IsUnbroken m.endSuffix

/-- The parts of a time macro come from words of its guards. -/
theorem unbroken_of_timeMacro? {text : String} {m : TimeMacro} (h : timeMacro? d text = .ok (some m)) :
    m.Unbroken := by
  obtain ⟨block, _, h⟩ := bind_eq_ok.mp h
  split at h
  · obtain ⟨found, hFound, hSome⟩ := map_eq_ok.mp (mapError_eq_ok.mp h)
    cases hSome
    rw [timeMacro] at hFound
    split at hFound
    · cases hFound
    · obtain ⟨bounds, hBounds, hMacro⟩ := bind_eq_ok.mp hFound
      cases hMacro
      obtain ⟨first, second, hFirst, hSecond, hStart, hStop, hDomain, _⟩ := readBounds_eq_ok_iff.mp hBounds
      have hStart : Text.IsUnbroken bounds.start := hStart ▸ d.isUnbroken_localName hFirst.isUnbroken
      have hStop : Text.IsUnbroken bounds.stop := hStop ▸ d.isUnbroken_localName hSecond.isUnbroken
      exact ⟨hDomain.isUnbroken_domain hStart, isUnbroken_lastSegment hStart, isUnbroken_lastSegment hStop⟩
  · cases h

/-- A line of the listing without its line feed. -/
def row (m : TimeMacro) (count : Nat) : String :=
  m.domain ++ "\t" ++ m.startSuffix ++ "\t" ++ m.endSuffix ++ "\t" ++ toString count

theorem listing_eq (d : Dialect) (texts : List String) :
    listing d texts = Text.unlines ((counts d texts).map fun entry => row entry.1 entry.2) := by
  rw [listing, Text.unlines, List.map_map]
  rfl

theorem Unbroken.whole_row {m : TimeMacro} (h : m.Unbroken) (count : Nat) :
    '\n' ∉ (row m count).toList ∧ (row m count).toList.getLast? ≠ some '\r' := by
  have hNone : ∀ {c : Char}, Text.isBlank c = true → c ≠ '\t' → c ∉ (row m count).toList := by
    intro c hBlank hTab hMem
    simp only [row, String.toList_append, List.mem_append, h.domain.notMem hBlank, h.startSuffix.notMem hBlank,
      h.endSuffix.notMem hBlank, (Text.isUnbroken_toString count).notMem hBlank, or_false, false_or, or_self] at hMem
    exact hTab (List.mem_singleton.mp hMem)
  exact ⟨hNone (by decide) (by decide), fun hLast => hNone (by decide) (by decide) (List.mem_of_getLast? hLast)⟩

theorem Unbroken.fields_row {m : TimeMacro} (h : m.Unbroken) (count : Nat) :
    Text.fields (row m count) = [m.domain, m.startSuffix, m.endSuffix, toString count] := by
  have hRow : row m count =
      m.domain ++ "\t" ++ (m.startSuffix ++ "\t" ++ (m.endSuffix ++ "\t" ++ toString count)) := by
    simp only [row, String.append_assoc]
  rw [hRow, Text.fields_append_tab (h.domain.notMem (by decide)),
    Text.fields_append_tab (h.startSuffix.notMem (by decide)), Text.fields_append_tab (h.endSuffix.notMem (by decide)),
    Text.fields_of_noTab ((Text.isUnbroken_toString count).notMem (by decide))]

theorem unbroken_of_mem_counts {texts : List String} {entry : TimeMacro × Nat} (h : entry ∈ counts d texts) :
    entry.1.Unbroken := by
  obtain ⟨hCount, hSome⟩ := (mem_counts d texts).mp h
  obtain ⟨text, _, hText⟩ := List.countP_pos_iff.mp (hCount ▸ hSome)
  exact unbroken_of_timeMacro? (ofText?_eq_some_iff.mp (beq_iff_eq.mp hText))

theorem lines_listing (d : Dialect) (texts : List String) :
    Text.lines (listing d texts) = (counts d texts).map fun entry => row entry.1 entry.2 := by
  rw [listing_eq]
  apply Text.lines_unlines
  intro line hLine
  obtain ⟨entry, hEntry, rfl⟩ := List.mem_map.mp hLine
  exact (unbroken_of_mem_counts hEntry).whole_row entry.2

end Fields

/-- The listing counts exactly. Whatever input has the records, what is printed is one line for each time macro that
some record has, in strictly ascending order, with the number of records that have it; so the numbers add up to the
number of records with a time macro, and the order of the records does not matter. A time macro has no blanks in it,
whatever text it comes from, and therefore the line has exactly the four fields that were written. -/
theorem listing_counts (d : Dialect) (records : List Record) :
    let texts := records.map (·.query.text)
    (∀ codec source input, Command.records codec source input = .ok records →
      (Command.templates source).effect codec d input = .ok (.print (listing d texts))) ∧
    ((counts d texts).map fun entry => entry.1.key).Pairwise (· < ·) ∧
    (∀ m count, (m, count) ∈ counts d texts ↔
      count = records.countP (fun r => timeMacro? d r.query.text = .ok (some m)) ∧ 1 ≤ count) ∧
    ((counts d texts).map Prod.snd).sum = records.countP (fun r => (ofText? d r.query.text).isSome) ∧
    (∀ records' : List Record, records.Perm records' → listing d (records'.map (·.query.text)) = listing d texts) ∧
    Text.lines (listing d texts) = (counts d texts).map (fun entry => row entry.1 entry.2) ∧
    (∀ m count, (m, count) ∈ counts d texts →
      Text.fields (row m count) = [m.domain, m.startSuffix, m.endSuffix, toString count]) ∧
    ∀ text m, timeMacro? d text = .ok (some m) → m.Unbroken := by
  intro texts
  refine ⟨?_, pairwise_counts d texts, ?_, ?_, ?_, lines_listing d texts, ?_, fun text m => unbroken_of_timeMacro?⟩
  · intro codec source input hRecords
    rw [Command.effect, hRecords]
    rfl
  · intro m count
    have hCount : texts.countP (fun text => ofText? d text == some m) =
        records.countP fun r => timeMacro? d r.query.text = .ok (some m) := by
      rw [List.countP_map]
      apply List.countP_congr
      intro r _
      rw [Function.comp_apply, beq_iff_eq, ofText?_eq_some_iff, decide_eq_true_eq]
    rw [mem_counts, hCount]
  · rw [sum_counts, List.countP_map]
    rfl
  · intro records' hPerm
    rw [listing, listing, counts_perm d (hPerm.map _)]
  · intro m count hEntry
    exact (unbroken_of_mem_counts hEntry).fields_row count

/-- Two ranges with one time macro and a query that has none, in two orders, and an input with the last one alone. -/
theorem listing_counts_twice :
    let range := Text.unlines ["SELECT DISTINCT ?x", "WHERE \x7b", "?x ns:r ?y .",
      "FILTER(NOT EXISTS \x7b?y ns:a.b.from\x7d ||", "EXISTS \x7b", "\"2009\"",
      "FILTER(NOT EXISTS \x7b?y ns:a.b.to\x7d ||", "EXISTS \x7b", "\"2009\"", "\x7d"]
    (⟨"a.b", "from", "to"⟩, 2) ∈ counts {} [range, "", range] ∧
      Text.fields (row ⟨"a.b", "from", "to"⟩ 2) = ["a.b", "from", "to", "2"] ∧
      listing {} ["", range, range] = listing {} [range, "", range] ∧
      Command.effect Record.json {} (.templates none) (.ok "[\"3\",\"\"]\n".toUTF8) =
        .ok (.print (listing {} [""])) := by
  intro range
  let first : Record := ⟨"1", ⟨range, none⟩⟩
  let second : Record := ⟨"2", ⟨range, none⟩⟩
  let third : Record := ⟨"3", ⟨"", none⟩⟩
  have hBlock : Block.ofText {} range = .ok ⟨["?x ns:r ?y .",
      "FILTER(NOT EXISTS \x7b?y ns:a.b.from\x7d ||", "EXISTS \x7b", "\"2009\"",
      "FILTER(NOT EXISTS \x7b?y ns:a.b.to\x7d ||", "EXISTS \x7b", "\"2009\""], .brace⟩ :=
    Block.ofText_eq_ok_iff.mpr ⟨Block.ofTemplate_eq_ok_iff.mpr ⟨[], _, Reduced.isHead_select,
      (Text.contentLines_unlines (by decide)).trans rfl⟩, by decide⟩
  have hMacro : timeMacro? {} range = .ok (some ⟨"a.b", "from", "to"⟩) := by
    rw [timeMacro?, hBlock]
    decide +kernel
  have hNone : timeMacro? {} "" = .error (.structural .emptyQuery) := rfl
  obtain ⟨_, _, hCounts, _, hPerm, _, hFields, _⟩ := listing_counts {} [first, third, second]
  have hEntry : (⟨"a.b", "from", "to"⟩, 2) ∈ counts {} [range, "", range] := by
    refine (hCounts _ 2).mpr ⟨?_, by decide⟩
    simp [first, second, third, hMacro, hNone]
  exact ⟨hEntry, hFields _ 2 hEntry, hPerm [third, first, second] (.swap third first [second]),
    (listing_counts {} [third]).1 Record.json none _ (by decide +kernel)⟩

end Range.TimeMacro

end LogicalForm
