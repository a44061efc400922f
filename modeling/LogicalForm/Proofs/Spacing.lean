import LogicalForm.Proofs.Conversion
import LogicalForm.Proofs.TripleLine

/-!
# Where blanks and line ends do not matter

A text lays out certain lines if it is these lines with blanks around them and a line feed between any two. The
lines can be read off the text, so it lays out no others; and whoever reads the words of the text instead finds the
words of these lines. A conversion asks nothing else of its text, so two texts that lay out the same lines have the
same conversion, down to the entity that a rejection names.
-/

namespace LogicalForm
set_option autoImplicit false

namespace Text

/-- The text holds the lines in order, each with blanks around it and separated from the next one by a line feed.
The blanks may be line ends themselves. -/
inductive Lays : List String → String → Prop
  | blank {run : String} (hRun : IsBlankRun run) : Lays [] run
  | last {lead line trail : String} (hLead : IsBlankRun lead) (hLine : IsLine line) (hTrail : IsBlankRun trail) :
      Lays [line] (lead ++ (line ++ trail))
  | next {lead line trail rest : String} {lines : List String} (hLead : IsBlankRun lead) (hLine : IsLine line)
      (hTrail : IsBlankRun trail) (hRest : Lays lines rest) :
      Lays (line :: lines) (lead ++ (line ++ trail) ++ "\n" ++ rest)

/-- The same lines once the blanks around them and the empty ones are left out. -/
def SameLines (s s' : String) : Prop :=
  ((lines s).map trim).filter (· ≠ "") = ((lines s').map trim).filter (· ≠ "")

instance (s s' : String) : Decidable (SameLines s s') := inferInstanceAs (Decidable (_ = _))

variable {s lead line trail run : String} {ls : List String}

theorem isBlankRun_append : IsBlankRun (lead ++ trail) ↔ IsBlankRun lead ∧ IsBlankRun trail := by
  rw [IsBlankRun, String.toList_append, List.forall_mem_append, IsBlankRun, IsBlankRun]

theorem IsBlankRun.append (hLead : IsBlankRun lead) (hTrail : IsBlankRun trail) : IsBlankRun (lead ++ trail) :=
  isBlankRun_append.mpr ⟨hLead, hTrail⟩

theorem IsBlankRun.append_newline (h : IsBlankRun run) : IsBlankRun (run ++ "\n") :=
  h.append (by decide)

section Stripping

theorem strip_cons_of_blank {c : Char} (hc : isBlank c = true) (cs : List Char) : strip (c :: cs) = strip cs := by
  rw [strip, List.dropWhile_cons_of_pos hc, strip]

theorem strip_append_of_blank {c : Char} (hc : isBlank c = true) (cs : List Char) : strip (cs ++ [c]) = strip cs := by
  rw [strip, strip, List.dropWhile_append]
  split
  · rename_i hEmpty
    rw [List.isEmpty_iff.mp hEmpty, List.dropWhile_cons_of_pos hc, List.dropWhile_nil]
  · rw [List.reverse_append, List.reverse_singleton, List.singleton_append, List.dropWhile_cons_of_pos hc]

/-- The return that a line loses with its line feed is a blank. -/
theorem strip_dropLastMark (cs : List Char) : strip (dropLastMark '\r' cs) = strip cs := by
  rw [dropLastMark]
  split
  · rename_i hLast
    obtain ⟨front, rfl⟩ := List.getLast?_eq_some_iff.mp (beq_iff_eq.mp hLast)
    rw [List.dropLast_concat, strip_append_of_blank (by decide)]
  · rfl

theorem isBlank_eq_false_of_mem_head? {cs : List Char} {c : Char} (h : c ∈ (cs.dropWhile isBlank).head?) :
    isBlank c = false := by
  have hFirst := List.head?_dropWhile_not isBlank cs
  rw [Option.mem_def.mp h] at hFirst
  exact hFirst

theorem isLine_trim (hWhole : '\n' ∉ s.toList) (hSome : trim s ≠ "") : IsLine (trim s) := by
  have hList : (trim s).toList = strip s.toList := by rw [trim, String.toList_ofList]
  have hNe : strip s.toList ≠ [] := fun hNil => hSome (String.toList_eq_nil_iff.mp (hList.trans hNil))
  -- Stripping the end keeps a front part of what is left after stripping the start.
  have hFront : strip s.toList <+: s.toList.dropWhile isBlank := by
    rw [← List.reverse_suffix, strip, List.reverse_reverse]
    exact List.dropWhile_suffix isBlank
  refine ⟨?_, ?_, ?_⟩
  · rw [hList]
    exact fun hMem => hWhole ((List.dropWhile_suffix isBlank).subset (hFront.subset hMem))
  · obtain ⟨c, cs, hCons⟩ := List.exists_cons_of_ne_nil hNe
    obtain ⟨back, hBack⟩ := hFront
    have hHead : c ∈ (s.toList.dropWhile isBlank).head? := by
      rw [← hBack, hCons]
      rfl
    rw [hList, hCons]
    simp [isBlank_eq_false_of_mem_head? hHead]
  · rw [hList, strip, List.getLast?_reverse]
    cases hHead : ((s.toList.dropWhile isBlank).reverse.dropWhile isBlank).head? with
    | none =>
      rw [strip, List.head?_eq_none_iff.mp hHead] at hNe
      exact absurd rfl hNe
    | some c => simp [isBlank_eq_false_of_mem_head? hHead]

end Stripping

section Reading

theorem contentLines_append_newline (s rest : String) :
    contentLines (s ++ "\n" ++ rest) = contentLines s ++ contentLines rest := by
  have hList : (s ++ "\n" ++ rest).toList = s.toList ++ '\n' :: rest.toList := by
    rw [String.toList_append, String.toList_append, List.append_assoc]
    rfl
  have hPieces : pieces (· == '\n') (s.toList ++ '\n' :: rest.toList) =
      pieces (· == '\n') s.toList ++ pieces (· == '\n') rest.toList :=
    pieces_append_sep _ _ (beq_self_eq_true '\n')
  rw [contentLines, hList, hPieces, List.map_append, List.filter_append, List.map_append, contentLines, contentLines]

theorem contentLines_of_whole (hWhole : '\n' ∉ s.toList) : contentLines s = [trim s].filter (· ≠ "") := by
  rw [contentLines, pieces_eq_singleton (forall_beq_eq_false hWhole), map_ofList_filter_strip, List.map_singleton,
    List.map_singleton, String.ofList_toList]

theorem contentLines_run_append (hRun : IsBlankRun run) (s : String) : contentLines (run ++ s) = contentLines s := by
  have hList : ∀ cs : List Char, (∀ c ∈ cs, isBlank c = true) →
      ((pieces (· == '\n') (cs ++ s.toList)).map strip).filter (!·.isEmpty) =
        ((pieces (· == '\n') s.toList).map strip).filter (!·.isEmpty) := by
    intro cs hcs
    induction cs with
    | nil => rfl
    | cons c cs ih =>
      obtain ⟨hc, hcs⟩ := List.forall_mem_cons.mp hcs
      rw [← ih hcs, List.cons_append, pieces_cons]
      split
      · rw [List.map_cons, List.filter_cons_of_neg (by simp [strip])]
      · obtain ⟨piece, more, hPieces⟩ := List.exists_cons_of_ne_nil (pieces_ne_nil (· == '\n') (cs ++ s.toList))
        rw [hPieces, List.modifyHead_cons, List.map_cons, List.map_cons, strip_cons_of_blank hc]
  rw [contentLines, String.toList_append, hList _ hRun, contentLines]

theorem contentLines_eq_nil (hRun : IsBlankRun run) : contentLines run = [] := by
  have hEmpty := contentLines_run_append hRun ""
  rw [String.append_empty] at hEmpty
  exact hEmpty

theorem whole_or_exists_newline (s : String) :
    '\n' ∉ s.toList ∨ ∃ first rest, s = first ++ "\n" ++ rest ∧ '\n' ∉ first.toList := by
  by_cases hMem : '\n' ∈ s.toList
  · obtain ⟨front, back, hList, hFront⟩ := List.eq_append_cons_of_mem hMem
    refine Or.inr ⟨String.ofList front, String.ofList back, ?_, by rwa [String.toList_ofList]⟩
    rw [← String.toList_inj, hList]
    simp
  · exact Or.inl hMem

theorem contentLines_around (hLead : IsBlankRun lead) (hLine : IsLine line) (hTrail : IsBlankRun trail) :
    contentLines (lead ++ (line ++ trail)) = [line] := by
  -- Up to a line feed among the blanks that follow, the line is read in one piece.
  have hWhole : ∀ {blanks : String}, IsBlankRun blanks → '\n' ∉ blanks.toList →
      contentLines (line ++ blanks) = [line] := by
    intro blanks hBlanks hNone
    have hTrim : trim ("" ++ (line ++ blanks)) = line := trim_around (by decide) hBlanks hLine.starts hLine.ends
    have hAll : '\n' ∉ (line ++ blanks).toList := by
      rw [String.toList_append, List.mem_append, not_or]
      exact ⟨hLine.whole, hNone⟩
    rw [String.empty_append] at hTrim
    rw [contentLines_of_whole hAll, hTrim, List.filter_cons_of_pos (by simp [hLine.ne_empty]), List.filter_nil]
  rw [contentLines_run_append hLead]
  rcases whole_or_exists_newline trail with hNone | ⟨first, rest, rfl, hNone⟩
  · exact hWhole hTrail hNone
  · obtain ⟨hFirst, hRest⟩ := isBlankRun_append.mp hTrail
    have hFirst := (isBlankRun_append.mp hFirst).1
    rw [← String.append_assoc, ← String.append_assoc, contentLines_append_newline, hWhole hFirst hNone,
      contentLines_eq_nil hRest, List.append_nil]

/-- The reader of lines strips a return before a line feed, where the lines of a text leave it out, and it leaves out
what follows the last line feed also if that is not empty but blank. -/
theorem contentLines_eq_filter (s : String) : contentLines s = ((lines s).map trim).filter (· ≠ "") := by
  have hRuns := List.dropLast_concat_getLast (pieces_ne_nil (· == '\n') s.toList)
  have hReturns : ∀ runs : List (List Char), (runs.map (dropLastMark '\r')).map strip = runs.map strip := by
    intro runs
    rw [List.map_map]
    exact List.map_congr_left fun run _ => strip_dropLastMark run
  have hRest : ∀ run : List Char,
      (([run].filter (!·.isEmpty)).map strip).filter (!·.isEmpty) = ([run].map strip).filter (!·.isEmpty) := by
    intro run
    cases run with
    | nil => rfl
    | cons c cs => rfl
  rw [lines, lineRuns, ← map_ofList_filter_strip, List.map_append, hReturns, List.filter_append,
    List.getLast?_eq_some_getLast (pieces_ne_nil (· == '\n') s.toList), Option.toList_some, hRest, ← List.filter_append,
    ← List.map_append, hRuns, contentLines]

end Reading

namespace Lays

theorem contentLines_eq (h : Lays ls s) : contentLines s = ls := by
  induction h with
  | blank hRun => exact contentLines_eq_nil hRun
  | last hLead hLine hTrail => exact contentLines_around hLead hLine hTrail
  | next hLead hLine hTrail _ ih =>
    rw [contentLines_append_newline, contentLines_around hLead hLine hTrail, ih, List.singleton_append]

theorem run_append (hRun : IsBlankRun run) (h : Lays ls s) : Lays ls (run ++ s) := by
  cases h with
  | blank hBlank => exact blank (hRun.append hBlank)
  | last hLead hLine hTrail =>
    rw [← String.append_assoc]
    exact last (hRun.append hLead) hLine hTrail
  | next hLead hLine hTrail hRest =>
    rw [← String.append_assoc, ← String.append_assoc, ← String.append_assoc]
    exact next (hRun.append hLead) hLine hTrail hRest

/-- A stretch without a line feed holds one line at most. -/
theorem of_whole (hWhole : '\n' ∉ s.toList) : Lays (contentLines s) s := by
  obtain ⟨lead, trail, hAll, hLead, hTrail⟩ := exists_trim s
  rw [contentLines_of_whole hWhole]
  by_cases hEmpty : trim s = ""
  · rw [hEmpty, String.empty_append] at hAll
    rw [hEmpty, hAll]
    exact blank (hLead.append hTrail)
  · have hLays := last hLead (isLine_trim hWhole hEmpty) hTrail
    rw [List.filter_cons_of_pos (by simp [hEmpty]), List.filter_nil]
    rwa [← hAll] at hLays

theorem append_newline {first rest : String} {more : List String} (hFirst : Lays ls first) (hRest : Lays more rest) :
    Lays (ls ++ more) (first ++ "\n" ++ rest) := by
  induction hFirst with
  | blank hRun => exact run_append hRun.append_newline hRest
  | last hLead hLine hTrail => exact next hLead hLine hTrail hRest
  | next hLead hLine hTrail _ ih =>
    simpa only [List.cons_append, String.append_assoc] using next hLead hLine hTrail ih

end Lays

/-- Every text lays out the lines that are read from it. -/
theorem lays_contentLines (s : String) : Lays (contentLines s) s := by
  induction hLength : s.length using Nat.strongRecOn generalizing s with
  | ind n ih =>
    rcases whole_or_exists_newline s with hWhole | ⟨first, rest, rfl, hFirst⟩
    · exact Lays.of_whole hWhole
    · have hNewline : "\n".length = 1 := rfl
      have hShorter : rest.length < n := by
        rw [← hLength, String.length_append, String.length_append]
        omega
      rw [contentLines_append_newline]
      exact (Lays.of_whole hFirst).append_newline (ih rest.length hShorter rest rfl)

theorem lays_iff : Lays ls s ↔ ((lines s).map trim).filter (· ≠ "") = ls := by
  rw [← contentLines_eq_filter]
  constructor
  · exact Lays.contentLines_eq
  · rintro rfl
    exact lays_contentLines s

theorem sameLines_iff {s s' : String} : SameLines s s' ↔ ∃ ls, Lays ls s ∧ Lays ls s' := by
  constructor
  · intro h
    exact ⟨_, lays_iff.mpr h, lays_iff.mpr rfl⟩
  · rintro ⟨ls, hs, hs'⟩
    exact (lays_iff.mp hs).trans (lays_iff.mp hs').symm

section Words

theorem words_around (hLead : IsBlankRun lead) (line : String) (hTrail : IsBlankRun trail) :
    words (lead ++ (line ++ trail)) = words line := by
  rw [words_run_append hLead, words_append_of_endsWord line hTrail.endsWord, words_eq_nil hTrail, List.append_nil]

/-- The words of a text are those of its lines, although they are not read line by line. -/
theorem Lays.words_eq (h : Lays ls s) : words s = ls.flatMap words := by
  induction h with
  | blank hRun => exact words_eq_nil hRun
  | last hLead _ hTrail => rw [words_around hLead _ hTrail, List.flatMap_singleton]
  | @next lead line trail rest lines hLead _ hTrail _ ih =>
    -- The line feed is the blank at which the words before it end.
    have hEnd : (lead ++ (line ++ trail) ++ "\n").toList.getLast? = some '\n' := by simp
    have hAll : lead ++ (line ++ trail) ++ "\n" = lead ++ (line ++ (trail ++ "\n")) := by
      simp only [String.append_assoc]
    rw [words_append_of_getLast? hEnd (by decide), hAll, words_around hLead _ hTrail.append_newline, ih,
      List.flatMap_cons]

end Words

end Text

section Conversion

variable {s s' : String} (d : Dialect)

theorem Block.ofText_congr (h : Text.contentLines s = Text.contentLines s') : ofText d s = ofText d s' := by
  rw [ofText, ofText, ofTemplate, ofTemplate, templateLines, templateLines, h]

theorem Reduced.ofText_congr (h : Text.contentLines s = Text.contentLines s') : ofText d s = ofText d s' := by
  rw [ofText, ofText, Block.ofText_congr d h]

theorem Range.timeMacro?_congr (h : Text.contentLines s = Text.contentLines s') :
    timeMacro? d s = timeMacro? d s' := by
  rw [timeMacro?, timeMacro?, Block.ofText_congr d h]

theorem Query.convert_congr (h : Text.contentLines s = Text.contentLines s') (topic : Option String) :
    (⟨s, topic⟩ : Query).convert d = (⟨s', topic⟩ : Query).convert d := by
  simp only [convert, Reduced.events, Reduced.ofText_congr d h, Block.ofText_congr d h]

theorem Query.topic?_congr (namespaceMark : String) (h : Text.words s = Text.words s') (topic : Option String) :
    topic? namespaceMark ⟨s, topic⟩ = topic? namespaceMark ⟨s', topic⟩ := by
  rw [topic?, topic?, mentioned?, mentioned?, h]

theorem Query.attempt_of_sameLines (h : Text.SameLines s s') :
    Reduced.ofText d s = Reduced.ofText d s' ∧ Range.timeMacro? d s = Range.timeMacro? d s' ∧
    ∀ topic : Option String,
      (⟨s, topic⟩ : Query).render d = (⟨s', topic⟩ : Query).render d ∧
      (⟨s, topic⟩ : Query).attempt d = (⟨s', topic⟩ : Query).attempt d := by
  obtain ⟨ls, hs, hs'⟩ := Text.sameLines_iff.mp h
  have hLines : Text.contentLines s = Text.contentLines s' := hs.contentLines_eq.trans hs'.contentLines_eq.symm
  have hWords : Text.words s = Text.words s' := hs.words_eq.trans hs'.words_eq.symm
  refine ⟨Reduced.ofText_congr d hLines, Range.timeMacro?_congr d hLines, fun topic => ?_⟩
  have hAttempt : (⟨s, topic⟩ : Query).attempt d = (⟨s', topic⟩ : Query).attempt d := by
    simp only [attempt, convert_congr d hLines topic, topic?_congr d.namespaceMark hWords topic]
  exact ⟨by rw [render, render, hAttempt], hAttempt⟩

/-- A query that is converted and one that is rejected, with other line ends, indented, spread over more lines and
without the last line end. The rejection names the entity that the text mentions. -/
theorem Query.attempt_of_sameLines_returns :
    (⟨"\r\n\tSELECT DISTINCT ?x \r\nWHERE \x7b\r\n\r\n\u00a0?x ns:r ns:m.1 .\r\n\x7d", none⟩ : Query).render {} =
      "(JOIN r m.1)" ∧
    ((⟨"\r\n\t?x ns:r ns:m.1 .\u00a0\r\n\r\n  \x7d", none⟩ : Query).attempt {}).events =
      [.rejected (some "m.1") (.structural (.header "?x" "?x ns:r ns:m.1 ."))] := by
  constructor
  · obtain ⟨_, _, hQuery⟩ := attempt_of_sameLines {}
      (show Text.SameLines "\r\n\tSELECT DISTINCT ?x \r\nWHERE \x7b\r\n\r\n\u00a0?x ns:r ns:m.1 .\r\n\x7d"
        "SELECT DISTINCT ?x\nWHERE \x7b\n?x ns:r ns:m.1 .\n\x7d\n" by decide +kernel)
    rw [(hQuery none).1]
    decide +kernel
  · obtain ⟨_, _, hQuery⟩ := attempt_of_sameLines {}
      (show Text.SameLines "\r\n\t?x ns:r ns:m.1 .\u00a0\r\n\r\n  \x7d" "?x ns:r ns:m.1 .\n\x7d\n" by decide +kernel)
    rw [(hQuery none).2]
    decide +kernel

end Conversion

end LogicalForm
