import LogicalForm.Proofs.CaseOrder

/-!
# The lines of a report

A report ends every line with a line feed, and in what it takes over from a result only the text of a failure is
flattened; a name stands there as it is. So a result has its one line exactly if its name has no line feed, and each
line feed in a name makes one more line. The dates never break a line or a field.
-/

namespace LogicalForm
set_option autoImplicit false

namespace Report

theorem flatten_eq (s : String) : flatten s = " ".intercalate (Text.runs s) := by
  rw [← String.toList_inj, String.toList_intercalate, Text.map_toList_runs, flatten, String.toList_ofList]
  show _ = [' '].intercalate _
  rw [Text.intercalate_pieces]
  simp only [beq_iff_eq]

theorem whole_flatten (s : String) : '\n' ∉ (flatten s).toList := by
  rw [flatten, String.toList_ofList, List.mem_map]
  rintro ⟨c, _, hc⟩
  split at hc
  · cases hc
  · exact absurd hc ‹_›

/-- The line that a result should have, without its line feed: the date, the name and the outcome, with tabs between
them, and behind a failure its lines with spaces between them. -/
inductive ReportedBy : DatedResult → String → Prop
  | passed (name : String) (date : Stamp) :
    ReportedBy ⟨⟨name, none⟩, date⟩ ("\t".intercalate [date.text, name, "passed"])
  | failed (name text : String) (date : Stamp) :
    ReportedBy ⟨⟨name, some text⟩, date⟩
      ("\t".intercalate [date.text, name, "failed", " ".intercalate (Text.runs text)])

theorem exists_reportedBy (r : DatedResult) : ∃ row, ReportedBy r row := by
  obtain ⟨⟨name, failure⟩, date⟩ := r
  cases failure with
  | none => exact ⟨_, .passed name date⟩
  | some text => exact ⟨_, .failed name text date⟩

section Rows

variable {r : DatedResult} {row : String} {results : List DatedResult} {rows : List String}

theorem ReportedBy.line_eq (h : ReportedBy r row) : line r = row ++ "\n" := by
  rw [← String.toList_inj]
  cases h with
  | passed name date => simp [line]
  | failed name text date => simp [line, flatten_eq]

/-- Only the name can bring line feeds into the line of a result. -/
theorem ReportedBy.count_newline (h : ReportedBy r row) :
    row.toList.count '\n' = r.result.name.toList.count '\n' := by
  have hDate : ∀ date : Stamp, date.text.toList.count '\n' = 0 := fun date => List.count_eq_zero.mpr date.noFeed
  have hTab : "\t".toList.count '\n' = 0 := rfl
  cases h with
  | passed name date =>
    have hOutcome : "passed".toList.count '\n' = 0 := rfl
    simp only [String.intercalate_cons_cons, String.intercalate_singleton, String.toList_append, List.count_append,
      hDate, hTab, hOutcome]
    omega
  | failed name text date =>
    have hOutcome : "failed".toList.count '\n' = 0 := rfl
    have hText : (flatten text).toList.count '\n' = 0 := List.count_eq_zero.mpr (whole_flatten text)
    rw [← flatten_eq]
    simp only [String.intercalate_cons_cons, String.intercalate_singleton, String.toList_append, List.count_append,
      hDate, hTab, hOutcome, hText]
    omega

theorem ReportedBy.fields_eq (h : ReportedBy r row) (hName : '\t' ∉ r.result.name.toList) :
    (Text.fields row).take 3 =
      [r.date.text, r.result.name, if r.result.failure.isNone then "passed" else "failed"] := by
  have hDate := r.date.noTab
  cases h with
  | passed name date =>
    rw [String.intercalate_cons_cons, String.intercalate_cons_cons, String.intercalate_singleton,
      Text.fields_append_tab hDate, Text.fields_append_tab hName]
    rfl
  | failed name text date =>
    rw [String.intercalate_cons_cons, String.intercalate_cons_cons, String.intercalate_cons_cons,
      String.intercalate_singleton, Text.fields_append_tab hDate, Text.fields_append_tab hName,
      Text.fields_append_tab (by decide)]
    rfl

theorem ReportedBy.runs_eq (h : ReportedBy r row) (hName : '\n' ∉ r.result.name.toList) : Text.runs row = [row] := by
  apply Text.runs_of_whole
  rw [← List.count_eq_zero, h.count_newline]
  exact List.count_eq_zero.mpr hName

theorem consists_join (h : List.Forall₂ ReportedBy results rows) :
    Text.Consists (String.join (results.map line)) (rows.flatMap Text.runs) := by
  induction h with
  | nil => exact ⟨rfl, List.forall_mem_nil _⟩
  | @cons r row results rows hRow hRows ih =>
    -- One more result adds the lines of its own row and leaves the others as they are.
    rw [List.map_cons, List.flatMap_cons, String.join_cons, hRow.line_eq]
    exact (Text.consists_append_newline row).append ih

theorem length_flatMap_runs (h : List.Forall₂ ReportedBy results rows) :
    (rows.flatMap Text.runs).length = results.length + (results.flatMap (·.result.name.toList)).count '\n' := by
  induction h with
  | nil => rfl
  | @cons r row results rows hRow hRows ih =>
    rw [List.flatMap_cons, List.length_append, ih, Text.length_runs, hRow.count_newline, List.length_cons,
      List.flatMap_cons, List.count_append]
    omega

theorem flatMap_runs_eq (h : List.Forall₂ ReportedBy results rows)
    (hNames : ∀ r ∈ results, '\n' ∉ r.result.name.toList) : rows.flatMap Text.runs = rows := by
  induction h with
  | nil => rfl
  | @cons r row results rows hRow hRows ih =>
    obtain ⟨hName, hNames⟩ := List.forall_mem_cons.mp hNames
    rw [List.flatMap_cons, hRow.runs_eq hName, ih hNames, List.singleton_append]

end Rows

theorem whole_closing (results : List DatedResult) : '\n' ∉ (closing results).toList := by
  have hNumber : ∀ n : Nat, '\n' ∉ (toString n).toList := fun n hMem => by
    cases Text.isUnbroken_toString n '\n' hMem
  have hOf : '\n' ∉ " of ".toList := by decide
  have hCases : '\n' ∉ " cases passed".toList := by decide
  simp only [closing, String.toList_append, List.mem_append, hNumber, hOf, hCases, or_self, not_false_iff]

theorem consists_text {results : List DatedResult} {rows : List String} (h : List.Forall₂ ReportedBy results rows) :
    Text.Consists (text results) (rows.flatMap Text.runs ++ [closing results]) := by
  have hClosing := Text.consists_append_newline (closing results)
  rw [Text.runs_of_whole (whole_closing results)] at hClosing
  rw [text_eq]
  exact (consists_join h).append hClosing

/-- A report has one line for each result and a last one with the exact counts if and only if no name has a line feed.
The dates never matter, for they have neither tabs nor line feeds, and neither do the texts of failures, whose lines are
joined. In general the line of a result is cut at each line feed of its name, and the counts still stand on the last
line. Where a name has no tab either, the first three fields of its line are the date, the name and the outcome. -/
theorem text_one_line_each_iff (results : List DatedResult) :
    (∀ instant : Instant, '\t' ∉ instant.text.toList ∧ '\n' ∉ instant.text.toList) ∧
    ∃ rows, List.Forall₂ ReportedBy results rows ∧
      (∀ lines, Text.Consists (text results) lines ↔ lines = rows.flatMap Text.runs ++ [closing results]) ∧
      (∀ lines, Text.Consists (text results) lines →
        lines.length = results.length + 1 + (results.flatMap (·.result.name.toList)).count '\n') ∧
      (Text.Consists (text results) (rows ++ [closing results]) ↔ ∀ r ∈ results, '\n' ∉ r.result.name.toList) ∧
      ((∃ lines, Text.Consists (text results) lines ∧ lines.length = results.length + 1) ↔
        ∀ r ∈ results, '\n' ∉ r.result.name.toList) ∧
      ∀ r row, ReportedBy r row → '\t' ∉ r.result.name.toList →
        (Text.fields row).take 3 =
          [r.date.text, r.result.name, if r.result.failure.isNone then "passed" else "failed"] := by
  obtain ⟨rows, hRows⟩ := exists_forall₂_iff.mpr fun r (_ : r ∈ results) => exists_reportedBy r
  have hText := consists_text hRows
  have hLength : (rows.flatMap Text.runs ++ [closing results]).length =
      results.length + 1 + (results.flatMap (·.result.name.toList)).count '\n' := by
    rw [List.length_append, length_flatMap_runs hRows, List.length_singleton]
    omega
  have hLengths : ∀ lines, Text.Consists (text results) lines →
      lines.length = results.length + 1 + (results.flatMap (·.result.name.toList)).count '\n' :=
    fun lines hLines => hLines.unique hText ▸ hLength
  have hNames : (results.flatMap (·.result.name.toList)).count '\n' = 0 ↔
      ∀ r ∈ results, '\n' ∉ r.result.name.toList := by
    simp [List.count_eq_zero]
  have hFew : ∀ lines, Text.Consists (text results) lines → lines.length = results.length + 1 →
      ∀ r ∈ results, '\n' ∉ r.result.name.toList := by
    intro lines hLines hLength
    have hCount := hLengths lines hLines
    exact hNames.mp (by omega)
  refine ⟨fun instant => ⟨instant.notMem_text rfl, instant.notMem_text rfl⟩, rows, hRows, ?_, ?_, ?_, ?_,
    fun r row => ReportedBy.fields_eq⟩
  · exact fun lines => ⟨fun hLines => hLines.unique hText, fun hLines => hLines ▸ hText⟩
  · exact hLengths
  · refine ⟨fun hLines => hFew _ hLines ?_, fun hWhole => ?_⟩
    · rw [List.length_append, ← hRows.length_eq, List.length_singleton]
    · rwa [flatMap_runs_eq hRows hWhole] at hText
  · refine ⟨fun ⟨lines, hLines, hLength⟩ => hFew lines hLines hLength, fun hWhole => ⟨_, hText, ?_⟩⟩
    rw [hLengths _ hText, hNames.mpr hWhole]

theorem text_one_line_each_iff_two :
    let date := Instant.stamp ⟨0, 0, 0⟩
    let results : List DatedResult :=
      [⟨⟨"chain", none⟩, date⟩, ⟨⟨"range", some "expected: a\nactual: b"⟩, date⟩]
    let row := "1970-01-01T00:00:00Z\trange\tfailed\texpected: a actual: b"
    (∀ r ∈ results, '\n' ∉ r.result.name.toList) ∧
      Text.Consists (text results) ["1970-01-01T00:00:00Z\tchain\tpassed", row, "1 of 2 cases passed"] ∧
      (Text.fields row).take 3 = ["1970-01-01T00:00:00Z", "range", "failed"] := by
  intro date results row
  have hWhole : ∀ r ∈ results, '\n' ∉ r.result.name.toList := by decide
  obtain ⟨_, rows, hRows, _, _, hEach, _, hFields⟩ := text_one_line_each_iff results
  have hLines := hEach.mpr hWhole
  obtain ⟨first, _, hFirst, hRest, rfl⟩ := List.forall₂_cons_left_iff.mp hRows
  obtain ⟨second, _, hSecond, hNone, rfl⟩ := List.forall₂_cons_left_iff.mp hRest
  obtain rfl := List.forall₂_nil_left_iff.mp hNone
  have hFirst : first = "1970-01-01T00:00:00Z\tchain\tpassed" := by
    cases hFirst
    decide +kernel
  have hRow : second = row := by
    cases hSecond
    decide +kernel
  have hClosing : closing results = "1 of 2 cases passed" := by decide +kernel
  have hDate : date.text = "1970-01-01T00:00:00Z" := by decide +kernel
  rw [hFirst, hRow, hClosing] at hLines
  refine ⟨hWhole, hLines, ?_⟩
  rw [← hRow, hFields _ _ hSecond (by decide), ← hDate]
  rfl

/-- The name of a file can have a line feed, and then the one case of a suite takes up two lines of its report. -/
theorem text_breaks_line_at_name :
    let file (name : String) (content : String) : Location × Node :=
      ([[0x73], Text.Utf8.encode name], .file content.toUTF8)
    let volume : Volume := ⟨[([[0x73]], .folder), file "a\nb.rq" "", file "a\nb.lf" "null"]⟩
    let date := Instant.stamp ⟨0, 0, 0⟩
    let results : List DatedResult := [⟨⟨"a\nb", none⟩, date⟩]
    Suite.runLine ["s"] (fun _ => date) volume = .done (text results) ∧
      Text.Consists (text results) ["1970-01-01T00:00:00Z\ta", "b\tpassed", "1 of 1 cases passed"] ∧
      ¬ ∃ lines, Text.Consists (text results) lines ∧ lines.length = results.length + 1 := by
  intro file volume date results
  let folder := Path.ofString "s"
  let c : Case := ⟨"a\nb", ⟨Text.Utf8.encode "s/a\nb.rq"⟩, "", "null"⟩
  have hList : volume.list folder = .ok (volume.nodes.tail.map (·.1.getLastD [])) := by decide +kernel
  have hLoad : Case.loadFolder volume folder = .ok [c] := by
    rw [Case.loadFolder, hList]
    exact bind_eq_ok.mpr ⟨[c], by decide +kernel, by rw [List.mergeSort_singleton]⟩
  have hRun : Suite.run volume {} [folder] = .ok [⟨"a\nb", none⟩] :=
    Suite.run_eq_ok_iff.mpr ⟨[[c]], .cons hLoad .nil, by decide +kernel⟩
  have hArgs : Argument.words? ["s"] = some ["s"] := by decide +kernel
  have hText : Text.Consists (text results) ["1970-01-01T00:00:00Z\ta", "b\tpassed", "1 of 1 cases passed"] :=
    ⟨by decide +kernel, by decide⟩
  refine ⟨?_, hText, ?_⟩
  · have hResults : Suite.runArguments ["s"] volume = some (.ok [⟨"a\nb", none⟩]) := by
      rw [Suite.runArguments, hArgs]
      exact congrArg some hRun
    rw [Suite.runLine, hResults]
    rfl
  · rintro ⟨lines, hLines, hLength⟩
    rw [hLines.unique hText] at hLength
    cases hLength

end Report

end LogicalForm
