import LogicalForm.Proofs.Batch
import LogicalForm.Proofs.Lines
import LogicalForm.Record.Stream

/-!
# Records line by line

However records are written, the first line that is not blank and not a record decides, under its number among all
lines; if there is none, every line that is not blank gives its record. What is written of the records has one line for
each of them.
-/

namespace LogicalForm.Record
set_option autoImplicit false

/-- A line that should be a record and is none. -/
def Codec.Faulty (codec : Codec) (line : String) : Prop := Text.trim line ≠ "" ∧ codec.decode line = none

instance (codec : Codec) (line : String) : Decidable (codec.Faulty line) := inferInstanceAs (Decidable (_ ∧ _))

section Reading

variable {codec : Codec} {before after : List String} {line : String} {number : Nat} {rest : List (Option String)}

theorem ofLines_cons_of_blank (h : Text.trim line = "") :
    ofLines codec number (some line :: rest) = ofLines codec (number + 1) rest := by
  rw [ofLines, h]
  rfl

theorem ofLines_cons_of_faulty (h : codec.Faulty line) :
    ofLines codec number (some line :: rest) = .error (.record number) := by
  have hSome : (Text.trim line).isEmpty = false := by simpa using h.1
  simp only [ofLines, hSome, h.2, Bool.false_eq_true, if_false]

theorem ofLines_cons_of_record {record : Record} (hSome : Text.trim line ≠ "") (h : codec.decode line = some record) :
    ofLines codec number (some line :: rest) = (ofLines codec (number + 1) rest).map (record :: ·) := by
  have hSome' : (Text.trim line).isEmpty = false := by simpa using hSome
  simp only [ofLines, hSome', h, Bool.false_eq_true, if_false]

/-- Lines without a fault give their records, and the number of the next line counts all of them. -/
theorem ofLines_append (h : ∀ line ∈ before, ¬ codec.Faulty line) :
    ∃ records, List.Forall₂ (fun line record => codec.decode line = some record)
        (before.filter (Text.trim · ≠ "")) records ∧
      ∀ number rest, ofLines codec number (before.map some ++ rest) =
        (ofLines codec (number + before.length) rest).map (records ++ ·) := by
  induction before with
  | nil =>
    refine ⟨[], .nil, fun number rest => ?_⟩
    show ofLines codec number rest = (ofLines codec number rest).map fun records => records
    cases ofLines codec number rest <;> rfl
  | cons line before ih =>
    obtain ⟨hLine, hBefore⟩ := List.forall_mem_cons.mp h
    obtain ⟨records, hRecords, hRead⟩ := ih hBefore
    have hNumber : ∀ number, number + 1 + before.length = number + (line :: before).length := fun number => by
      rw [List.length_cons]
      omega
    by_cases hBlank : Text.trim line = ""
    · refine ⟨records, ?_, fun number rest => ?_⟩
      · rwa [List.filter_cons_of_neg (by simp [hBlank])]
      · rw [List.map_cons, List.cons_append, ofLines_cons_of_blank hBlank, hRead, hNumber]
    · obtain ⟨record, hRecord⟩ := Option.ne_none_iff_exists'.mp fun hNone => hLine ⟨hBlank, hNone⟩
      refine ⟨record :: records, ?_, fun number rest => ?_⟩
      · rw [List.filter_cons_of_pos (by simp [hBlank])]
        exact .cons hRecord hRecords
      · rw [List.map_cons, List.cons_append, ofLines_cons_of_record hBlank hRecord, hRead, hNumber]
        cases ofLines codec (number + (line :: before).length) rest <;> rfl

theorem exists_ofLines (h : ∀ line ∈ before, ¬ codec.Faulty line) (number : Nat) :
    ∃ records, List.Forall₂ (fun line record => codec.decode line = some record)
        (before.filter (Text.trim · ≠ "")) records ∧ ofLines codec number (before.map some) = .ok records := by
  obtain ⟨records, hRecords, hRead⟩ := ofLines_append h
  refine ⟨records, hRecords, ?_⟩
  have hAll := hRead number []
  rwa [List.append_nil, ofLines, Except.map, List.append_nil] at hAll

theorem exists_first_faulty {lines : List String} (h : ∃ line ∈ lines, codec.Faulty line) :
    ∃ before line after, lines = before ++ line :: after ∧ (∀ earlier ∈ before, ¬ codec.Faulty earlier) ∧
      codec.Faulty line := by
  obtain ⟨line, hLine, hFaulty⟩ := h
  have hFound : (lines.find? fun line => decide (codec.Faulty line)).isSome = true :=
    List.find?_isSome.mpr ⟨line, hLine, decide_eq_true hFaulty⟩
  obtain ⟨first, hFirst⟩ := Option.isSome_iff_exists.mp hFound
  obtain ⟨hFault, before, after, hLines, hBefore⟩ := List.find?_eq_some_iff_append.mp hFirst
  refine ⟨before, first, after, hLines, fun earlier hMem => ?_, of_decide_eq_true hFault⟩
  simpa using hBefore earlier hMem

theorem ofLines_of_fault (hBefore : ∀ line ∈ before, ¬ codec.Faulty line) (hLine : codec.Faulty line) :
    ofLines codec number (before.map some ++ some line :: rest) = .error (.record (number + before.length)) := by
  obtain ⟨records, _, hRead⟩ := ofLines_append hBefore
  rw [hRead, ofLines_cons_of_faulty hLine]
  rfl

end Reading

/-- A stream is read by the lines of its text. -/
theorem ofBytes_toUTF8 (codec : Codec) (text : String) :
    ofBytes codec text.toUTF8 = ofLines codec 1 ((Text.lines text).map some) := by
  rw [ofBytes, Text.Utf8.lines_toUTF8]

section Writing

variable (codec : Codec) (d : Dialect) (records : List Record)

theorem convertAll_eq :
    convertAll codec d records = Text.unlines (records.map fun r => codec.encode r.id (r.query.render d)) := by
  rw [convertAll, Batch.rendered_ofQueries, List.map_map, Text.unlines, List.map_map]
  congr 1
  rw [List.zipWith_map_right, List.zipWith_self]
  rfl

theorem consists_convertAll :
    Text.Consists (convertAll codec d records) (records.map fun r => codec.encode r.id (r.query.render d)) := by
  refine ⟨convertAll_eq codec d records, fun line hLine => ?_⟩
  obtain ⟨r, _, rfl⟩ := List.mem_map.mp hLine
  exact codec.whole r.id (r.query.render d)

end Writing

end LogicalForm.Record
