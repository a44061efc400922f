import LogicalForm.Command.Run
import LogicalForm.Proofs.Storage
import LogicalForm.Proofs.Stream

/-!
# The batch command

Nothing is written before all records are read. So a batch of which one line is no record leaves everything as it was,
and the file that is written may be the one that was read.
-/

namespace LogicalForm.Command
set_option autoImplicit false

/-- The bytes that a command works on. -/
def input (command : Command) (standardInput : ByteArray) (volume : Volume) : Except StorageFault ByteArray :=
  match command.source? with
  | some path => volume.read (Path.ofString path)
  | none => .ok standardInput

/-- Writes what is to be written, if there is anything. -/
def carryOut (volume : Volume) : Except CommandFault Effect → Outcome × Volume
  | .error fault => (.failed fault.message, volume)
  | .ok (.print text) => (.done text, volume)
  | .ok (.save path text) =>
    match volume.write (Path.ofString path) text.toUTF8 with
    | .ok volume => (.done "", volume)
    | .error fault => (.failed (CommandFault.storage fault).message, volume)

section Batch

variable {codec : Record.Codec} {d : Dialect} {source target : Option String} {standardInput : ByteArray}
  {volume volume' : Volume} {text path : String}

theorem run_eq (command : Command) : run codec d command standardInput volume =
    carryOut volume (command.effect codec d (command.input standardInput volume)) := rfl

theorem carryOut_save (h : volume.write (Path.ofString path) text.toUTF8 = .ok volume') :
    carryOut volume (.ok (.save path text)) = (.done "", volume') := by
  simp only [carryOut, h]

theorem records_toUTF8 (codec : Record.Codec) (source : Option String) (text : String) :
    records codec source (.ok text.toUTF8) =
      (Record.ofLines codec 1 ((Text.lines text).map some)).mapError .stream := by
  rw [← Record.ofBytes_toUTF8]
  cases source <;> rfl

theorem run_batch_of_fault {before after : List String} {line : String}
    (h : input (.batch source target) standardInput volume = .ok text.toUTF8)
    (hLines : Text.lines text = before ++ line :: after) (hBefore : ∀ earlier ∈ before, ¬ codec.Faulty earlier)
    (hFaulty : codec.Faulty line) :
    run codec d (.batch source target) standardInput volume =
      (.failed s!"Invalid query record on line {before.length + 1}", volume) := by
  rw [run_eq, h, effect, records_toUTF8, hLines, List.map_append, List.map_cons,
    Record.ofLines_of_fault hBefore hFaulty, Nat.add_comm 1]
  rfl

theorem effect_batch_of_records (d : Dialect) (source : Option String) {records : List Record}
    (hRead : Record.ofLines codec 1 ((Text.lines text).map some) = .ok records) :
    effect codec d (.batch source none) (.ok text.toUTF8) = .ok (.print (Record.convertAll codec d records)) ∧
      ∀ path, effect codec d (.batch source (some path)) (.ok text.toUTF8) =
        .ok (.save path (Record.convertAll codec d records)) := by
  simp only [effect, records_toUTF8, hRead]
  exact ⟨rfl, fun _ => rfl⟩

/-- However records are written, a line that is no record stops the batch before anything is written, and the first such
line is named. Else there is one line for each record, and where it goes does not change it. -/
theorem run_batch (codec : Record.Codec) (d : Dialect)
    (h : input (.batch source target) standardInput volume = .ok text.toUTF8) :
    ((∃ line ∈ Text.lines text, codec.Faulty line) →
      ∃ before line after, Text.lines text = before ++ line :: after ∧
        (∀ earlier ∈ before, ¬ codec.Faulty earlier) ∧ codec.Faulty line ∧
        run codec d (.batch source target) standardInput volume =
          (.failed s!"Invalid query record on line {before.length + 1}", volume) ∧
        (run codec d (.batch source target) standardInput volume).1.output = "") ∧
    ((∀ line ∈ Text.lines text, ¬ codec.Faulty line) →
      ∃ records, List.Forall₂ (fun line record => codec.decode line = some record)
          ((Text.lines text).filter (Text.trim · ≠ "")) records ∧
        let expressions := records.map fun r => codec.encode r.id (r.query.render d)
        Text.Consists (Text.unlines expressions) expressions ∧
        (target = none →
          run codec d (.batch source target) standardInput volume = (.done (Text.unlines expressions), volume)) ∧
        ∀ path volume', target = some path →
          volume.write (Path.ofString path) (Text.unlines expressions).toUTF8 = .ok volume' →
          run codec d (.batch source target) standardInput volume = (.done "", volume') ∧
            volume'.read (Path.ofString path) = .ok (Text.unlines expressions).toUTF8 ∧
            ∃ location, volume'.node? location = some (.file (Text.unlines expressions).toUTF8) ∧
              ∀ other, other ≠ location → volume'.node? other = volume.node? other) := by
  constructor
  · intro hSome
    obtain ⟨before, line, after, hLines, hBefore, hFaulty⟩ := Record.exists_first_faulty hSome
    have hFailed := run_batch_of_fault (d := d) h hLines hBefore hFaulty
    refine ⟨before, line, after, hLines, hBefore, hFaulty, hFailed, ?_⟩
    rw [hFailed]
    rfl
  · intro hNone
    obtain ⟨records, hRecords, hRead⟩ := Record.exists_ofLines hNone 1
    refine ⟨records, hRecords, ?_⟩
    simp only [← Record.convertAll_eq]
    obtain ⟨hPrint, hSave⟩ := effect_batch_of_records d source hRead
    refine ⟨Record.consists_convertAll codec d records, ?_, ?_⟩
    · rintro rfl
      rw [run_eq, h, hPrint]
      rfl
    · rintro path volume' rfl hWrite
      rw [run_eq, h, hSave, carryOut_save hWrite]
      exact ⟨rfl, Volume.read_of_write hWrite⟩

end Batch

theorem run_batch_in_place :
    let volume := fun text : String => (⟨[([[0x71]], .file text.toUTF8)]⟩ : Volume)
    let command := batch (some "q") (some "q")
    run Record.json {} command .empty (volume "\n[\"1\",\"\"]\n") =
        (.done "", volume "\x7b\"id\":\"1\",\"expression\":\"null\"\x7d\n") ∧
      run Record.json {} command .empty (volume "\n[\"1\",\"\"]\r\n?\n") =
        (.failed "Invalid query record on line 3", volume "\n[\"1\",\"\"]\r\n?\n") := by
  intro volume command
  have hPath : Path.ofString "q" = ⟨[0x71]⟩ := by decide +kernel
  have hInput : ∀ text, input command .empty (volume text) = .ok text.toUTF8 := by
    intro text
    show (volume text).read (Path.ofString "q") = _
    rw [hPath]
    rfl
  have hRecord : Record.json.decode "[\"1\",\"\"]" = some ⟨"1", ⟨"", none⟩⟩ := by decide +kernel
  constructor
  · have hLines : Text.lines "\n[\"1\",\"\"]\n" = ["", "[\"1\",\"\"]"] := by decide +kernel
    have hWhole : ∀ line ∈ Text.lines "\n[\"1\",\"\"]\n", ¬ Record.json.Faulty line := by
      rw [hLines]
      decide +kernel
    obtain ⟨records, hRecords, _, _, hSave⟩ := (run_batch Record.json {} (hInput _)).2 hWhole
    obtain rfl : records = [⟨"1", ⟨"", none⟩⟩] := by
      have hFilter : (["", "[\"1\",\"\"]"].filter (Text.trim · ≠ "")) = ["[\"1\",\"\"]"] := by decide +kernel
      rw [hLines, hFilter] at hRecords
      cases hRecords with
      | cons hHead hTail =>
        cases hTail
        rw [Option.some.inj (hRecord.symm.trans hHead)]
    have hText : Text.unlines
        ([(⟨"1", ⟨"", none⟩⟩ : Record)].map fun r => Record.json.encode r.id (r.query.render {})) =
        "\x7b\"id\":\"1\",\"expression\":\"null\"\x7d\n" := by decide +kernel
    rw [hText] at hSave
    refine (hSave "q" _ rfl ?_).1
    rw [hPath]
    rfl
  · have hLines : Text.lines "\n[\"1\",\"\"]\r\n?\n" = ["", "[\"1\",\"\"]", "?"] := by decide +kernel
    obtain ⟨before, line, after, hSplit, hBefore, hFaulty, hRun, _⟩ :=
      (run_batch Record.json {} (hInput "\n[\"1\",\"\"]\r\n?\n")).1 ⟨"?", by rw [hLines]; decide, by decide +kernel⟩
    rw [hLines] at hSplit
    have hLength := congrArg List.length hSplit
    rw [List.length_append, List.length_cons] at hLength
    rcases before with _ | ⟨first, _ | ⟨second, before⟩⟩
    · cases hSplit
      exact absurd hFaulty (by decide +kernel)
    · cases hSplit
      exact absurd hFaulty (by decide +kernel)
    · have hTwo : (first :: second :: before).length = 2 := by
        simp only [List.length_cons, List.length_nil] at hLength ⊢
        omega
      rw [hRun, hTwo]
      rfl

end LogicalForm.Command
