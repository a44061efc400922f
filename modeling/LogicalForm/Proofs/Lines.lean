import LogicalForm.Proofs.Text
import LogicalForm.Text.Utf8

/-!
# Lines and fields

A text that ends in a line feed is its lines and nothing else, and the lines are determined by the text. A line feed
and a return are one byte each in UTF-8, and no other character has these bytes in it; so a stream has the lines of its
text.
-/

namespace LogicalForm.Text
set_option autoImplicit false

/-- What stands between the line feeds of a text. -/
def runs (s : String) : List String := (pieces (· == '\n') s.toList).map String.ofList

/-- A text that is these lines and nothing else: each is ended by a line feed and has no other. -/
structure Consists (s : String) (lines : List String) : Prop where
  text_eq : s = unlines lines
  whole : ∀ line ∈ lines, '\n' ∉ line.toList

theorem map_ofList_pieces {c : Char} {s : String} (h : c ∉ s.toList) :
    (pieces (· == c) s.toList).map String.ofList = [s] := by
  rw [pieces_eq_singleton (forall_beq_eq_false h), List.map_singleton, String.ofList_toList]

section Runs

variable {s t : String} {lines lines' : List String}

theorem map_toList_runs (s : String) : (runs s).map String.toList = pieces (· == '\n') s.toList := by
  simp [runs, Function.comp_def]

theorem length_runs (s : String) : (runs s).length = s.toList.count '\n' + 1 := by
  rw [runs, List.length_map, length_pieces]
  rfl

theorem runs_of_whole (h : '\n' ∉ s.toList) : runs s = [s] := map_ofList_pieces h

theorem whole_of_mem_runs {run : String} (h : run ∈ runs s) : '\n' ∉ run.toList := by
  obtain ⟨piece, hPiece, rfl⟩ := List.mem_map.mp h
  intro hMem
  rw [String.toList_ofList] at hMem
  simpa using not_sep_of_mem_pieces hPiece '\n' hMem

theorem unlines_append (lines lines' : List String) : unlines (lines ++ lines') = unlines lines ++ unlines lines' := by
  rw [unlines, List.map_append, String.join_append]
  rfl

/-- A line feed at the end makes lines of all that stands before it. -/
theorem consists_append_newline (s : String) : Consists (s ++ "\n") (runs s) := by
  refine ⟨?_, fun run => whole_of_mem_runs⟩
  have hSame : ∀ c : Char, (if (c == '\n') = true then '\n' else c) = c := by
    intro c
    split
    · exact (beq_iff_eq.mp ‹_›).symm
    · rfl
  have hRuns : ((runs s).map String.toList).flatMap (· ++ ['\n']) = s.toList ++ ['\n'] := by
    rw [map_toList_runs, flatMap_concat_eq_intercalate (pieces_ne_nil _ _), intercalate_pieces]
    simp only [hSame, List.map_id']
  rw [← String.toList_inj, String.toList_append, unlines, String.toList_join, List.flatMap_map]
  rw [List.flatMap_map] at hRuns
  simpa using hRuns.symm

theorem Consists.append (h : Consists s lines) (h' : Consists t lines') : Consists (s ++ t) (lines ++ lines') := by
  refine ⟨?_, List.forall_mem_append.mpr ⟨h.whole, h'.whole⟩⟩
  rw [unlines_append, ← h.text_eq, ← h'.text_eq]

theorem Consists.pieces_eq (h : Consists s lines) : pieces (· == '\n') s.toList = lines.map String.toList ++ [[]] := by
  rw [h.text_eq, pieces_unlines h.whole]

theorem Consists.unique (h : Consists s lines) (h' : Consists s lines') : lines = lines' := by
  have hSame := List.append_cancel_right (h.pieces_eq.symm.trans h'.pieces_eq)
  exact List.map_injective_iff.mpr (fun _ _ => String.toList_inj.mp) hSame

end Runs

section Fields

/-- The parts of a line between its tabs. -/
def fields (line : String) : List String := (pieces (· == '\t') line.toList).map String.ofList

variable {s : String}

theorem fields_of_noTab (h : '\t' ∉ s.toList) : fields s = [s] := map_ofList_pieces h

theorem fields_append_tab (h : '\t' ∉ s.toList) (rest : String) : fields (s ++ "\t" ++ rest) = s :: fields rest := by
  rw [fields, String.toList_append, String.toList_append, List.append_assoc]
  show (pieces (· == '\t') (s.toList ++ '\t' :: rest.toList)).map String.ofList = _
  rw [pieces_append_cons _ (forall_beq_eq_false h) rfl, List.map_cons, String.ofList_toList, fields]

end Fields

namespace Utf8

theorem fromUTF8?_eq_some_iff {bytes : ByteArray} {s : String} :
    String.fromUTF8? bytes = some s ↔ bytes = s.toUTF8 := by
  rw [String.fromUTF8?]
  constructor
  · intro h
    split at h
    · cases h
      rfl
    · cases h
  · rintro rfl
    exact dif_pos s.isValidUTF8

/-- A byte below 128 is a character of its own. -/
theorem encodeChar_eq_of_mem {c : Char} {b : UInt8} (hb : b.toNat < 128) (h : b ∈ String.utf8EncodeChar c) :
    c.toNat = b.toNat := by
  have hNat : c.val.toNat = c.toNat := rfl
  rw [String.utf8EncodeChar, hNat] at h
  have hMem : ∀ {n : Nat}, b = UInt8.ofNat n → b.toNat = n % 256 := by
    rintro n rfl
    exact UInt8.toNat_ofNat'
  split at h
  · have hSame := hMem (List.mem_singleton.mp h)
    omega
  · split at h
    · simp only [List.mem_cons, List.not_mem_nil, or_false] at h
      rcases h with h | h <;> have hSame := hMem h <;> omega
    · split at h
      · simp only [List.mem_cons, List.not_mem_nil, or_false] at h
        rcases h with h | h | h <;> have hSame := hMem h <;> omega
      · simp only [List.mem_cons, List.not_mem_nil, or_false] at h
        rcases h with h | h | h | h <;> have hSame := hMem h <;> omega

theorem standsFor_feed : StandsFor String.utf8EncodeChar '\n' lineFeed :=
  ⟨by decide, fun h => Char.toNat_inj.mp (encodeChar_eq_of_mem (by decide) h)⟩

theorem standsFor_return : StandsFor String.utf8EncodeChar '\r' carriageReturn :=
  ⟨by decide, fun h => Char.toNat_inj.mp (encodeChar_eq_of_mem (by decide) h)⟩

theorem data_toUTF8 (s : String) : s.toUTF8.data.toList = s.toList.flatMap String.utf8EncodeChar := by
  rw [String.toUTF8_eq_toByteArray, ← String.utf8Encode_toList, List.utf8Encode, List.data_toByteArray,
    List.toList_toArray]

theorem decode?_flatMap (cs : List Char) : decode? (cs.flatMap String.utf8EncodeChar) = some (String.ofList cs) := by
  rw [decode?, fromUTF8?_eq_some_iff, String.toUTF8_eq_toByteArray, ← String.utf8Encode_toList, String.toList_ofList,
    List.utf8Encode]

/-- The lines of the bytes are those of the characters. -/
theorem lines_toUTF8 (s : String) : lines s.toUTF8 = (Text.lines s).map some := by
  have hSome : ∀ c, String.utf8EncodeChar c ≠ [] := fun c hNil => by
    have hLength := String.length_utf8EncodeChar c
    rw [hNil] at hLength
    exact absurd hLength.symm (Nat.ne_of_gt c.utf8Size_pos)
  rw [lines, data_toUTF8, lineRuns_flatMap standsFor_return standsFor_feed hSome, Text.lines, List.map_map,
    List.map_map]
  exact List.map_congr_left fun run _ => decode?_flatMap run

end Utf8

end LogicalForm.Text
