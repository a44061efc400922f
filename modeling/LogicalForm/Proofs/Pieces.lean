import LogicalForm.Text.Pieces
import Mathlib.Data.List.Infix

/-!
# The pieces of a list

The pieces between separators are what is left of the list without them: nothing in a piece is a separator, all of it
is in the list, and there is one piece more than there are separators. A list that stands for another, element by
element, has the pieces and the lines of the other, if what stands for a separator is one and nothing else has any.
-/

namespace LogicalForm.Text
set_option autoImplicit false

variable {α β : Type} {sep : α → Bool} {as piece : List α} {a : α}

section Members

theorem mem_of_mem_pieces (h : piece ∈ pieces sep as) (ha : a ∈ piece) : a ∈ as := by
  induction as generalizing piece with
  | nil =>
    rw [List.mem_singleton.mp h] at ha
    exact ha
  | cons b as ih =>
    rw [pieces_cons] at h
    split at h
    · rcases List.mem_cons.mp h with rfl | h
      · cases ha
      · exact List.mem_cons_of_mem b (ih h ha)
    · obtain ⟨first, rest, hPieces⟩ := List.exists_cons_of_ne_nil (pieces_ne_nil sep as)
      rw [hPieces] at h ih
      rcases List.mem_cons.mp h with rfl | h
      · rcases List.mem_cons.mp ha with rfl | ha
        · exact List.mem_cons_self
        · exact List.mem_cons_of_mem b (ih List.mem_cons_self ha)
      · exact List.mem_cons_of_mem b (ih (List.mem_cons_of_mem first h) ha)

theorem not_sep_of_mem_pieces (h : piece ∈ pieces sep as) : ∀ a ∈ piece, sep a = false := by
  induction as generalizing piece with
  | nil =>
    rw [List.mem_singleton.mp h]
    exact List.forall_mem_nil _
  | cons a as ih =>
    rw [pieces_cons] at h
    split at h
    · rcases List.mem_cons.mp h with rfl | h
      · exact List.forall_mem_nil _
      · exact ih h
    · rename_i ha
      obtain ⟨first, rest, hPieces⟩ := List.exists_cons_of_ne_nil (pieces_ne_nil sep as)
      rw [hPieces] at h ih
      rcases List.mem_cons.mp h with rfl | h
      · exact List.forall_mem_cons.mpr ⟨by simpa using ha, ih List.mem_cons_self⟩
      · exact ih (List.mem_cons_of_mem _ h)

theorem length_pieces (sep : α → Bool) (as : List α) : (pieces sep as).length = as.countP sep + 1 := by
  induction as with
  | nil => rfl
  | cons a as ih =>
    rw [pieces_cons, List.countP_cons]
    split
    · rw [List.length_cons, ih]
    · rw [List.length_modifyHead, ih]

theorem forall_beq_eq_false {c : Char} {cs : List Char} (h : c ∉ cs) : ∀ a ∈ cs, (a == c) = false := by
  intro a ha
  rw [beq_eq_false_iff_ne]
  rintro rfl
  exact h ha

end Members

section Joining

/-- Every separator ends a piece. -/
theorem pieces_append_sep (as bs : List α) (ha : sep a = true) :
    pieces sep (as ++ a :: bs) = pieces sep as ++ pieces sep bs := by
  induction as with
  | nil => rw [List.nil_append, pieces_cons, if_pos ha, pieces_nil, List.singleton_append]
  | cons c as ih =>
    rw [List.cons_append, pieces_cons, pieces_cons, ih]
    split
    · rfl
    · obtain ⟨piece, more, hPieces⟩ := List.exists_cons_of_ne_nil (pieces_ne_nil sep as)
      rw [hPieces, List.cons_append, List.modifyHead_cons, List.modifyHead_cons, List.cons_append]

theorem pieces_append_of_not_sep (h : ∀ a ∈ as, sep a = false) (bs : List α) :
    pieces sep (as ++ bs) = (pieces sep bs).modifyHead (as ++ ·) := by
  obtain ⟨first, rest, hPieces⟩ := List.exists_cons_of_ne_nil (pieces_ne_nil sep bs)
  rw [hPieces, List.modifyHead_cons]
  induction as with
  | nil => exact hPieces
  | cons a as ih =>
    obtain ⟨ha, has⟩ := List.forall_mem_cons.mp h
    rw [List.cons_append, pieces_cons, ih has, ha]
    rfl

theorem pieces_eq_cons_cons_iff {first second : List α} {more : List (List α)} :
    pieces sep as = first :: second :: more ↔
      ∃ a rest, as = first ++ a :: rest ∧ sep a = true ∧ (∀ b ∈ first, sep b = false) ∧
        pieces sep rest = second :: more := by
  constructor
  · intro h
    induction as generalizing first with
    | nil => cases h
    | cons a as ih =>
      rw [pieces_cons] at h
      split at h
      · rename_i ha
        obtain ⟨rfl, hRest⟩ := List.cons.inj h
        exact ⟨a, as, rfl, ha, by simp, hRest⟩
      · rename_i ha
        obtain ⟨piece, pieces', hPieces⟩ := List.exists_cons_of_ne_nil (pieces_ne_nil sep as)
        rw [hPieces, List.modifyHead_cons] at h
        obtain ⟨rfl, rfl⟩ := List.cons.inj h
        obtain ⟨b, rest, rfl, hb, hPiece, hRest⟩ := ih hPieces
        refine ⟨b, rest, rfl, hb, List.forall_mem_cons.mpr ⟨?_, hPiece⟩, hRest⟩
        simpa using ha
  · rintro ⟨a, rest, rfl, ha, hFirst, hRest⟩
    rw [pieces_append_cons rest hFirst ha, hRest]

/-- The pieces, joined by another element in the place of each separator. -/
theorem intercalate_pieces (sep : α → Bool) (b : α) (as : List α) :
    [b].intercalate (pieces sep as) = as.map fun a => if sep a = true then b else a := by
  induction as with
  | nil => rfl
  | cons a as ih =>
    obtain ⟨first, rest, hPieces⟩ := List.exists_cons_of_ne_nil (pieces_ne_nil sep as)
    rw [pieces_cons, List.map_cons, ← ih, hPieces]
    split
    · rw [List.intercalate_cons_cons]
      rfl
    · cases rest with
      | nil => rfl
      | cons second rest =>
        rw [List.modifyHead_cons, List.intercalate_cons_cons, List.intercalate_cons_cons]
        rfl

theorem flatMap_concat_eq_intercalate {b : α} {runs : List (List α)} (h : runs ≠ []) :
    runs.flatMap (· ++ [b]) = [b].intercalate runs ++ [b] := by
  induction runs with
  | nil => exact absurd rfl h
  | cons first rest ih =>
    cases rest with
    | nil => simp
    | cons second rest =>
      rw [List.flatMap_cons, ih (List.cons_ne_nil second rest), List.intercalate_cons_cons]
      simp

end Joining

section Encoding

variable [DecidableEq α] [DecidableEq β] {encode : α → List β}

/-- The mark stands for an element, and for no other one it occurs. -/
structure StandsFor (encode : α → List β) (a : α) (mark : β) : Prop where
  encode_eq : encode a = [mark]
  eq_of_mem : ∀ {other}, mark ∈ encode other → other = a

theorem pieces_flatMap {mark : β} (h : StandsFor encode a mark) (as : List α) :
    pieces (· == mark) (as.flatMap encode) = (pieces (· == a) as).map (·.flatMap encode) := by
  induction as with
  | nil => rfl
  | cons b as ih =>
    rw [List.flatMap_cons, pieces_cons]
    by_cases hb : b = a
    · rw [hb, h.encode_eq, List.singleton_append, pieces_cons, if_pos (beq_self_eq_true mark),
        if_pos (beq_self_eq_true a), ih]
      rfl
    · have hNone : ∀ c ∈ encode b, (c == mark) = false := by
        intro c hc
        rw [beq_eq_false_iff_ne]
        rintro rfl
        exact hb (h.eq_of_mem hc)
      obtain ⟨first, rest, hPieces⟩ := List.exists_cons_of_ne_nil (pieces_ne_nil (· == a) as)
      rw [pieces_append_of_not_sep hNone, ih, if_neg (by simpa using hb), hPieces]
      rfl

theorem dropLastMark_flatMap {mark : β} (h : StandsFor encode a mark) (hSome : ∀ b, encode b ≠ []) (as : List α) :
    dropLastMark mark (as.flatMap encode) = (dropLastMark a as).flatMap encode := by
  rcases List.eq_nil_or_concat' as with rfl | ⟨front, last, rfl⟩
  · rfl
  · have hLast : (encode last).getLast? = some mark ↔ last = a := by
      refine ⟨fun hMark => h.eq_of_mem (List.mem_of_getLast? hMark), ?_⟩
      rintro rfl
      rw [h.encode_eq]
      rfl
    rw [List.flatMap_append, List.flatMap_singleton, dropLastMark, dropLastMark,
      List.getLast?_append_of_ne_nil _ (hSome last), List.getLast?_concat]
    by_cases hSame : last = a
    · rw [hSame, h.encode_eq]
      simp
    · simp [hSame, hLast]

theorem lineRuns_flatMap {a b : α} {mark mark' : β} (h : StandsFor encode a mark) (h' : StandsFor encode b mark')
    (hSome : ∀ c, encode c ≠ []) (as : List α) :
    lineRuns mark mark' (as.flatMap encode) = (lineRuns a b as).map (·.flatMap encode) := by
  have hEmpty : ∀ run : List α, (run.flatMap encode).isEmpty = run.isEmpty := by
    intro run
    cases run with
    | nil => rfl
    | cons c run => simp [hSome c]
  rw [lineRuns, lineRuns, pieces_flatMap h']
  simp only [List.map_append, ← List.map_dropLast, List.map_map, List.getLast?_map]
  congr 1
  · exact List.map_congr_left fun run _ => dropLastMark_flatMap h hSome run
  · cases (pieces (· == b) as).getLast? with
    | none => rfl
    | some last =>
      simp only [Option.map_some, Option.toList_some, List.filter_singleton, hEmpty]
      cases last <;> rfl

end Encoding

end LogicalForm.Text
