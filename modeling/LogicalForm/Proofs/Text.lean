import LogicalForm.Proofs.Pieces
import LogicalForm.Text.Basic
import Mathlib.Data.List.Infix
import Mathlib.Data.List.TakeWhile

/-!
# What the questions asked of a text mean

Each reader of characters, said as a way to take the text apart: a text starts with another if it is that
text and some rest, it contains another if that stands between two others, and a cut is made at the first
occurrence of a character. Words and lines that are written one after the other are read back as they were.
-/

namespace LogicalForm.Text
set_option autoImplicit false

section Parts

variable {start s rest : String}

theorem startsWith_eq_true_iff : startsWith start s = true ↔ ∃ rest, s = start ++ rest := by
  rw [startsWith, List.isPrefixOf_iff_prefix]
  constructor
  · rintro ⟨rest, hRest⟩
    refine ⟨String.ofList rest, ?_⟩
    rw [← String.toList_inj, String.toList_append, String.toList_ofList, hRest]
  · rintro ⟨rest, rfl⟩
    rw [String.toList_append]
    exact List.prefix_append _ _

theorem startsWith_append (start rest : String) : startsWith start (start ++ rest) = true :=
  startsWith_eq_true_iff.mpr ⟨rest, rfl⟩

theorem startsWith_append_of_startsWith (h : startsWith start s = true) (rest : String) :
    startsWith start (s ++ rest) = true := by
  obtain ⟨middle, rfl⟩ := startsWith_eq_true_iff.mp h
  rw [String.append_assoc]
  exact startsWith_append start (middle ++ rest)

theorem ne_empty_of_startsWith (hStart : start ≠ "") (h : startsWith start s = true) : s ≠ "" := by
  rintro rfl
  obtain ⟨rest, hEmpty⟩ := startsWith_eq_true_iff.mp h
  exact hStart (String.append_eq_empty_iff.mp hEmpty.symm).1

theorem startsWith_iff_head? (c : Char) (h : start.toList = [c]) :
    startsWith start s = true ↔ s.toList.head? = some c := by
  rw [startsWith, h]
  cases s.toList with
  | nil => simp
  | cons a as =>
    rw [List.isPrefixOf_cons_cons, List.isPrefixOf_nil_left, Bool.and_true, beq_iff_eq, List.head?_cons,
      Option.some.injEq]
    exact eq_comm

theorem after?_eq_some_iff : after? start s = some rest ↔ s = start ++ rest := by
  rw [after?, Option.map_eq_some_iff]
  constructor
  · rintro ⟨cs, hRest, rfl⟩
    have hAll := List.isPrefixOf?_eq_some_iff_append_eq.mp hRest
    rw [← String.toList_inj, String.toList_append, String.toList_ofList, hAll]
  · rintro rfl
    refine ⟨rest.toList, ?_, String.ofList_toList⟩
    rw [List.isPrefixOf?_eq_some_iff_append_eq, String.toList_append]

theorem after?_eq_none_iff : after? start s = none ↔ startsWith start s = false := by
  rw [Option.eq_none_iff_forall_ne_some, ← Bool.not_eq_true, startsWith_eq_true_iff, not_exists]
  exact forall_congr' fun rest => not_congr after?_eq_some_iff

theorem occurs_eq_true_iff {α : Type} [BEq α] [LawfulBEq α] {pattern as : List α} :
    occurs pattern as = true ↔ pattern <:+: as := by
  induction as with
  | nil => simp [occurs]
  | cons a as ih => rw [occurs, Bool.or_eq_true, ih, List.isPrefixOf_iff_prefix, List.infix_cons_iff]

theorem contains_eq_true_iff {part : String} :
    contains part s = true ↔ ∃ before after, s = before ++ part ++ after := by
  rw [contains, occurs_eq_true_iff]
  constructor
  · rintro ⟨before, after, hAll⟩
    refine ⟨String.ofList before, String.ofList after, ?_⟩
    rw [← String.toList_inj, String.toList_append, String.toList_append, String.toList_ofList,
      String.toList_ofList, hAll]
  · rintro ⟨before, after, rfl⟩
    refine ⟨before.toList, after.toList, ?_⟩
    rw [String.toList_append, String.toList_append]

end Parts

section Cuts

variable {α : Type} {sep : α → Bool} {as before after : List α}

theorem dropWhile_eq_cons_iff {p : α → Bool} {a : α} :
    as.dropWhile p = a :: after ↔
      ∃ before, as = before ++ a :: after ∧ (∀ b ∈ before, p b = true) ∧ p a = false := by
  constructor
  · intro h
    refine ⟨as.takeWhile p, ?_, fun b hb => List.mem_takeWhile_imp hb, ?_⟩
    · rw [← h, List.takeWhile_append_dropWhile]
    · have hHead := List.head_dropWhile_not p (l := as) (by simp [h])
      simpa [h] using hHead
  · rintro ⟨before, rfl, hBefore, ha⟩
    rw [List.dropWhile_append_of_pos hBefore, List.dropWhile_cons_of_neg (by simp [ha])]

theorem cut?_eq_some_iff :
    cut? sep as = some (before, after) ↔
      ∃ a, as = before ++ a :: after ∧ sep a = true ∧ ∀ b ∈ before, sep b = false := by
  constructor
  · intro h
    rw [cut?] at h
    split at h
    · cases h
    · rename_i a rest hDrop
      cases h
      refine ⟨a, ?_, ?_, fun b hb => ?_⟩
      · rw [← hDrop, List.takeWhile_append_dropWhile]
      · obtain ⟨_, _, _, ha⟩ := dropWhile_eq_cons_iff.mp hDrop
        simpa using ha
      · simpa using List.mem_takeWhile_imp hb
  · rintro ⟨a, rfl, ha, hBefore⟩
    exact cut?_append_cons after hBefore ha

theorem cutAt?_eq_some_iff {c : Char} {s before after : String} :
    cutAt? c s = some (before, after) ↔ s.toList = before.toList ++ c :: after.toList ∧ c ∉ before.toList := by
  simp only [cutAt?, Option.map_eq_some_iff, Prod.exists, cut?_eq_some_iff, Prod.mk.injEq, beq_iff_eq]
  constructor
  · rintro ⟨front, back, ⟨_, hAll, rfl, hFront⟩, rfl, rfl⟩
    rw [String.toList_ofList, String.toList_ofList]
    refine ⟨hAll, fun hMem => ?_⟩
    simpa using hFront _ hMem
  · rintro ⟨hAll, hBefore⟩
    exact ⟨before.toList, after.toList, ⟨c, hAll, rfl, forall_beq_eq_false hBefore⟩, String.ofList_toList,
      String.ofList_toList⟩

/-- The cut before a text of one character. -/
theorem cutAt?_eq_some_iff_append {s before after : String} (c : Char) (mark : String)
    (hMark : mark.toList = [c]) :
    cutAt? c s = some (before, after) ↔ s = before ++ mark ++ after ∧ c ∉ before.toList := by
  rw [cutAt?_eq_some_iff, ← String.toList_inj, String.toList_append, String.toList_append, hMark,
    List.append_assoc, List.singleton_append]

end Cuts

section Words

/-- A text that is one word: it is not empty and has no blanks. -/
def IsWord (s : String) : Prop := s.toList ≠ [] ∧ ∀ c ∈ s.toList, isBlank c = false

instance (s : String) : Decidable (IsWord s) :=
  decidable_of_iff (s.toList ≠ [] ∧ s.toList.all (!isBlank ·) = true) (by simp [IsWord])

variable {w : String}

theorem words_empty : words "" = [] := rfl

theorem words_of_isWord (h : IsWord w) : words w = [w] := by
  rw [words, pieces_eq_singleton h.2, List.filter_cons_of_pos (by simpa using h.1)]
  simp

theorem words_append_blank (h : IsWord w) (rest : String) : words (w ++ " " ++ rest) = w :: words rest := by
  have hPieces : pieces isBlank (w ++ " " ++ rest).toList = w.toList :: pieces isBlank rest.toList := by
    rw [String.toList_append, String.toList_append, List.append_assoc]
    exact pieces_append_cons rest.toList h.2 rfl
  rw [words, hPieces, List.filter_cons_of_pos (by simpa using h.1), List.map_cons, String.ofList_toList, words]

theorem words_blank_append (rest : String) : words (" " ++ rest) = words rest := by
  have hPieces : pieces isBlank (" " ++ rest).toList = [] :: pieces isBlank rest.toList := by
    rw [String.toList_append]
    exact pieces_cons isBlank ' ' rest.toList
  rw [words, hPieces, List.filter_cons_of_neg (by simp), words]

/-- A text that starts with a character which is not blank starts with a word that does so. -/
theorem head?_of_words_eq_cons {s w : String} {more : List String} {c : Char} (hc : isBlank c = false)
    (hs : s.toList.head? = some c) (h : words s = w :: more) : w.toList.head? = some c := by
  obtain ⟨cs, hcs⟩ : ∃ cs, s.toList = c :: cs := by
    cases hList : s.toList with
    | nil => simp [hList] at hs
    | cons a cs =>
      rw [hList, List.head?_cons, Option.some.injEq] at hs
      exact ⟨cs, by rw [hs]⟩
  obtain ⟨piece, rest, hPieces⟩ := List.exists_cons_of_ne_nil (pieces_ne_nil isBlank cs)
  rw [words, hcs, pieces_cons, hc, if_neg Bool.false_ne_true, hPieces, List.modifyHead_cons,
    List.filter_cons_of_pos (by simp), List.map_cons] at h
  obtain ⟨rfl, _⟩ := List.cons.inj h
  rw [String.toList_ofList, List.head?_cons]

end Words

section Unbroken

/-- A text without blanks. -/
def IsUnbroken (s : String) : Prop := ∀ c ∈ s.toList, isBlank c = false

instance (s : String) : Decidable (IsUnbroken s) :=
  decidable_of_iff (s.toList.all fun c => !isBlank c) (by simp [IsUnbroken])

theorem isUnbroken_append {s t : String} : IsUnbroken (s ++ t) ↔ IsUnbroken s ∧ IsUnbroken t := by
  rw [IsUnbroken, String.toList_append, List.forall_mem_append]
  rfl

theorem isUnbroken_of_mem_words {s w : String} (h : w ∈ words s) : IsUnbroken w := by
  obtain ⟨piece, hPiece, rfl⟩ := List.mem_map.mp h
  rw [IsUnbroken, String.toList_ofList]
  exact not_sep_of_mem_pieces (List.mem_of_mem_filter hPiece)

theorem IsUnbroken.notMem {s : String} (h : IsUnbroken s) {c : Char} (hc : isBlank c = true) : c ∉ s.toList := by
  intro hMem
  rw [h c hMem] at hc
  cases hc

theorem isDigit_iff {c : Char} : c.isDigit = true ↔ 48 ≤ c.toNat ∧ c.toNat ≤ 57 := by
  simp [Char.isDigit, UInt32.le_iff_toNat_le]

theorem not_isBlank_of_isDigit {c : Char} (h : c.isDigit = true) : isBlank c = false := by
  have hRange := isDigit_iff.mp h
  simp only [isBlank, blankRanges, List.any_cons, List.any_nil, Bool.or_false, Bool.or_eq_false_iff,
    Bool.and_eq_false_iff, decide_eq_false_iff_not]
  omega

theorem isUnbroken_toString (n : Nat) : IsUnbroken (toString n) := by
  intro c hc
  apply not_isBlank_of_isDigit
  rw [Nat.toString_eq_repr, Nat.repr, String.toList_ofList] at hc
  exact Nat.isDigit_of_mem_toDigits (by decide) (by decide) hc

end Unbroken

section Lines

variable {s : String}

theorem strip_eq_self {cs : List Char} (hFirst : ∀ c ∈ cs.head?, isBlank c = false)
    (hLast : ∀ c ∈ cs.getLast?, isBlank c = false) : strip cs = cs := by
  have hDrop : ∀ {as : List Char}, (∀ c ∈ as.head?, isBlank c = false) → as.dropWhile isBlank = as := by
    intro as h
    cases as with
    | nil => rfl
    | cons a as => rw [List.dropWhile_cons_of_neg (by simp [h a rfl])]
  rw [strip, hDrop hFirst, hDrop, List.reverse_reverse]
  simpa using hLast

theorem trim_eq_self (hFirst : ∀ c ∈ s.toList.head?, isBlank c = false)
    (hLast : ∀ c ∈ s.toList.getLast?, isBlank c = false) : trim s = s := by
  rw [trim, strip_eq_self hFirst hLast, String.ofList_toList]

theorem IsWord.whole {w : String} (h : IsWord w) : '\n' ∉ w.toList := by
  intro hMem
  cases h.2 '\n' hMem

/-- A line as it is read: in one piece, not empty, and with no blanks around it. -/
structure IsLine (s : String) : Prop where
  whole : '\n' ∉ s.toList
  starts : s.toList.head?.any (!isBlank ·) = true
  ends : s.toList.getLast?.any (!isBlank ·) = true

instance (s : String) : Decidable (IsLine s) :=
  decidable_of_iff ('\n' ∉ s.toList ∧ s.toList.head?.any (!isBlank ·) = true ∧
    s.toList.getLast?.any (!isBlank ·) = true) ⟨fun h => ⟨h.1, h.2.1, h.2.2⟩, fun h => ⟨h.1, h.2, h.3⟩⟩

theorem IsLine.toList_ne_nil (h : IsLine s) : s.toList ≠ [] := by
  intro hNil
  have hStarts := h.starts
  rw [hNil] at hStarts
  cases hStarts

theorem IsLine.ne_empty (h : IsLine s) : s ≠ "" := by
  rintro rfl
  exact h.toList_ne_nil rfl

theorem IsLine.trimmed (h : IsLine s) : trim s = s := by
  apply trim_eq_self
  · intro c hc
    have hStarts := h.starts
    rw [Option.mem_def.mp hc] at hStarts
    simpa using hStarts
  · intro c hc
    have hEnds := h.ends
    rw [Option.mem_def.mp hc] at hEnds
    simpa using hEnds

theorem map_trim {lines : List String} (h : ∀ line ∈ lines, IsLine line) : lines.map trim = lines :=
  (List.map_congr_left fun line hLine => (h line hLine).trimmed).trans (List.map_id' lines)

theorem IsWord.isLine {w : String} (h : IsWord w) : IsLine w := by
  refine ⟨h.whole, ?_, ?_⟩
  · rw [List.head?_eq_some_head h.1]
    simp [h.2 _ (List.head_mem h.1)]
  · rw [List.getLast?_eq_some_getLast h.1]
    simp [h.2 _ (List.getLast_mem h.1)]

theorem IsLine.append {first middle last : String} (hFirst : IsLine first) (hMiddle : '\n' ∉ middle.toList)
    (hLast : IsLine last) : IsLine (first ++ middle ++ last) := by
  have hList : (first ++ middle ++ last).toList = first.toList ++ (middle.toList ++ last.toList) := by
    rw [String.toList_append, String.toList_append, List.append_assoc]
  constructor
  · rw [hList, List.mem_append, List.mem_append, not_or, not_or]
    exact ⟨hFirst.whole, hMiddle, hLast.whole⟩
  · rw [hList, List.head?_append_of_ne_nil _ hFirst.toList_ne_nil]
    exact hFirst.starts
  · rw [hList, List.getLast?_append_of_ne_nil _ (List.append_ne_nil_of_right_ne_nil _ hLast.toList_ne_nil),
      List.getLast?_append_of_ne_nil _ hLast.toList_ne_nil]
    exact hLast.ends

/-- The text of some lines, each ended by a line feed. -/
def unlines (lines : List String) : String := String.join (lines.map (· ++ "\n"))

theorem pieces_unlines {lines : List String} (h : ∀ line ∈ lines, '\n' ∉ line.toList) :
    pieces (· == '\n') (unlines lines).toList = lines.map String.toList ++ [[]] := by
  induction lines with
  | nil => rfl
  | cons line lines ih =>
    obtain ⟨hLine, hLines⟩ := List.forall_mem_cons.mp h
    have hStep := pieces_append_cons (unlines lines).toList (forall_beq_eq_false hLine) (beq_self_eq_true '\n')
    rw [ih hLines] at hStep
    rw [List.map_cons, List.cons_append, ← hStep]
    simp [unlines, String.toList_join]

/-- Lines are read back as they were written, if a line does not end in what is dropped with its line feed. -/
theorem lines_unlines {ls : List String}
    (h : ∀ line ∈ ls, '\n' ∉ line.toList ∧ line.toList.getLast? ≠ some '\r') : lines (unlines ls) = ls := by
  have hReturns : (ls.map String.toList).map (dropLastMark '\r') = ls.map String.toList := by
    rw [List.map_map]
    exact List.map_congr_left fun line hLine => if_neg (by simpa using (h line hLine).2)
  rw [lines, lineRuns, pieces_unlines fun line hLine => (h line hLine).1, List.dropLast_concat, List.getLast?_concat,
    hReturns]
  simp [Function.comp_def]

theorem map_ofList_filter_strip (runs : List (List Char)) :
    ((runs.map strip).filter (!·.isEmpty)).map String.ofList =
      ((runs.map String.ofList).map trim).filter (· ≠ "") := by
  induction runs with
  | nil => rfl
  | cons run runs ih =>
    have hTrim : trim (String.ofList run) = String.ofList (strip run) := by rw [trim, String.toList_ofList]
    rw [List.map_cons, List.map_cons, List.map_cons, hTrim]
    cases strip run with
    | nil => exact ih
    | cons c cs => rw [List.filter_cons_of_pos rfl, List.map_cons, ih, List.filter_cons_of_pos (by simp)]

/-- Lines are read back without the blanks around them, and blank ones are left out. -/
theorem contentLines_unlines {lines : List String} (h : ∀ line ∈ lines, '\n' ∉ line.toList) :
    contentLines (unlines lines) = (lines.map trim).filter (· ≠ "") := by
  have hLines : (lines.map String.toList).map String.ofList = lines := by simp [Function.comp_def]
  have hEnd : ([String.ofList []].map trim).filter (· ≠ "") = [] := rfl
  rw [contentLines, pieces_unlines h, map_ofList_filter_strip, List.map_append, hLines, List.map_append,
    List.filter_append, List.map_singleton, hEnd, List.append_nil]

theorem contentLines_unlines_of_nonblank {lines : List String}
    (h : ∀ line ∈ lines, '\n' ∉ line.toList ∧ trim line ≠ "") : contentLines (unlines lines) = lines.map trim := by
  rw [contentLines_unlines fun line hLine => (h line hLine).1, List.filter_eq_self]
  intro line hLine
  obtain ⟨raw, hRaw, rfl⟩ := List.mem_map.mp hLine
  exact decide_eq_true (h raw hRaw).2

end Lines

end LogicalForm.Text
