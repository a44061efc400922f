import LogicalForm.Proofs.Lists
import LogicalForm.Proofs.Outcome
import LogicalForm.Proofs.Text
import LogicalForm.Triple.Line

/-!
# Which lines are triples

A text has certain words exactly if it is these words with blanks between them. So a line is read as a triple
exactly if it is three words and a full stop, each followed by blanks, and the words are determined by the line.
-/

namespace LogicalForm
set_option autoImplicit false

namespace Text

/-- A text of blanks only; it may be empty. -/
def IsBlankRun (s : String) : Prop := ∀ c ∈ s.toList, isBlank c = true

instance (s : String) : Decidable (IsBlankRun s) :=
  decidable_of_iff (s.toList.all isBlank = true) (by simp [IsBlankRun])

/-- The text is empty or starts with a blank, so that a word ends before it. -/
def EndsWord (s : String) : Prop := ∀ c ∈ s.toList.head?, isBlank c = true

variable {s w lead trail gap rest : String} {ws : List String}

theorem IsBlankRun.endsWord (h : IsBlankRun s) : EndsWord s :=
  fun c hc => h c (List.mem_of_mem_head? hc)

theorem IsBlankRun.endsWord_append (h : IsBlankRun gap) (hSome : gap ≠ "") (rest : String) :
    EndsWord (gap ++ rest) := by
  intro c hc
  have hList : gap.toList ≠ [] := fun hNil => hSome (String.toList_eq_nil_iff.mp hNil)
  rw [String.toList_append, List.head?_append_of_ne_nil _ hList] at hc
  exact h c (List.mem_of_mem_head? hc)

theorem words_append_of_endsWord (s : String) (hRest : EndsWord rest) : words (s ++ rest) = words s ++ words rest := by
  cases hList : rest.toList with
  | nil => rw [String.toList_eq_nil_iff.mp hList, String.append_empty, words_empty, List.append_nil]
  | cons c cs =>
    have hc : isBlank c = true := hRest c (by rw [hList]; rfl)
    rw [words, words, words, String.toList_append, hList, pieces_append_sep _ cs hc, pieces_cons, if_pos hc,
      List.filter_cons_of_neg (by simp), List.filter_append, List.map_append]

theorem words_append_of_getLast? {c : Char} (h : s.toList.getLast? = some c) (hc : isBlank c = true)
    (rest : String) : words (s ++ rest) = words s ++ words rest := by
  obtain ⟨cs, hList⟩ := List.getLast?_eq_some_iff.mp h
  rw [words, words, words, String.toList_append, hList, List.append_assoc, List.singleton_append,
    pieces_append_sep _ _ hc, pieces_append_sep _ _ hc, pieces_nil, List.filter_append, List.filter_append]
  simp

theorem words_eq_nil (h : IsBlankRun s) : words s = [] := by
  have hList : ∀ cs : List Char, (∀ c ∈ cs, isBlank c = true) → (pieces isBlank cs).filter (!·.isEmpty) = [] := by
    intro cs hcs
    induction cs with
    | nil => rfl
    | cons c cs ih =>
      obtain ⟨hc, hcs⟩ := List.forall_mem_cons.mp hcs
      rw [pieces_cons, if_pos hc, List.filter_cons_of_neg (by simp), ih hcs]
  rw [words, hList _ h, List.map_nil]

theorem words_run_append (h : IsBlankRun lead) (rest : String) : words (lead ++ rest) = words rest := by
  cases hLast : lead.toList.getLast? with
  | none =>
    have hEmpty := String.toList_eq_nil_iff.mp (List.getLast?_eq_none_iff.mp hLast)
    rw [hEmpty, String.empty_append]
  | some c =>
    rw [words_append_of_getLast? hLast (h c (List.mem_of_getLast? hLast)), words_eq_nil h, List.nil_append]

theorem words_cons_append (hWord : IsWord w) (hRest : EndsWord rest) : words (w ++ rest) = w :: words rest := by
  rw [words_append_of_endsWord w hRest, words_of_isWord hWord, List.singleton_append]

theorem exists_span (p : Char → Bool) (s : String) :
    ∃ run rest, s = run ++ rest ∧ (∀ c ∈ run.toList, p c = true) ∧ ∀ c ∈ rest.toList.head?, p c = false := by
  refine ⟨String.ofList (s.toList.takeWhile p), String.ofList (s.toList.dropWhile p), ?_, ?_, ?_⟩
  · rw [← String.ofList_append, List.takeWhile_append_dropWhile, String.ofList_toList]
  · rw [String.toList_ofList]
    exact fun c hc => List.mem_takeWhile_imp hc
  · rw [String.toList_ofList]
    intro c hc
    obtain ⟨cs, hDrop⟩ := List.head?_eq_some_iff.mp hc
    obtain ⟨_, _, _, hEnds⟩ := dropWhile_eq_cons_iff.mp hDrop
    exact hEnds

/-- The first word starts at the first character that is not blank and ends before the next blank. -/
theorem isBlankRun_or_exists_word (s : String) :
    IsBlankRun s ∨ ∃ lead w rest, s = lead ++ (w ++ rest) ∧ IsBlankRun lead ∧ IsWord w ∧ EndsWord rest := by
  obtain ⟨lead, body, rfl, hLead, hBody⟩ := exists_span isBlank s
  by_cases hEmpty : body = ""
  · rw [hEmpty, String.append_empty]
    exact Or.inl hLead
  · obtain ⟨w, rest, rfl, hWord, hRest⟩ := exists_span (!isBlank ·) body
    have hEnds : EndsWord rest := fun c hc => by simpa using hRest c hc
    refine Or.inr ⟨lead, w, rest, rfl, hLead, ⟨fun hNil => ?_, fun c hc => by simpa using hWord c hc⟩, hEnds⟩
    have hNone : w = "" := String.toList_eq_nil_iff.mp hNil
    rw [hNone, String.empty_append] at hBody hEmpty
    obtain ⟨c, cs, hList⟩ := List.exists_cons_of_ne_nil fun hNil => hEmpty (String.toList_eq_nil_iff.mp hNil)
    have hHead : c ∈ rest.toList.head? := by rw [hList]; rfl
    exact absurd (hEnds c hHead) (by simp [hBody c hHead])

theorem words_eq_nil_iff : words s = [] ↔ IsBlankRun s := by
  refine ⟨fun h => ?_, words_eq_nil⟩
  rcases isBlankRun_or_exists_word s with hBlank | ⟨lead, w, rest, rfl, hLead, hWord, hRest⟩
  · exact hBlank
  · rw [words_run_append hLead, words_cons_append hWord hRest] at h
    cases h

theorem words_eq_cons_iff :
    words s = w :: ws ↔
      ∃ lead rest, s = lead ++ (w ++ rest) ∧ IsBlankRun lead ∧ IsWord w ∧ EndsWord rest ∧ words rest = ws := by
  constructor
  · intro h
    rcases isBlankRun_or_exists_word s with hBlank | ⟨lead, first, rest, rfl, hLead, hWord, hRest⟩
    · rw [words_eq_nil hBlank] at h
      cases h
    · rw [words_run_append hLead, words_cons_append hWord hRest] at h
      obtain ⟨rfl, hWords⟩ := List.cons.inj h
      exact ⟨lead, rest, rfl, hLead, hWord, hRest, hWords⟩
  · rintro ⟨lead, rest, rfl, hLead, hWord, hRest, rfl⟩
    rw [words_run_append hLead, words_cons_append hWord hRest]

/-- A text is its trimmed text with blanks around it. -/
theorem exists_trim (s : String) :
    ∃ lead trail, s = lead ++ (trim s ++ trail) ∧ IsBlankRun lead ∧ IsBlankRun trail := by
  let body := s.toList.dropWhile isBlank
  refine ⟨String.ofList (s.toList.takeWhile isBlank), String.ofList (body.reverse.takeWhile isBlank).reverse, ?_,
    ?_, ?_⟩
  · rw [trim, strip, ← String.ofList_append, ← String.ofList_append, ← List.reverse_append,
      List.takeWhile_append_dropWhile, List.reverse_reverse, List.takeWhile_append_dropWhile, String.ofList_toList]
  · rw [IsBlankRun, String.toList_ofList]
    exact fun c hc => List.mem_takeWhile_imp hc
  · rw [IsBlankRun, String.toList_ofList]
    exact fun c hc => List.mem_takeWhile_imp (List.mem_reverse.mp hc)

theorem words_trim (s : String) : words (trim s) = words s := by
  obtain ⟨lead, trail, hAll, hLead, hTrail⟩ := exists_trim s
  have hWords := words_run_append hLead (trim s ++ trail)
  rw [← hAll, words_append_of_endsWord _ hTrail.endsWord, words_eq_nil hTrail, List.append_nil] at hWords
  exact hWords.symm

/-- Where a word ends and another one follows, there is a blank between them. -/
theorem EndsWord.ne_empty (h : EndsWord (gap ++ (w ++ rest))) (hWord : IsWord w) : gap ≠ "" := by
  rintro rfl
  obtain ⟨c, cs, hList⟩ := List.exists_cons_of_ne_nil hWord.1
  have hBlank : isBlank c = true := h c (by rw [String.empty_append, String.toList_append, hList]; rfl)
  have hWord := hWord.2 c (by rw [hList]; exact List.mem_cons_self)
  rw [hBlank] at hWord
  cases hWord

theorem dropWhile_append_of_head? {α : Type} {p : α → Bool} {run rest : List α} (hRun : ∀ a ∈ run, p a = true)
    (hRest : ∀ a ∈ rest.head?, p a = false) : (run ++ rest).dropWhile p = rest := by
  rw [List.dropWhile_append_of_pos hRun]
  cases rest with
  | nil => rfl
  | cons a as => rw [List.dropWhile_cons_of_neg (by simp [hRest a rfl])]

/-- What is left of a text between blanks, if it starts and ends with characters that are none. -/
theorem trim_around {body : String} (hLead : IsBlankRun lead) (hTrail : IsBlankRun trail)
    (hStarts : body.toList.head?.any (!isBlank ·) = true) (hEnds : body.toList.getLast?.any (!isBlank ·) = true) :
    trim (lead ++ (body ++ trail)) = body := by
  have hSome : body.toList ≠ [] := by
    intro hNil
    rw [hNil] at hStarts
    cases hStarts
  have hFirst : ∀ c ∈ (body.toList ++ trail.toList).head?, isBlank c = false := by
    rw [List.head?_append_of_ne_nil _ hSome]
    intro c hc
    simpa [Option.mem_def.mp hc] using hStarts
  have hLast : ∀ c ∈ body.toList.reverse.head?, isBlank c = false := by
    rw [List.head?_reverse]
    intro c hc
    simpa [Option.mem_def.mp hc] using hEnds
  have hTail : ∀ c ∈ trail.toList.reverse, isBlank c = true := fun c hc => hTrail c (List.mem_reverse.mp hc)
  rw [trim, strip, String.toList_append, String.toList_append, dropWhile_append_of_head? hLead hFirst,
    List.reverse_append, dropWhile_append_of_head? hTail hLast, List.reverse_reverse, String.ofList_toList]

theorem trim_between {first last : String} (middle : String) (hLead : IsBlankRun lead) (hTrail : IsBlankRun trail)
    (hFirst : IsWord first) (hLast : IsWord last) :
    trim (lead ++ (first ++ middle ++ last ++ trail)) = first ++ middle ++ last := by
  have hList : (first ++ middle ++ last).toList = first.toList ++ (middle.toList ++ last.toList) := by
    rw [String.toList_append, String.toList_append, List.append_assoc]
  apply trim_around hLead hTrail
  · rw [hList, List.head?_append_of_ne_nil _ hFirst.1]
    exact hFirst.isLine.starts
  · rw [hList, ← List.append_assoc, List.getLast?_append_of_ne_nil _ hLast.1]
    exact hLast.isLine.ends

end Text

theorem Dialect.exists_term_eq_entity_iff {d : Dialect} {word : String} :
    (∃ name, d.term word = .entity name) ↔
      Text.startsWith d.namespaceMark word = true ∧ Text.startsWith "?" word = false := by
  rw [term, Term.read]
  cases hVar : Text.after? "?" word with
  | some name =>
    rw [Text.after?_eq_some_iff.mp hVar, Text.startsWith_append]
    simp
  | none =>
    rw [Text.after?_eq_none_iff.mp hVar]
    cases hMark : Text.after? d.namespaceMark word with
    | some name =>
      rw [Text.after?_eq_some_iff.mp hMark, Text.startsWith_append]
      simp
    | none =>
      rw [Text.after?_eq_none_iff.mp hMark]
      simp

namespace Triple

/-- The line consists of the three words and a full stop, with blanks after each word and perhaps around the line,
and the second word is a name of the namespace. -/
def Written (d : Dialect) (line subject relation object : String) : Prop :=
  ∃ lead gap₁ gap₂ gap₃ trail : String,
    line = lead ++ subject ++ gap₁ ++ relation ++ gap₂ ++ object ++ gap₃ ++ "." ++ trail ∧
    Text.IsWord subject ∧ Text.IsWord relation ∧ Text.IsWord object ∧
    (∀ gap ∈ [gap₁, gap₂, gap₃], gap ≠ "" ∧ Text.IsBlankRun gap) ∧
    Text.IsBlankRun lead ∧ Text.IsBlankRun trail ∧
    Text.startsWith d.namespaceMark relation = true ∧ Text.startsWith "?" relation = false

def IsWritten (d : Dialect) (line : String) : Prop := ∃ subject relation object, Written d line subject relation object

variable {d : Dialect} {line subject relation object : String} {t : Triple}

theorem unterminated?_eq_some_iff {body : String} :
    unterminated? line = some body ↔
      line = body ++ "." ∧ ∃ c, body.toList.getLast? = some c ∧ Text.isBlank c = true := by
  rw [unterminated?]
  constructor
  · intro h
    split at h
    · rename_i c rest hReverse
      rw [Option.ite_none_right_eq_some] at h
      obtain ⟨hc, hBody⟩ := h
      have hBody : body.toList = (c :: rest).reverse := by rw [← Option.some.inj hBody, String.toList_ofList]
      refine ⟨?_, c, by rw [hBody]; simp, hc⟩
      rw [← String.toList_inj, String.toList_append, hBody, ← List.reverse_reverse line.toList, hReverse,
        List.reverse_cons]
      rfl
    · cases h
  · rintro ⟨rfl, c, hLast, hc⟩
    obtain ⟨cs, hList⟩ := List.getLast?_eq_some_iff.mp hLast
    have hReverse : (body ++ ".").toList.reverse = '.' :: c :: cs.reverse := by
      rw [String.toList_append, hList]
      simp
    simp only [hReverse, hc, if_true, Option.some.injEq, ← String.toList_inj, hList]
    simp

theorem ofWords_eq_ok_iff {ws : List String} :
    ofWords d line ws = .ok t ↔ ∃ subject relation object, ws = [subject, relation, object] ∧
      (∃ name, d.term relation = .entity name) ∧ t = ⟨d.term subject, d.term relation, d.term object⟩ := by
  unfold ofWords
  constructor
  · intro h
    split at h
    · rename_i subject relation object
      split at h
      · rename_i name hName
        cases h
        exact ⟨subject, relation, object, rfl, ⟨name, hName⟩, by rw [hName]⟩
      · cases h
    · cases h
  · rintro ⟨subject, relation, object, rfl, ⟨name, hName⟩, rfl⟩
    simp only [hName]

theorem written_iff_words :
    Written d line subject relation object ↔ Text.words line = [subject, relation, object, "."] ∧
      Text.startsWith d.namespaceMark relation = true ∧ Text.startsWith "?" relation = false := by
  have hStop : Text.IsWord "." := by decide
  constructor
  · rintro ⟨lead, gap₁, gap₂, gap₃, trail, rfl, hSubject, hRelation, hObject, hGaps, hLead, hTrail, hName⟩
    refine ⟨?_, hName⟩
    simp only [List.forall_mem_cons] at hGaps
    obtain ⟨⟨hSome₁, hGap₁⟩, ⟨hSome₂, hGap₂⟩, ⟨hSome₃, hGap₃⟩, _⟩ := hGaps
    simp only [String.append_assoc]
    rw [Text.words_run_append hLead, Text.words_cons_append hSubject (hGap₁.endsWord_append hSome₁ _),
      Text.words_run_append hGap₁, Text.words_cons_append hRelation (hGap₂.endsWord_append hSome₂ _),
      Text.words_run_append hGap₂, Text.words_cons_append hObject (hGap₃.endsWord_append hSome₃ _),
      Text.words_run_append hGap₃, Text.words_cons_append hStop hTrail.endsWord, Text.words_eq_nil hTrail]
  · rintro ⟨hWords, hName⟩
    obtain ⟨lead, _, rfl, hLead, hSubject, hEnds₁, hWords⟩ := Text.words_eq_cons_iff.mp hWords
    obtain ⟨gap₁, _, rfl, hGap₁, hRelation, hEnds₂, hWords⟩ := Text.words_eq_cons_iff.mp hWords
    obtain ⟨gap₂, _, rfl, hGap₂, hObject, hEnds₃, hWords⟩ := Text.words_eq_cons_iff.mp hWords
    obtain ⟨gap₃, trail, rfl, hGap₃, _, _, hWords⟩ := Text.words_eq_cons_iff.mp hWords
    refine ⟨lead, gap₁, gap₂, gap₃, trail, by simp only [String.append_assoc], hSubject, hRelation, hObject, ?_,
      hLead, Text.words_eq_nil_iff.mp hWords, hName⟩
    simp only [List.forall_mem_cons]
    exact ⟨⟨hEnds₁.ne_empty hRelation, hGap₁⟩, ⟨hEnds₂.ne_empty hObject, hGap₂⟩, ⟨hEnds₃.ne_empty hStop, hGap₃⟩,
      by simp⟩

theorem Written.exists_unterminated (h : Written d line subject relation object) :
    ∃ body, unterminated? (Text.trim line) = some body := by
  obtain ⟨lead, gap₁, gap₂, gap₃, trail, rfl, hSubject, _, _, hGaps, hLead, hTrail, _⟩ := h
  obtain ⟨hSome, hGap⟩ := hGaps gap₃ (by simp)
  have hTrim := Text.trim_between (gap₁ ++ relation ++ gap₂ ++ object ++ gap₃) hLead hTrail hSubject
    (by decide : Text.IsWord ".")
  have hList : gap₃.toList ≠ [] := fun hNil => hSome (String.toList_eq_nil_iff.mp hNil)
  refine ⟨subject ++ (gap₁ ++ relation ++ gap₂ ++ object ++ gap₃), unterminated?_eq_some_iff.mpr
    ⟨?_, gap₃.toList.getLast hList, ?_, hGap _ (List.getLast_mem hList)⟩⟩
  · simp only [String.append_assoc] at hTrim ⊢
    exact hTrim
  · simp only [String.toList_append, ← List.append_assoc]
    rw [List.getLast?_append_of_ne_nil _ hList, List.getLast?_eq_some_getLast hList]

theorem words_of_unterminated {body : String} (h : unterminated? (Text.trim line) = some body) :
    Text.words line = Text.words body ++ ["."] := by
  obtain ⟨hTrim, c, hLast, hc⟩ := unterminated?_eq_some_iff.mp h
  rw [← Text.words_trim, hTrim, Text.words_append_of_getLast? hLast hc]
  rfl

theorem ofLine_eq_ok_iff :
    ofLine d line = .ok t ↔ ∃ subject relation object, Written d line subject relation object ∧
      t = ⟨d.term subject, d.term relation, d.term object⟩ := by
  rw [ofLine]
  constructor
  · intro h
    split at h
    · cases h
    · rename_i body hBody
      obtain ⟨subject, relation, object, hWords, hName, rfl⟩ := ofWords_eq_ok_iff.mp (mapError_eq_ok.mp h)
      refine ⟨subject, relation, object, written_iff_words.mpr ⟨?_, d.exists_term_eq_entity_iff.mp hName⟩, rfl⟩
      rw [words_of_unterminated hBody, hWords]
      rfl
  · rintro ⟨subject, relation, object, hWritten, rfl⟩
    obtain ⟨body, hBody⟩ := hWritten.exists_unterminated
    obtain ⟨hWords, hName⟩ := written_iff_words.mp hWritten
    rw [words_of_unterminated hBody] at hWords
    have hThree : Text.words body = [subject, relation, object] := (List.append_inj' hWords rfl).1
    simp only [hBody]
    exact mapError_eq_ok.mpr (ofWords_eq_ok_iff.mpr ⟨subject, relation, object, hThree,
      d.exists_term_eq_entity_iff.mpr hName, rfl⟩)

theorem kind_of_ofLine_eq_error {cause : Rejection} (h : ofLine d line = .error cause) :
    cause.kind = .malformedTriple := by
  rw [ofLine] at h
  split at h
  · cases h
    rfl
  · rename_i body _
    cases hWords : ofWords d (Text.trim line) (Text.words body) with
    | error fault =>
      rw [hWords] at h
      cases h
      rfl
    | ok found =>
      rw [hWords] at h
      cases h

theorem ofLines_eq_ok_iff {lines : List String} {triples : List Triple} :
    ofLines d lines = .ok triples ↔ List.Forall₂ (fun line t => ofLine d line = .ok t) lines triples := by
  rw [ofLines, mapM_eq_ok]

theorem exists_ofLine_iff : (∃ t, ofLine d line = .ok t) ↔ IsWritten d line := by
  simp only [ofLine_eq_ok_iff]
  constructor
  · rintro ⟨_, subject, relation, object, hWritten, _⟩
    exact ⟨subject, relation, object, hWritten⟩
  · rintro ⟨subject, relation, object, hWritten⟩
    exact ⟨_, subject, relation, object, hWritten, rfl⟩

theorem exists_ofLines_iff {lines : List String} :
    (∃ triples, ofLines d lines = .ok triples) ↔ ∀ line ∈ lines, IsWritten d line := by
  simp only [ofLines_eq_ok_iff, ← exists_ofLine_iff]
  exact exists_forall₂_iff

theorem ofLine_of_not_isWritten (h : ¬ IsWritten d line) :
    ∃ cause, ofLine d line = .error cause ∧ cause.kind = .malformedTriple := by
  cases hLine : ofLine d line with
  | error cause => exact ⟨cause, rfl, kind_of_ofLine_eq_error hLine⟩
  | ok t => exact absurd (exists_ofLine_iff.mp ⟨t, hLine⟩) h

theorem Written.unique {subject' relation' object' : String} (h : Written d line subject relation object)
    (h' : Written d line subject' relation' object') :
    subject = subject' ∧ relation = relation' ∧ object = object' := by
  have hWords := (written_iff_words.mp h).1.symm.trans (written_iff_words.mp h').1
  simpa using hWords

theorem ofLines_of_split {before after : List String} {triples : List Triple} {cause : Rejection}
    (hBefore : ofLines d before = .ok triples) (hLine : ofLine d line = .error cause) :
    ofLines d (before ++ line :: after) = .error cause := by
  rw [ofLines] at hBefore ⊢
  rw [List.mapM_append, hBefore, List.mapM_cons, hLine]
  rfl

/-- Exactly the written lines are triples. The three words of such a line are determined, and the triple is made of
them; any other line is malformed. Lines are read one by one, and the first that is no triple decides. -/
theorem ofLine_iff_written (d : Dialect) :
    (∀ line t, ofLine d line = .ok t ↔ ∃ subject relation object, Written d line subject relation object ∧
      t = ⟨d.term subject, d.term relation, d.term object⟩) ∧
    (∀ line subject relation object subject' relation' object', Written d line subject relation object →
      Written d line subject' relation' object' → subject = subject' ∧ relation = relation' ∧ object = object') ∧
    (∀ line, ¬ IsWritten d line → ∃ cause, ofLine d line = .error cause ∧ cause.kind = .malformedTriple) ∧
    (∀ lines, (∃ triples, ofLines d lines = .ok triples) ↔ ∀ line ∈ lines, IsWritten d line) ∧
    (∀ lines triples, ofLines d lines = .ok triples ↔
      List.Forall₂ (fun line t => ofLine d line = .ok t) lines triples) ∧
    ∀ before line after, (∀ earlier ∈ before, IsWritten d earlier) → ¬ IsWritten d line →
      ∃ cause, ofLine d line = .error cause ∧ ofLines d (before ++ line :: after) = .error cause := by
  refine ⟨fun line t => ofLine_eq_ok_iff, fun _ _ _ _ _ _ _ h h' => h.unique h', fun line => ofLine_of_not_isWritten,
    fun lines => exists_ofLines_iff, fun lines triples => ofLines_eq_ok_iff, ?_⟩
  intro before line after hBefore hLine
  obtain ⟨triples, hTriples⟩ := exists_ofLines_iff.mpr hBefore
  obtain ⟨cause, hCause, _⟩ := ofLine_of_not_isWritten hLine
  exact ⟨cause, hCause, ofLines_of_split hTriples hCause⟩

/-- The object may be a full stop itself, and any blank separates the words; a stop that stands close to a word ends
nothing. -/
theorem ofLine_iff_written_stops :
    let line := "\t?x ns:r\u00a0 . .\u3000"
    let close := "?x ns:r ns:e."
    ofLine {} line = .ok ⟨.var "x", .entity "r", .literal "."⟩ ∧
      (∀ subject relation object, Written {} line subject relation object →
        subject = "?x" ∧ relation = "ns:r" ∧ object = ".") ∧
      (∃ cause, ofLine {} close = .error cause ∧ cause.kind = .malformedTriple) ∧
      ∃ cause, ofLine {} close = .error cause ∧ ofLines {} [line, close, line] = .error cause := by
  intro line close
  obtain ⟨hOk, hUnique, hMalformed, _, _, hFirst⟩ := ofLine_iff_written {}
  have hWritten : Written {} line "?x" "ns:r" "." :=
    ⟨"\t", " ", "\u00a0 ", " ", "\u3000", rfl, by decide, by decide, by decide, by decide, by decide, by decide,
      by decide, by decide⟩
  have hClose : ¬ IsWritten {} close := by
    rintro ⟨subject, relation, object, h⟩
    have hWords := (written_iff_words.mp h).1
    have hFound : Text.words close = ["?x", "ns:r", "ns:e."] := by decide
    rw [hFound] at hWords
    simp at hWords
  have hBefore : ∀ earlier ∈ [line], IsWritten {} earlier := by
    intro earlier hEarlier
    rw [List.mem_singleton.mp hEarlier]
    exact ⟨_, _, _, hWritten⟩
  exact ⟨(hOk line _).mpr ⟨_, _, _, hWritten, rfl⟩, fun _ _ _ h => hUnique line _ _ _ _ _ _ h hWritten,
    hMalformed close hClose, hFirst [line] close [line] hBefore hClose⟩

end Triple

end LogicalForm
