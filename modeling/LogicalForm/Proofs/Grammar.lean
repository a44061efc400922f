import LogicalForm.Form.Basic
import LogicalForm.Proofs.Text

/-!
# The grammar of written forms

A text is a written form if the grammar of forms makes it: names, and four operators in parentheses with their
operands behind them. A form whose names are names in that sense is read back from its text, since a name ends
before a blank or a parenthesis and the operator tells what follows. So every text has at most one parse, and
operators may serve as names.
-/

namespace LogicalForm
set_option autoImplicit false

namespace Text

/-- A word without parentheses. -/
def IsName (s : String) : Prop := IsWord s ∧ '(' ∉ s.toList ∧ ')' ∉ s.toList

instance (s : String) : Decidable (IsName s) :=
  inferInstanceAs (Decidable (IsWord s ∧ '(' ∉ s.toList ∧ ')' ∉ s.toList))

def isNameChar (c : Char) : Bool := !isBlank c && c != '(' && c != ')'

theorem isName_iff_forall {s : String} :
    IsName s ↔ s.toList ≠ [] ∧ ∀ c ∈ s.toList, isNameChar c = true := by
  simp only [IsName, IsWord, isNameChar, Bool.and_eq_true, Bool.not_eq_true', bne_iff_ne]
  constructor
  · rintro ⟨⟨hSome, hBlank⟩, hOpen, hClose⟩
    refine ⟨hSome, fun c hc => ⟨⟨hBlank c hc, ?_⟩, ?_⟩⟩
    · rintro rfl
      exact hOpen hc
    · rintro rfl
      exact hClose hc
  · rintro ⟨hSome, hAll⟩
    refine ⟨⟨hSome, fun c hc => (hAll c hc).1.1⟩, ?_, ?_⟩
    · exact fun hOpen => (hAll _ hOpen).1.2 rfl
    · exact fun hClose => (hAll _ hClose).2 rfl

def EndsName (rest : List Char) : Prop := ∀ c ∈ rest.head?, isNameChar c = false

def takeName (cs : List Char) : Option (String × List Char) :=
  if cs.takeWhile isNameChar = [] then none
  else some (String.ofList (cs.takeWhile isNameChar), cs.dropWhile isNameChar)

theorem takeName_append {name : String} (hName : IsName name) {rest : List Char} (hRest : EndsName rest) :
    takeName (name.toList ++ rest) = some (name, rest) := by
  obtain ⟨hSome, hAll⟩ := isName_iff_forall.mp hName
  have hNone : rest.takeWhile isNameChar = [] ∧ rest.dropWhile isNameChar = rest := by
    cases rest with
    | nil => exact ⟨rfl, rfl⟩
    | cons c rest => simp [hRest c rfl]
  rw [takeName, List.takeWhile_append_of_pos hAll, List.dropWhile_append_of_pos hAll, hNone.1, hNone.2,
    List.append_nil, if_neg hSome, String.ofList_toList]

theorem eq_append_of_takeName {cs rest : List Char} {name : String} (h : takeName cs = some (name, rest)) :
    cs = name.toList ++ rest ∧ IsName name := by
  rw [takeName] at h
  split at h
  · cases h
  · rename_i hSome
    cases h
    rw [isName_iff_forall, String.toList_ofList, List.takeWhile_append_dropWhile]
    exact ⟨rfl, hSome, fun c hc => List.mem_takeWhile_imp hc⟩

def skip (mark : String) (cs : List Char) : Option (List Char) := mark.toList.isPrefixOf? cs

theorem skip_eq_some_iff {mark : String} {cs rest : List Char} :
    skip mark cs = some rest ↔ cs = mark.toList ++ rest :=
  List.isPrefixOf?_eq_some_iff_append_eq.trans eq_comm

@[simp]
theorem skip_append (mark : String) (rest : List Char) : skip mark (mark.toList ++ rest) = some rest :=
  skip_eq_some_iff.mpr rfl

theorem skip_eq_none (mark : String) {c : Char} {cs : List Char} (hMark : mark.toList.head? = some c)
    (h : cs.head? ≠ some c) : skip mark cs = none := by
  rw [Option.eq_none_iff_forall_ne_some]
  intro rest hSkip
  rw [skip_eq_some_iff.mp hSkip, List.head?_append, hMark] at h
  exact h rfl

theorem IsName.head?_append {name : String} (h : IsName name) (rest : List Char) :
    (name.toList ++ rest).head? ≠ some '(' := by
  obtain ⟨⟨hSome, _⟩, hOpen, _⟩ := h
  rw [List.head?_append_of_ne_nil _ hSome]
  exact fun hHead => hOpen (List.mem_of_head? hHead)

end Text

namespace Form

section Written

/-- The atoms and relations of a form. -/
def names : Form → List String
  | atom name => [name]
  | join relation argument | inverse relation argument => relation :: argument.names
  | and left right => left.names ++ right.names
  | extreme _ body relation => relation :: body.names

def WellNamed (form : Form) : Prop := ∀ name ∈ form.names, Text.IsName name

instance (form : Form) : Decidable form.WellNamed :=
  inferInstanceAs (Decidable (∀ name ∈ form.names, Text.IsName name))

/-- The grammar: which texts are written forms, and their parses. -/
inductive Written : String → Form → Prop where
  | atom {name : String} (hName : Text.IsName name) : Written name (.atom name)
  | join {relation text : String} {argument : Form} (hRelation : Text.IsName relation) (h : Written text argument) :
    Written ("(JOIN " ++ relation ++ " " ++ text ++ ")") (.join relation argument)
  | inverse {relation text : String} {argument : Form} (hRelation : Text.IsName relation)
      (h : Written text argument) :
    Written ("(JOIN (R " ++ relation ++ ") " ++ text ++ ")") (.inverse relation argument)
  | and {text text' : String} {left right : Form} (hLeft : Written text left) (hRight : Written text' right) :
    Written ("(AND " ++ text ++ " " ++ text' ++ ")") (.and left right)
  | extreme (direction : Direction) {relation text : String} {body : Form} (h : Written text body)
      (hRelation : Text.IsName relation) :
    Written ("(" ++ direction.operator ++ " " ++ text ++ " " ++ relation ++ ")") (.extreme direction body relation)

theorem written_iff {text : String} {form : Form} : Written text form ↔ text = form.render ∧ form.WellNamed := by
  constructor
  · intro h
    induction h with
    | atom hName => exact ⟨rfl, List.forall_mem_singleton.mpr hName⟩
    | join hRelation _ ih | inverse hRelation _ ih | extreme direction _ hRelation ih =>
      rw [ih.1]
      exact ⟨rfl, List.forall_mem_cons.mpr ⟨hRelation, ih.2⟩⟩
    | and _ _ ihLeft ihRight =>
      rw [ihLeft.1, ihRight.1]
      exact ⟨rfl, List.forall_mem_append.mpr ⟨ihLeft.2, ihRight.2⟩⟩
  · rintro ⟨rfl, hNames⟩
    induction form with
    | atom name => exact .atom (hNames name List.mem_cons_self)
    | join relation argument ih =>
      obtain ⟨hRelation, hArgument⟩ := List.forall_mem_cons.mp hNames
      exact .join hRelation (ih hArgument)
    | inverse relation argument ih =>
      obtain ⟨hRelation, hArgument⟩ := List.forall_mem_cons.mp hNames
      exact .inverse hRelation (ih hArgument)
    | and left right ihLeft ihRight =>
      obtain ⟨hLeft, hRight⟩ := List.forall_mem_append.mp hNames
      exact .and (ihLeft hLeft) (ihRight hRight)
    | extreme direction body relation ih =>
      obtain ⟨hRelation, hBody⟩ := List.forall_mem_cons.mp hNames
      exact .extreme direction (ih hBody) hRelation

end Written

section Reader

inductive Opening where
  | join
  | inverse
  | and
  | extreme (direction : Direction)
  deriving DecidableEq, Repr

def Opening.mark : Opening → String
  | join => "(JOIN "
  | inverse => "(JOIN (R "
  | and => "(AND "
  | extreme .max => "(ARGMAX "
  | extreme .min => "(ARGMIN "

theorem mark_extreme (direction : Direction) :
    (Opening.extreme direction).mark = "(" ++ direction.operator ++ " " := by
  cases direction <;> rfl

/-- All openings. The one of an inverse join stands before that of a join, which it starts with. -/
def Opening.all : List Opening := [inverse, join, and, extreme .max, extreme .min]

def opening? (cs : List Char) : Option (Opening × List Char) :=
  Opening.all.findSome? fun o => (Text.skip o.mark cs).map (o, ·)

/-- Reads a form of at most so many levels at the front of a text. -/
def readForm : Nat → List Char → Option (Form × List Char)
  | 0, _ => none
  | depth + 1, cs =>
    match opening? cs with
    | none => do
      let (name, cs) ← Text.takeName cs
      some (atom name, cs)
    | some (.join, cs) => do
      let (relation, cs) ← Text.takeName cs
      let cs ← Text.skip " " cs
      let (argument, cs) ← readForm depth cs
      let cs ← Text.skip ")" cs
      some (join relation argument, cs)
    | some (.inverse, cs) => do
      let (relation, cs) ← Text.takeName cs
      let cs ← Text.skip ") " cs
      let (argument, cs) ← readForm depth cs
      let cs ← Text.skip ")" cs
      some (inverse relation argument, cs)
    | some (.and, cs) => do
      let (left, cs) ← readForm depth cs
      let cs ← Text.skip " " cs
      let (right, cs) ← readForm depth cs
      let cs ← Text.skip ")" cs
      some (and left right, cs)
    | some (.extreme direction, cs) => do
      let (body, cs) ← readForm depth cs
      let cs ← Text.skip " " cs
      let (relation, cs) ← Text.takeName cs
      let cs ← Text.skip ")" cs
      some (extreme direction body relation, cs)

/-- The form that a whole text writes. No form has more levels than its text has characters. -/
def read? (text : String) : Option Form :=
  match readForm text.length text.toList with
  | some (form, []) => some form
  | _ => none

example : read? "(AND (JOIN R JOIN) (ARGMAX (JOIN (R AND) a) b))" =
    some (and (join "R" (atom "JOIN")) (extreme .max (inverse "AND" (atom "a")) "b")) := by decide

theorem eq_append_of_opening {cs rest : List Char} {o : Opening} (h : opening? cs = some (o, rest)) :
    cs = o.mark.toList ++ rest := by
  obtain ⟨o', _, hFound⟩ := List.exists_of_findSome?_eq_some h
  obtain ⟨rest', hSkip, hPair⟩ := Option.map_eq_some_iff.mp hFound
  cases hPair
  exact Text.skip_eq_some_iff.mp hSkip

theorem opening?_append (o : Opening) {rest : List Char} (h : o = .join → rest.head? ≠ some '(') :
    opening? (o.mark.toList ++ rest) = some (o, rest) := by
  cases o with
  | join =>
    -- the opening of an inverse join is tried first; it goes on with a parenthesis, and no relation does
    have hInverse : Text.skip Opening.inverse.mark (Opening.join.mark.toList ++ rest) = none :=
      Text.skip_eq_none "(R " rfl (h rfl)
    rw [opening?, Opening.all, List.findSome?_cons, hInverse]
    rfl
  | inverse | and => rfl
  | extreme direction => cases direction <;> rfl

theorem opening?_eq_none {cs : List Char} (h : cs.head? ≠ some '(') : opening? cs = none := by
  rw [opening?, List.findSome?_eq_none_iff]
  intro o _
  have hMark : o.mark.toList.head? = some '(' := by
    cases o with
    | extreme direction => cases direction <;> rfl
    | join | inverse | and => rfl
  rw [Text.skip_eq_none o.mark hMark h]
  rfl

theorem size_le_length_render {form : Form} (h : form.WellNamed) : form.size ≤ form.render.length := by
  have hMark : 0 < (")" : String).length := by decide
  induction form with
  | atom name =>
    have hSome := List.length_pos_iff.mpr (h name List.mem_cons_self).1.1
    rw [String.length_toList] at hSome
    exact hSome
  | join relation argument ih | inverse relation argument ih =>
    have hArgument := ih (List.forall_mem_cons.mp h).2
    simp only [size, render, String.length_append]
    omega
  | and left right ihLeft ihRight =>
    obtain ⟨hLeft, hRight⟩ := List.forall_mem_append.mp h
    have hLess := ihLeft hLeft
    have hLess' := ihRight hRight
    simp only [size, render, String.length_append]
    omega
  | extreme direction body relation ih =>
    have hBody := ih (List.forall_mem_cons.mp h).2
    simp only [size, render, String.length_append]
    omega

/-- Reading is complete: a form with proper names is found at the front of its text. -/
theorem readForm_render {form : Form} (h : form.WellNamed) {depth : Nat} (hDepth : form.size ≤ depth)
    {rest : List Char} (hRest : Text.EndsName rest) :
    readForm depth (form.render.toList ++ rest) = some (form, rest) := by
  -- whatever a form has after a name or an operand ends a name, so the names are read off whole
  have hBlank : ∀ rest, Text.EndsName (" ".toList ++ rest) := by rintro rest c ⟨⟩; rfl
  have hClose : ∀ rest, Text.EndsName (")".toList ++ rest) := by rintro rest c ⟨⟩; rfl
  have hCloseBlank : ∀ rest, Text.EndsName (") ".toList ++ rest) := by rintro rest c ⟨⟩; rfl
  induction form generalizing depth rest with
  | atom name =>
    have hName := h name List.mem_cons_self
    cases depth with
    | zero => cases hDepth
    | succ depth =>
      simp only [readForm, render, opening?_eq_none (hName.head?_append rest), Text.takeName_append hName hRest,
        Option.bind_eq_bind, Option.bind_some]
  | join relation argument ih =>
    obtain ⟨hRelation, hArgument⟩ := List.forall_mem_cons.mp h
    have hText : (join relation argument).render.toList ++ rest = Opening.join.mark.toList ++
        (relation.toList ++ (" ".toList ++ (argument.render.toList ++ (")".toList ++ rest)))) := by
      simp only [render, Opening.mark, String.toList_append, List.append_assoc]
    cases depth with
    | zero => cases hDepth
    | succ depth =>
      have hLess := Nat.le_of_succ_le_succ hDepth
      simp only [hText, readForm, opening?_append .join fun _ => hRelation.head?_append _,
        Text.takeName_append hRelation (hBlank _), Text.skip_append, ih hArgument hLess (hClose _),
        Option.bind_eq_bind, Option.bind_some]
  | inverse relation argument ih =>
    obtain ⟨hRelation, hArgument⟩ := List.forall_mem_cons.mp h
    have hText : (inverse relation argument).render.toList ++ rest = Opening.inverse.mark.toList ++
        (relation.toList ++ (") ".toList ++ (argument.render.toList ++ (")".toList ++ rest)))) := by
      simp only [render, Opening.mark, String.toList_append, List.append_assoc]
    cases depth with
    | zero => cases hDepth
    | succ depth =>
      have hLess := Nat.le_of_succ_le_succ hDepth
      simp only [hText, readForm, opening?_append .inverse nofun,
        Text.takeName_append hRelation (hCloseBlank _), Text.skip_append, ih hArgument hLess (hClose _),
        Option.bind_eq_bind, Option.bind_some]
  | and left right ihLeft ihRight =>
    obtain ⟨hLeft, hRight⟩ := List.forall_mem_append.mp h
    have hText : (and left right).render.toList ++ rest = Opening.and.mark.toList ++
        (left.render.toList ++ (" ".toList ++ (right.render.toList ++ (")".toList ++ rest)))) := by
      simp only [render, Opening.mark, String.toList_append, List.append_assoc]
    cases depth with
    | zero => cases hDepth
    | succ depth =>
      have hLess : left.size + right.size ≤ depth := Nat.le_of_succ_le_succ hDepth
      simp only [hText, readForm, opening?_append .and nofun, Text.skip_append,
        ihLeft hLeft (by omega : left.size ≤ depth) (hBlank _),
        ihRight hRight (by omega : right.size ≤ depth) (hClose _), Option.bind_eq_bind, Option.bind_some]
  | extreme direction body relation ih =>
    obtain ⟨hRelation, hBody⟩ := List.forall_mem_cons.mp h
    have hText : (extreme direction body relation).render.toList ++ rest = (Opening.extreme direction).mark.toList ++
        (body.render.toList ++ (" ".toList ++ (relation.toList ++ (")".toList ++ rest)))) := by
      simp only [render, mark_extreme, String.toList_append, List.append_assoc]
    cases depth with
    | zero => cases hDepth
    | succ depth =>
      have hLess := Nat.le_of_succ_le_succ hDepth
      simp only [hText, readForm, opening?_append (.extreme direction) nofun,
        Text.takeName_append hRelation (hClose _), Text.skip_append, ih hBody hLess (hBlank _),
        Option.bind_eq_bind, Option.bind_some]

/-- Reading is sound: what is read is the text of the form it is read as, with proper names. -/
theorem eq_append_of_readForm {depth : Nat} {cs rest : List Char} {form : Form}
    (h : readForm depth cs = some (form, rest)) : cs = form.render.toList ++ rest ∧ form.WellNamed := by
  induction depth generalizing cs rest form with
  | zero => cases h
  | succ depth ih =>
    rw [readForm] at h
    split at h <;>
      simp only [Option.bind_eq_bind, Option.bind_eq_some_iff, Prod.exists, Text.skip_eq_some_iff, Option.some.injEq,
        Prod.mk.injEq] at h
    · obtain ⟨name, cs, hTake, rfl, rfl⟩ := h
      obtain ⟨rfl, hName⟩ := Text.eq_append_of_takeName hTake
      exact ⟨rfl, List.forall_mem_singleton.mpr hName⟩
    · rename_i hOpening
      obtain ⟨relation, _, hTake, _, rfl, argument, _, hRead, _, rfl, rfl, rfl⟩ := h
      obtain ⟨rfl, hRelation⟩ := Text.eq_append_of_takeName hTake
      obtain ⟨rfl, hArgument⟩ := ih hRead
      refine ⟨?_, List.forall_mem_cons.mpr ⟨hRelation, hArgument⟩⟩
      simp only [eq_append_of_opening hOpening, render, Opening.mark, String.toList_append, List.append_assoc]
    · rename_i hOpening
      obtain ⟨relation, _, hTake, _, rfl, argument, _, hRead, _, rfl, rfl, rfl⟩ := h
      obtain ⟨rfl, hRelation⟩ := Text.eq_append_of_takeName hTake
      obtain ⟨rfl, hArgument⟩ := ih hRead
      refine ⟨?_, List.forall_mem_cons.mpr ⟨hRelation, hArgument⟩⟩
      simp only [eq_append_of_opening hOpening, render, Opening.mark, String.toList_append, List.append_assoc]
    · rename_i hOpening
      obtain ⟨left, _, hRead, _, rfl, right, _, hRead', _, rfl, rfl, rfl⟩ := h
      obtain ⟨rfl, hLeft⟩ := ih hRead
      obtain ⟨rfl, hRight⟩ := ih hRead'
      refine ⟨?_, List.forall_mem_append.mpr ⟨hLeft, hRight⟩⟩
      simp only [eq_append_of_opening hOpening, render, Opening.mark, String.toList_append, List.append_assoc]
    · rename_i direction _ hOpening
      obtain ⟨body, _, hRead, _, rfl, relation, _, hTake, _, rfl, rfl, rfl⟩ := h
      obtain ⟨rfl, hBody⟩ := ih hRead
      obtain ⟨rfl, hRelation⟩ := Text.eq_append_of_takeName hTake
      refine ⟨?_, List.forall_mem_cons.mpr ⟨hRelation, hBody⟩⟩
      simp only [eq_append_of_opening hOpening, render, mark_extreme, String.toList_append, List.append_assoc]

/-- The reader finds exactly the parses of the grammar. -/
theorem read?_eq_some_iff {text : String} {form : Form} : read? text = some form ↔ Written text form := by
  rw [written_iff]
  constructor
  · intro h
    rw [read?] at h
    split at h
    · rename_i hRead
      cases h
      obtain ⟨hText, hNames⟩ := eq_append_of_readForm hRead
      rw [List.append_nil, String.toList_inj] at hText
      exact ⟨hText, hNames⟩
    · cases h
  · rintro ⟨rfl, hNames⟩
    have hRead : readForm form.render.length (form.render.toList ++ []) = some (form, []) :=
      readForm_render hNames (size_le_length_render hNames) nofun
    rw [List.append_nil] at hRead
    rw [read?, hRead]

theorem read?_eq_none_iff {text : String} : read? text = none ↔ ∀ form, ¬ Written text form := by
  simp only [Option.eq_none_iff_forall_ne_some, ne_eq, read?_eq_some_iff]

theorem Written.unique {text : String} {form form' : Form} (h : Written text form) (h' : Written text form') :
    form = form' :=
  Option.some.inj ((read?_eq_some_iff.mpr h).symm.trans (read?_eq_some_iff.mpr h'))

/-- Where a form ends is settled by its text, whatever follows. -/
theorem render_append_inj {form form' : Form} (h : form.WellNamed) (h' : form'.WellNamed) {rest rest' : List Char}
    (hRest : Text.EndsName rest) (hRest' : Text.EndsName rest') :
    form.render.toList ++ rest = form'.render.toList ++ rest' ↔ form = form' ∧ rest = rest' := by
  constructor
  · intro hText
    have hRead := readForm_render h (Nat.le_max_left form.size form'.size) hRest
    have hRead' := readForm_render h' (Nat.le_max_right form.size form'.size) hRest'
    rw [hText, hRead', Option.some.injEq, Prod.mk.injEq] at hRead
    exact ⟨hRead.1.symm, hRead.2.symm⟩
  · rintro ⟨rfl, rfl⟩
    rfl

end Reader

/-- Rendering is unambiguous for forms with proper names, operators among them. The reader returns each from its
text and nothing from a text that is none of theirs; two of them have the same text only if they are the same,
even with more behind them that ends a name. -/
theorem render_unambiguous :
    (∀ form : Form, form.WellNamed → read? form.render = some form) ∧
    (∀ (text : String) (form : Form), read? text = some form → form.WellNamed ∧ form.render = text) ∧
    ∀ form form' : Form, form.WellNamed → form'.WellNamed →
      (form.render = form'.render ↔ form = form') ∧
      ∀ rest rest' : List Char, Text.EndsName rest → Text.EndsName rest' →
        (form.render.toList ++ rest = form'.render.toList ++ rest' ↔ form = form' ∧ rest = rest') := by
  refine ⟨fun form h => read?_eq_some_iff.mpr (written_iff.mpr ⟨rfl, h⟩), fun text form h => ?_,
    fun form form' h h' => ⟨?_, fun rest rest' => render_append_inj h h'⟩⟩
  · obtain ⟨hText, hNames⟩ := written_iff.mp (read?_eq_some_iff.mp h)
    exact ⟨hNames, hText.symm⟩
  · have hEnd : Text.EndsName [] := by
      intro c hc
      cases hc
    have hAlone := render_append_inj h h' hEnd hEnd
    rw [List.append_nil, List.append_nil, String.toList_inj] at hAlone
    exact hAlone.trans (and_iff_left rfl)

/-- Names that are operators do not mislead the reader, nor does the opening that two joins share. -/
theorem render_unambiguous_operators :
    let form : Form := .and (.join "JOIN" (.atom "AND")) (.extreme .max (.inverse "R" (.atom "ARGMIN")) "ARGMAX")
    read? "(AND (JOIN JOIN AND) (ARGMAX (JOIN (R R) ARGMIN) ARGMAX))" = some form ∧
      (join "R" (.atom "JOIN")).render ≠ (inverse "R" (.atom "JOIN")).render := by
  intro form
  have hText : form.render = "(AND (JOIN JOIN AND) (ARGMAX (JOIN (R R) ARGMIN) ARGMAX))" := by decide
  refine ⟨hText ▸ render_unambiguous.1 form (by decide), fun hSame => ?_⟩
  cases (render_unambiguous.2.2 _ _ (by decide) (by decide)).1.mp hSame

end Form

end LogicalForm
