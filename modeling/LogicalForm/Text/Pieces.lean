/-!
# Cutting a list into pieces

Splitting at every element that satisfies a test, and cutting once at the first such element. Words,
lines, dotted names and paths are all read through these two operations; lines are the pieces between
feeds, of characters or of bytes.
-/

namespace LogicalForm.Text
set_option autoImplicit false

variable {α : Type}

/-- The runs between the separators. There is always one more run than there are separators, and a
run may be empty. -/
def pieces (sep : α → Bool) (as : List α) : List (List α) :=
  as.foldr (fun a runs => if sep a then [] :: runs else runs.modifyHead (a :: ·)) [[]]

theorem pieces_nil (sep : α → Bool) : pieces sep [] = [[]] := rfl

theorem pieces_cons (sep : α → Bool) (a : α) (as : List α) :
    pieces sep (a :: as) =
      if sep a then [] :: pieces sep as else (pieces sep as).modifyHead (a :: ·) := rfl

def cut? (sep : α → Bool) (as : List α) : Option (List α × List α) :=
  match as.dropWhile (!sep ·) with
  | [] => none
  | _ :: rest => some (as.takeWhile (!sep ·), rest)

def dropLastMark [BEq α] (mark : α) (as : List α) : List α :=
  if as.getLast? == some mark then as.dropLast else as

/-- A feed ends a line, together with one return right before it. What follows the last feed is a line
as it stands, unless it is empty. -/
def lineRuns [BEq α] (carriageReturn feed : α) (as : List α) : List (List α) :=
  let runs := pieces (· == feed) as
  runs.dropLast.map (dropLastMark carriageReturn) ++ runs.getLast?.toList.filter (!·.isEmpty)

def occurs [BEq α] (pattern : List α) : List α → Bool
  | [] => pattern.isEmpty
  | a :: as => pattern.isPrefixOf (a :: as) || occurs pattern as

theorem pieces_ne_nil (sep : α → Bool) (as : List α) : pieces sep as ≠ [] := by
  induction as with
  | nil => simp [pieces_nil]
  | cons a as ih =>
    rw [pieces_cons]
    split
    · simp
    · cases h : pieces sep as with
      | nil => exact absurd h ih
      | cons piece rest => simp

theorem pieces_eq_singleton {sep : α → Bool} {as : List α} (h : ∀ a ∈ as, sep a = false) :
    pieces sep as = [as] := by
  induction as with
  | nil => rfl
  | cons a as ih =>
    rw [pieces_cons, h a List.mem_cons_self, ih fun b hb => h b (List.mem_cons_of_mem a hb)]
    rfl

theorem pieces_append_cons {sep : α → Bool} {as : List α} {a : α} (bs : List α)
    (h : ∀ b ∈ as, sep b = false) (ha : sep a = true) :
    pieces sep (as ++ a :: bs) = as :: pieces sep bs := by
  induction as with
  | nil => simp [pieces_cons, ha]
  | cons b as ih =>
    rw [List.cons_append, pieces_cons, h b List.mem_cons_self,
      ih fun c hc => h c (List.mem_cons_of_mem b hc)]
    rfl

theorem cut?_append_cons {sep : α → Bool} {as : List α} {a : α} (bs : List α)
    (h : ∀ b ∈ as, sep b = false) (ha : sep a = true) :
    cut? sep (as ++ a :: bs) = some (as, bs) := by
  induction as with
  | nil => simp [cut?, ha]
  | cons b as ih =>
    have hb := h b List.mem_cons_self
    have hRest := ih fun c hc => h c (List.mem_cons_of_mem b hc)
    rw [cut?] at hRest ⊢
    simp only [List.cons_append, List.dropWhile_cons, hb, Bool.not_false, if_true,
      List.takeWhile_cons]
    cases hDrop : (as ++ a :: bs).dropWhile (!sep ·) with
    | nil => simp [hDrop] at hRest
    | cons c rest =>
      simp only [hDrop, Option.some.injEq, Prod.mk.injEq] at hRest ⊢
      exact ⟨congrArg (b :: ·) hRest.1, hRest.2⟩

end LogicalForm.Text
