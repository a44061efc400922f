import LogicalForm.Calendar.Instant

/-!
# Stamps

What a report shows of a date is a text that breaks neither a line nor one of its fields. The notations
of an instant are such texts: they are digits and a few marks.
-/

namespace LogicalForm
set_option autoImplicit false

structure Stamp where
  text : String
  noTab : '\t' ∉ text.toList
  noFeed : '\n' ∉ text.toList

instance : Inhabited Stamp := ⟨⟨"", List.not_mem_nil, List.not_mem_nil⟩⟩

namespace Instant

/-- The characters in which instants are written. -/
def isMark (c : Char) : Bool := c.isDigit || "+-.: TZ".toList.contains c

def isMarked (s : String) : Bool := s.toList.all isMark

theorem isMarked_append (s t : String) : isMarked (s ++ t) = (isMarked s && isMarked t) := by
  rw [isMarked, String.toList_append, List.all_append]
  rfl

theorem isMarked_of_digits {cs : List Char} (h : ∀ c ∈ cs, c.isDigit = true) : isMarked (String.ofList cs) = true := by
  rw [isMarked, String.toList_ofList, List.all_eq_true]
  intro c hc
  rw [isMark, h c hc, Bool.true_or]

theorem isDigit_of_mem_paddedDigits {width n : Nat} {c : Char} (h : c ∈ Text.paddedDigits width n) :
    c.isDigit = true := by
  rcases List.mem_append.mp h with hZero | hDigit
  · rw [List.eq_of_mem_replicate hZero]
    rfl
  · exact Nat.isDigit_of_mem_toDigits (by decide) (by decide) hDigit

theorem isMarked_padded (width n : Nat) : isMarked (Text.padded width n) = true :=
  isMarked_of_digits fun _ => isDigit_of_mem_paddedDigits

theorem isMarked_fraction (width n : Nat) : isMarked (Text.fraction width n) = true := by
  refine isMarked_of_digits fun c hc => ?_
  have hDigits := (List.dropWhile_sublist _).mem (List.mem_reverse.mp hc)
  exact isDigit_of_mem_paddedDigits (List.mem_reverse.mp hDigits)

theorem isMarked_toString (n : Nat) : isMarked (toString n) = true := by
  rw [Nat.toString_eq_repr, Nat.repr]
  exact isMarked_of_digits fun _ => Nat.isDigit_of_mem_toDigits (by decide) (by decide)

theorem isMarked_ite {p : Prop} [Decidable p] {s t : String} (hs : isMarked s = true) (ht : isMarked t = true) :
    isMarked (if p then s else t) = true := by
  split
  · exact hs
  · exact ht

theorem isMarked_minutesAndSeconds (seconds : Nat) : isMarked (minutesAndSeconds seconds) = true := by
  rw [minutesAndSeconds, isMarked_append, isMarked_append, isMarked_padded, isMarked_padded]
  rfl

theorem isMarked_monthAndDay (date : Date) : isMarked (monthAndDay date) = true := by
  rw [monthAndDay, isMarked_append, isMarked_append, isMarked_padded, isMarked_padded]
  rfl

theorem isMarked_offsetSign (instant : Instant) : isMarked instant.offsetSign = true :=
  isMarked_ite rfl rfl

theorem isMarked_usual (instant : Instant) : isMarked instant.usual = true := by
  have hFraction : isMarked (if (Text.fraction 9 instant.nanoseconds).isEmpty then ""
      else "." ++ Text.fraction 9 instant.nanoseconds) = true := by
    refine isMarked_ite rfl ?_
    rw [isMarked_append, isMarked_fraction]
    rfl
  have hOffset : isMarked (if instant.offset = 0 then "Z"
      else instant.offsetSign ++ Text.padded 2 (instant.offset.natAbs / 60 / 60) ++ ":" ++
        Text.padded 2 (instant.offset.natAbs / 60 % 60)) = true := by
    refine isMarked_ite rfl ?_
    simp only [isMarked_append, isMarked_offsetSign, isMarked_padded, Bool.true_and, Bool.and_true]
    rfl
  -- The equation lemma of so long a chain of texts takes seconds to make; its body is enough.
  delta usual
  simp only [isMarked_append, isMarked_padded, isMarked_monthAndDay, isMarked_minutesAndSeconds, hFraction, hOffset,
    Bool.true_and, Bool.and_true]
  rfl

theorem isMarked_plain (instant : Instant) : isMarked instant.plain = true := by
  have hFraction : isMarked (if (Text.fraction 9 instant.nanoseconds).isEmpty then "0"
      else Text.fraction 9 instant.nanoseconds) = true :=
    isMarked_ite rfl (isMarked_fraction 9 instant.nanoseconds)
  have hSign : isMarked (if instant.date.year < 0 then "-" else "") = true := isMarked_ite rfl rfl
  delta plain
  simp only [isMarked_append, isMarked_padded, isMarked_monthAndDay, isMarked_minutesAndSeconds, isMarked_toString,
    isMarked_offsetSign, hFraction, hSign, Bool.true_and, Bool.and_true]
  rfl

theorem notMem_text {c : Char} (hc : isMark c = false) (instant : Instant) : c ∉ instant.text.toList := by
  have hMarked : isMarked instant.text = true := isMarked_ite instant.isMarked_usual instant.isMarked_plain
  intro hMem
  rw [List.all_eq_true.mp hMarked c hMem] at hc
  cases hc

def stamp (instant : Instant) : Stamp := ⟨instant.text, instant.notMem_text rfl, instant.notMem_text rfl⟩

end Instant

end LogicalForm
