import LogicalForm.Proofs.Template
import LogicalForm.Proofs.TripleLine

/-!
# Reading by position

The lines of a query can also be read by number: the readers below ask for the line at a position or for the
lines between two positions, and most positions are counted from the end. A position that the lines do not have
ends the reading for a reason of its own. That reason is never met: whatever the text, reading by position gives
what the readers give that match on the lines.
-/

namespace LogicalForm
set_option autoImplicit false

namespace Text

/-- The bytes of a text in UTF-8. -/
def bytes (s : String) : List UInt8 := s.toList.flatMap String.utf8EncodeChar

/-- The characters that take up the first bytes. There are none if the bytes end within a character. -/
def takeBytes? : Nat → List Char → Option (List Char)
  | 0, _ => some []
  | _ + 1, [] => none
  | n + 1, c :: cs =>
    if c.utf8Size ≤ n + 1 then (takeBytes? (n + 1 - c.utf8Size) cs).map (c :: ·) else none

def firstBytes? (n : Nat) (s : String) : Option String := (takeBytes? n s.toList).map String.ofList

def isDigitByte (b : UInt8) : Bool := 48 ≤ b && b ≤ 57

theorem flatMap_utf8EncodeChar_eq_nil_iff {run : List Char} :
    (run.flatMap String.utf8EncodeChar).length = 0 ↔ run = [] := by
  cases run with
  | nil => simp
  | cons c run =>
    have hPos := c.utf8Size_pos
    simp only [List.flatMap_cons, List.length_append, String.length_utf8EncodeChar, reduceCtorEq, iff_false]
    omega

theorem takeBytes?_eq_some_iff {n : Nat} {cs run : List Char} :
    takeBytes? n cs = some run ↔ (run.flatMap String.utf8EncodeChar).length = n ∧ ∃ rest, cs = run ++ rest := by
  induction cs generalizing n run with
  | nil =>
    cases n with
    | zero =>
      rw [takeBytes?, Option.some.injEq, flatMap_utf8EncodeChar_eq_nil_iff]
      exact ⟨fun h => ⟨h.symm, [], by rw [← h]; rfl⟩, fun h => h.1.symm⟩
    | succ n =>
      simp only [takeBytes?, reduceCtorEq, false_iff, not_and, not_exists]
      intro hLength rest hRest
      rw [(List.append_eq_nil_iff.mp hRest.symm).1] at hLength
      cases hLength
  | cons c cs ih =>
    cases n with
    | zero =>
      rw [takeBytes?, Option.some.injEq, flatMap_utf8EncodeChar_eq_nil_iff]
      exact ⟨fun h => ⟨h.symm, c :: cs, by rw [← h]; rfl⟩, fun h => h.1.symm⟩
    | succ n =>
      rw [takeBytes?]
      constructor
      · intro h
        rw [Option.ite_none_right_eq_some] at h
        obtain ⟨hFits, h⟩ := h
        obtain ⟨more, hMore, rfl⟩ := Option.map_eq_some_iff.mp h
        obtain ⟨hLength, rest, rfl⟩ := ih.mp hMore
        refine ⟨?_, rest, rfl⟩
        rw [List.flatMap_cons, List.length_append, String.length_utf8EncodeChar, hLength]
        omega
      · rintro ⟨hLength, rest, hRest⟩
        cases run with
        | nil => cases hLength
        | cons c' more =>
          rw [List.cons_append] at hRest
          obtain ⟨rfl, rfl⟩ := List.cons.inj hRest
          rw [List.flatMap_cons, List.length_append, String.length_utf8EncodeChar] at hLength
          have hMore : takeBytes? (n + 1 - c.utf8Size) (more ++ rest) = some more :=
            ih.mpr ⟨by omega, rest, rfl⟩
          rw [if_pos (by omega), hMore, Option.map_some]

theorem length_bytes (s : String) : (bytes s).length = s.utf8ByteSize := by
  rw [← String.size_toByteArray, ← String.utf8Encode_toList]
  simp [bytes, List.utf8Encode]

theorem firstBytes?_eq_some_iff {n : Nat} {s run : String} :
    firstBytes? n s = some run ↔ run.utf8ByteSize = n ∧ ∃ rest, s = run ++ rest := by
  rw [firstBytes?, Option.map_eq_some_iff, ← length_bytes]
  constructor
  · rintro ⟨cs, hTake, rfl⟩
    obtain ⟨hLength, rest, hRest⟩ := takeBytes?_eq_some_iff.mp hTake
    refine ⟨by rw [bytes, String.toList_ofList, hLength], String.ofList rest, ?_⟩
    rw [← String.toList_inj, String.toList_append, String.toList_ofList, String.toList_ofList, hRest]
  · rintro ⟨hLength, rest, rfl⟩
    exact ⟨run.toList, takeBytes?_eq_some_iff.mpr ⟨hLength, rest.toList, String.toList_append⟩, String.ofList_toList⟩

theorem isDigitByte_iff {b : UInt8} : isDigitByte b = true ↔ 48 ≤ b.toNat ∧ b.toNat ≤ 57 := by
  simp [isDigitByte, UInt8.le_iff_toNat_le]

/-- The first byte of a character that takes up more than one is no digit. -/
theorem all_isDigitByte_utf8EncodeChar_iff {c : Char} :
    (∀ b ∈ String.utf8EncodeChar c, isDigitByte b = true) ↔ c.isDigit = true := by
  have hNat : c.val.toNat = c.toNat := rfl
  rw [isDigit_iff, String.utf8EncodeChar, hNat]
  split
  · simp only [List.mem_singleton, forall_eq, isDigitByte_iff, UInt8.toNat_ofNat']
    omega
  · split
    · simp only [List.forall_mem_cons, isDigitByte_iff, UInt8.toNat_ofNat']
      omega
    · split
      · simp only [List.forall_mem_cons, isDigitByte_iff, UInt8.toNat_ofNat']
        omega
      · simp only [List.forall_mem_cons, isDigitByte_iff, UInt8.toNat_ofNat']
        omega

theorem length_utf8EncodeChar_of_isDigit {c : Char} (h : c.isDigit = true) : (String.utf8EncodeChar c).length = 1 := by
  rw [isDigit_iff] at h
  have hNat : c.val.toNat = c.toNat := rfl
  rw [String.utf8EncodeChar, hNat, if_pos (by omega)]
  rfl

theorem all_isDigitByte_bytes_iff {s : String} :
    (bytes s).all isDigitByte = true ↔ s.toList.all Char.isDigit = true := by
  simp only [bytes, List.all_eq_true, List.mem_flatMap, forall_exists_index, and_imp]
  constructor
  · intro h c hc
    exact all_isDigitByte_utf8EncodeChar_iff.mp fun b hb => h b c hc hb
  · intro h b c hc hb
    exact all_isDigitByte_utf8EncodeChar_iff.mpr (h c hc) b hb

theorem length_flatMap_of_digits {cs : List Char} (h : cs.all Char.isDigit = true) :
    (cs.flatMap String.utf8EncodeChar).length = cs.length := by
  induction cs with
  | nil => rfl
  | cons c cs ih =>
    rw [List.all_cons, Bool.and_eq_true] at h
    rw [List.flatMap_cons, List.length_append, length_utf8EncodeChar_of_isDigit h.1, ih h.2, List.length_cons,
      Nat.add_comm]

theorem utf8ByteSize_of_digits {s : String} (h : s.toList.all Char.isDigit = true) :
    s.utf8ByteSize = s.toList.length :=
  (length_bytes s).symm.trans (length_flatMap_of_digits h)

end Text

namespace Positional

/-- Why a reading by position ends before its end. -/
inductive Stop where
  | rejected (cause : Rejection)
  | outOfRange
  deriving DecidableEq, Repr

variable {α : Type}

def given (outcome : Except Rejection α) : Except Stop α := outcome.mapError .rejected

def checked (outcome : Except Mismatch α) : Except Stop α := given (outcome.mapError .structural)

def mismatch (cause : Mismatch) : Except Stop α := .error (.rejected (.structural cause))

def item (as : List α) (i : Nat) : Except Stop α :=
  match as[i]? with
  | some a => .ok a
  | none => .error .outOfRange

/-- The items from a position up to another one, which is not included. -/
def slice (as : List α) (first last : Nat) : Except Stop (List α) :=
  if first ≤ last ∧ last ≤ as.length then .ok ((as.take last).drop first) else .error .outOfRange

/-- The position that many items before the end. -/
def fromEnd (as : List α) (n : Nat) : Except Stop Nat :=
  if n ≤ as.length then .ok (as.length - n) else .error .outOfRange

/-- What follows the header at a position, from the line that opens the block to the last one. -/
def afterHeader (d : Dialect) (lines : List String) (position : Nat) : Except Stop (List String) := do
  let header ← item lines position
  if !Block.selects d header then mismatch (.header d.answerVariable header)
  else if lines[position + 1]? ≠ some Block.openLine then mismatch .opening
  else if (lines.getLast?.bind Block.ending?).isNone then mismatch .ending
  else
    let block ← slice lines (position + 1) lines.length
    if block.any (Text.contains Block.stringFilterMark) then .error (.rejected .stringFilter) else .ok block

def block (d : Dialect) (text : String) : Except Stop (List String) :=
  let lines := Text.contentLines text
  match lines.head? with
  | none => mismatch .emptyQuery
  | some first =>
    if first = d.manualMarker then mismatch .manual
    else
      match lines.findIdx? (!Text.startsWith Block.declarationMark ·) with
      | none => mismatch .prefixesOnly
      | some position => afterHeader d lines position

def shape (block : List String) : Except Stop Shape :=
  if block.getLast? = some Block.limitLine then .ok .superlative
  else if 4 ≤ block.length then do
    let line ← item block (← fromEnd block 4)
    .ok (if Text.startsWith Block.guardMark line then .range else .plain)
  else .ok .plain

def plain (block : List String) : Except Stop Reduced := do
  let inner ← slice block 1 (← fromEnd block 1)
  .ok ⟨inner, .none⟩

def superlative (d : Dialect) (block : List String) : Except Stop Reduced :=
  if block.length < 4 then mismatch .unclosed
  else do
    let close ← item block (← fromEnd block 3)
    if close ≠ Block.closeLine then mismatch .unclosed
    else
      let order ← item block (← fromEnd block 2)
      if !Text.contains d.auxiliaryVariable order then mismatch (.ordering order d.auxiliaryVariable)
      else
        let inner ← slice block 1 (← fromEnd block 3)
        match inner.filter (Text.contains d.auxiliaryVariable) with
        | [line] => do
          let condition ← given (Superlative.condition d (Superlative.direction order) line)
          .ok ⟨inner.filter (!Text.contains d.auxiliaryVariable ·), condition⟩
        | candidates => .error (.rejected (.ambiguous candidates.length))

def domain (relation : String) : Except Stop String :=
  let segments := Text.segments relation
  if segments.length < 3 then mismatch (.shortRelation relation)
  else do
    let shared ← slice segments 0 2
    .ok (".".intercalate shared)

/-- The six lines before the last one. -/
def tail (block : List String) : Except Stop (List String) := do
  slice block (← fromEnd block 7) (← fromEnd block 1)

def bounds (d : Dialect) (block : List String) : Except Stop Range.Bounds :=
  if block.length < 8 then mismatch .truncated
  else do
    let tail ← tail block
    let first ← checked (Range.Guard.ofLine (← item tail 0))
    let second ← checked (Range.Guard.ofLine (← item tail 3))
    if first.pivot ≠ second.pivot then mismatch (.pivots first.pivot second.pivot)
    else
      let start := d.localName first.relation
      let stop := d.localName second.relation
      let startDomain ← domain start
      let stopDomain ← domain stop
      if startDomain ≠ stopDomain then mismatch (.relations start stop)
      else .ok ⟨first.pivot, start, stop, startDomain⟩

/-- The first four bytes of a date, if they are characters and digits. -/
def year (date : String) : Except Stop String :=
  match Text.firstBytes? 4 date with
  | none => mismatch (.noYear date)
  | some digits => if (Text.bytes digits).all Text.isDigitByte then .ok digits else mismatch (.noYear date)

def commonYear (tail : List String) : Except Stop String := do
  let start ← year (← checked (Range.quoted (← item tail 2)))
  let stop ← year (← checked (Range.quoted (← item tail 5)))
  if start ≠ stop then mismatch (.years start stop) else .ok start

def range (d : Dialect) (block : List String) : Except Stop Reduced := do
  let bounds ← bounds d block
  let year ← commonYear (← tail block)
  let condition ← checked (Range.condition d bounds year)
  let inner ← slice block 1 (← fromEnd block 7)
  .ok ⟨inner, condition⟩

def dropFilters (lines : List String) : Except Stop (List String) :=
  match lines.head? with
  | none => mismatch .emptyBody
  | some first =>
    if Text.startsWith Reduced.filterMark first then
      if lines.length ≤ 2 then mismatch .guardsOnly else slice lines 2 lines.length
    else .ok lines

def split (d : Dialect) (block : List String) : Except Stop Reduced := do
  match ← shape block with
  | .plain => plain block
  | .superlative => superlative d block
  | .range => range d block

def ofText (d : Dialect) (text : String) : Except Stop Reduced := do
  let parts ← split d (← block d text)
  let kept ← dropFilters parts.body
  let body ← checked (Reduced.checkLines d kept)
  .ok ⟨body, parts.condition⟩

def timeMacro (d : Dialect) (block : List String) : Except Stop Range.TimeMacro := do
  let bounds ← bounds d block
  .ok ⟨bounds.domain, Range.lastSegment bounds.start, Range.lastSegment bounds.stop⟩

def timeMacro? (d : Dialect) (text : String) : Except Stop (Option Range.TimeMacro) := do
  let block ← block d text
  match ← shape block with
  | .range => (timeMacro d block).map some
  | _ => .ok none

section Access

variable {as before middle after : List α} {a : α}

theorem item_append (before after : List α) (a : α) : item (before ++ a :: after) before.length = .ok a := by
  rw [item, List.getElem?_append_right (Nat.le_refl _), Nat.sub_self]
  rfl

theorem item_cons_zero (a : α) (as : List α) : item (a :: as) 0 = .ok a := rfl

theorem item_cons_succ (a : α) (as : List α) (i : Nat) : item (a :: as) (i + 1) = item as i := rfl

theorem slice_append (before middle after : List α) :
    slice (before ++ (middle ++ after)) before.length (before.length + middle.length) = .ok middle := by
  have hBounds : before.length ≤ before.length + middle.length ∧
      before.length + middle.length ≤ (before ++ (middle ++ after)).length := by
    simp only [List.length_append]
    omega
  rw [slice, if_pos hBounds, ← List.append_assoc, ← List.length_append, List.take_left, List.drop_left]

/-- The items between the first one and the rest. -/
theorem slice_one_append (a : α) (middle after : List α) :
    slice (a :: (middle ++ after)) 1 (middle.length + 1) = .ok middle := by
  rw [Nat.add_comm]
  exact slice_append [a] middle after

theorem fromEnd_append (before after : List α) : fromEnd (before ++ after) after.length = .ok before.length := by
  rw [fromEnd, if_pos (by simp), List.length_append, Nat.add_sub_cancel]

end Access

section Lifting

variable {β : Type}

theorem given_bind (step : Except Rejection α) (next : α → Except Rejection β) :
    given (step >>= next) = given step >>= fun a => given (next a) := by
  cases step <;> rfl

theorem checked_bind (step : Except Mismatch α) (next : α → Except Mismatch β) :
    checked (step >>= next) = checked step >>= fun a => checked (next a) := by
  cases step <;> rfl

theorem given_ite {p : Prop} [Decidable p] (cause : Rejection) (step : Except Rejection α) :
    given (if p then .error cause else step) = if p then .error (.rejected cause) else given step := by
  split <;> rfl

theorem checked_ite {p : Prop} [Decidable p] (cause : Mismatch) (step : Except Mismatch α) :
    checked (if p then .error cause else step) = if p then mismatch cause else checked step := by
  split <;> rfl

end Lifting

section Blocks

/-- The lines of a block with the two around them. -/
def whole (block : Block) : List String := Block.openLine :: (block.lines ++ [block.ending.line])

theorem exists_append_of_le_length {as : List α} {n : Nat} (h : n ≤ as.length) :
    ∃ before after, as = before ++ after ∧ after.length = n := by
  refine ⟨as.take (as.length - n), as.drop (as.length - n), (List.take_append_drop _ _).symm, ?_⟩
  rw [List.length_drop]
  omega

variable (d : Dialect)

theorem superlative_whole (block : Block) : superlative d (whole block) = given (Superlative.reduce d block.lines) := by
  obtain ⟨lines, ending⟩ := block
  rcases Nat.lt_or_ge lines.length 2 with hShort | hLong
  · have hLength : (whole ⟨lines, ending⟩).length < 4 := by
      simp only [whole, List.length_cons, List.length_append, List.length_nil]
      omega
    rw [superlative, if_pos hLength]
    match lines, hShort with
    | [], _ => rfl
    | [line], _ => rfl
  · obtain ⟨inner, tail, rfl, hTail⟩ := exists_append_of_le_length hLong
    obtain ⟨close, order, rfl⟩ := List.length_eq_two.mp hTail
    have hWhole : whole ⟨inner ++ [close, order], ending⟩ =
        Block.openLine :: (inner ++ [close, order, ending.line]) := by
      simp [whole]
    have hLength : ¬ (Block.openLine :: (inner ++ [close, order, ending.line])).length < 4 := by
      simp only [List.length_cons, List.length_append, List.length_nil]
      omega
    have hClose := item_append (Block.openLine :: inner) [order, ending.line] close
    have hOrder := item_append (Block.openLine :: (inner ++ [close])) [ending.line] order
    have hThird := fromEnd_append (Block.openLine :: inner) [close, order, ending.line]
    have hSecond := fromEnd_append (Block.openLine :: (inner ++ [close])) [order, ending.line]
    have hInner := slice_one_append Block.openLine inner [close, order, ending.line]
    have hReverse : (inner ++ [close, order]).reverse = order :: close :: inner.reverse := by simp
    simp only [List.cons_append, List.append_assoc, List.nil_append, List.length_cons, List.length_append,
      List.length_nil] at hClose hOrder hThird hSecond hInner
    rw [hWhole, superlative, if_neg hLength, Superlative.reduce, hReverse]
    simp only [hThird, hSecond, hClose, hOrder, hInner, ok_bind, List.reverse_reverse, given_ite]
    split
    · rfl
    · split
      · rfl
      · generalize inner.filter (Text.contains d.auxiliaryVariable) = candidates
        rcases candidates with _ | ⟨line, _ | ⟨other, more⟩⟩
        · rfl
        · simp only [given_bind]
          rfl
        · rfl

theorem length_whole (block : Block) : (whole block).length = block.lines.length + 2 := by
  rw [whole, List.length_cons, List.length_append, List.length_singleton]

theorem plain_whole (block : Block) : plain (whole block) = .ok ⟨block.lines, .none⟩ := by
  have hLast := fromEnd_append (Block.openLine :: block.lines) [block.ending.line]
  have hLines := slice_one_append Block.openLine block.lines [block.ending.line]
  simp only [List.cons_append, List.length_cons, List.length_nil] at hLast
  rw [plain, whole]
  simp only [hLast, hLines, ok_bind]

theorem shape_whole (block : Block) : shape (whole block) = .ok block.shape := by
  obtain ⟨lines, ending⟩ := block
  have hLast : (whole ⟨lines, ending⟩).getLast? = some ending.line := by
    rw [whole, ← List.cons_append, List.getLast?_concat]
  rw [shape, hLast]
  cases ending with
  | limit => rfl
  | brace =>
    rw [if_neg (by decide)]
    rcases Nat.lt_or_ge lines.length 3 with hShort | hLong
    · -- With two lines the fourth one from the end opens the block, and that is no guard.
      match lines, hShort with
      | [], _ => rfl
      | [_], _ => rfl
      | [_, _], _ => rfl
    · obtain ⟨before, tail, rfl, hTail⟩ := exists_append_of_le_length hLong
      obtain ⟨guard, second, third, rfl⟩ := List.length_eq_three.mp hTail
      have hLength : 4 ≤ (whole ⟨before ++ [guard, second, third], .brace⟩).length := by
        rw [length_whole]
        simp only [List.length_append, List.length_cons, List.length_nil]
        omega
      have hFourth := fromEnd_append (Block.openLine :: before) [guard, second, third, Ending.brace.line]
      have hGuard := item_append (Block.openLine :: before) [second, third, Ending.brace.line] guard
      have hWhole : whole ⟨before ++ [guard, second, third], .brace⟩ =
          (Block.openLine :: before) ++ [guard, second, third, Ending.brace.line] := by simp [whole]
      have hThird : (before ++ [guard, second, third]).reverse[2]? = some guard := by simp
      simp only [List.length_cons, List.length_nil] at hFourth hGuard
      rw [if_pos hLength, hWhole]
      simp only [hFourth, hGuard, ok_bind, Block.shape, hThird, Option.any_some]

end Blocks

section Ranges

theorem domain_eq (relation : String) : domain relation = checked (Range.domain relation) := by
  rw [domain, Range.domain]
  rcases Text.segments relation with _ | ⟨first, _ | ⟨second, _ | ⟨third, more⟩⟩⟩
  · rfl
  · rfl
  · rfl
  · have hLength : ¬ (first :: second :: third :: more).length < 3 := by
      simp only [List.length_cons]
      omega
    have hShared := slice_append [] [first, second] (third :: more)
    simp only [List.nil_append, List.cons_append, List.length_cons, List.length_nil] at hShared
    simp only [hLength, if_false, hShared, ok_bind]
    rfl

theorem bounds?_eq_none_iff {lines : List String} : Range.bounds? lines = none ↔ lines.length < 6 := by
  constructor
  · intro hNone
    by_contra hLong
    obtain ⟨before, tail, rfl, hTail⟩ := exists_append_of_le_length (Nat.le_of_not_lt hLong)
    match tail, hTail with
    | [startGuard, first, startDate, stopGuard, second, stopDate], _ =>
      have hSome : Range.bounds? (before ++ [startGuard, first, startDate, stopGuard, second, stopDate]) =
          some (before, ⟨startGuard, startDate⟩, ⟨stopGuard, stopDate⟩) :=
        Range.bounds?_eq_some_iff.mpr ⟨first, second, rfl⟩
      rw [hNone] at hSome
      cases hSome
  · intro hShort
    cases hBounds : Range.bounds? lines with
    | none => rfl
    | some found =>
      obtain ⟨body, start, stop⟩ := found
      obtain ⟨first, second, rfl⟩ := Range.bounds?_eq_some_iff.mp hBounds
      simp only [List.length_append, List.length_cons, List.length_nil] at hShort
      omega

section Bounds

variable (d : Dialect) (body : List String) (start stop : Range.Bound) (first second : String) (ending : Ending)

/-- A block that ends with two bounds. -/
def bounded : Block :=
  ⟨body ++ [start.guardLine, first, start.dateLine, stop.guardLine, second, stop.dateLine], ending⟩

theorem whole_bounded : whole (bounded body start stop first second ending) =
    Block.openLine :: (body ++ [start.guardLine, first, start.dateLine, stop.guardLine, second, stop.dateLine,
      ending.line]) := by
  simp [whole, bounded]

theorem tail_bounded : tail (whole (bounded body start stop first second ending)) =
    .ok [start.guardLine, first, start.dateLine, stop.guardLine, second, stop.dateLine] := by
  have hSeventh := fromEnd_append (Block.openLine :: body) [start.guardLine, first, start.dateLine, stop.guardLine,
    second, stop.dateLine, ending.line]
  have hLast := fromEnd_append (Block.openLine :: body ++ [start.guardLine, first, start.dateLine, stop.guardLine,
    second, stop.dateLine]) [ending.line]
  have hSix := slice_append (Block.openLine :: body) [start.guardLine, first, start.dateLine, stop.guardLine, second,
    stop.dateLine] [ending.line]
  simp only [List.cons_append, List.nil_append, List.append_assoc, List.length_cons, List.length_append,
    List.length_nil] at hSeventh hLast hSix
  rw [tail, whole_bounded]
  simp only [hSeventh, hLast, ok_bind]
  exact hSix

theorem bounds_bounded : bounds d (whole (bounded body start stop first second ending)) =
    checked (Range.readBounds d start stop) := by
  have hLength : ¬ (whole (bounded body start stop first second ending)).length < 8 := by
    rw [whole_bounded]
    simp only [List.length_cons, List.length_append, List.length_nil]
    omega
  rw [bounds, if_neg hLength, tail_bounded]
  simp only [ok_bind, item_cons_zero, item_cons_succ, domain_eq, Range.readBounds, checked_bind, checked_ite]
  rfl

theorem bounds_of_short {block : Block} (h : block.lines.length < 6) :
    bounds d (whole block) = mismatch .truncated := by
  have hLength : (whole block).length < 8 := by
    rw [length_whole]
    omega
  rw [bounds, if_pos hLength]

end Bounds

theorem year_eq (date : String) : year date = checked (Range.year date) := by
  cases hYear : Range.year date with
  | ok digits =>
    obtain ⟨rest, rfl, hLength, hDigits⟩ := Range.year_eq_ok_iff.mp hYear
    have hFirst : Text.firstBytes? 4 (digits ++ rest) = some digits :=
      Text.firstBytes?_eq_some_iff.mpr ⟨(Text.utf8ByteSize_of_digits hDigits).trans hLength, rest, rfl⟩
    rw [year, hFirst]
    exact if_pos (Text.all_isDigitByte_bytes_iff.mpr hDigits)
  | error cause =>
    have hCause : cause = .noYear date := by
      rw [Range.year] at hYear
      split at hYear
      · cases hYear
      · exact (Except.error.inj hYear).symm
    rw [year, hCause]
    split
    · rfl
    · rename_i digits hFirst
      refine if_neg fun hBytes => ?_
      -- Four bytes that are all digits are four characters, so the year would have been read.
      obtain ⟨hLength, rest, rfl⟩ := Text.firstBytes?_eq_some_iff.mp hFirst
      have hDigits := Text.all_isDigitByte_bytes_iff.mp hBytes
      have hFour := (Text.utf8ByteSize_of_digits hDigits).symm.trans hLength
      rw [Range.year_eq_ok_iff.mpr ⟨rest, rfl, hFour, hDigits⟩] at hYear
      cases hYear

theorem commonYear_eq (start stop : Range.Bound) (first second : String) :
    commonYear [start.guardLine, first, start.dateLine, stop.guardLine, second, stop.dateLine] =
      checked (Range.commonYear start stop) := by
  have hYear : ∀ bound : Range.Bound,
      checked bound.year = checked (Range.quoted bound.dateLine) >>= fun date => checked (Range.year date) :=
    fun bound => checked_bind (Range.quoted bound.dateLine) Range.year
  rw [commonYear, Range.commonYear]
  simp only [item_cons_zero, item_cons_succ, ok_bind, year_eq, checked_bind, checked_ite, hYear, bind_assoc]
  rfl

theorem range_whole (d : Dialect) (block : Block) :
    range d (whole block) = checked (Range.reduce d block.lines) := by
  rw [range, Range.reduce]
  cases hBounds : Range.bounds? block.lines with
  | none =>
    rw [bounds_of_short d (bounds?_eq_none_iff.mp hBounds)]
    rfl
  | some found =>
    obtain ⟨body, start, stop⟩ := found
    obtain ⟨first, second, hLines⟩ := Range.bounds?_eq_some_iff.mp hBounds
    have hBlock : block = bounded body start stop first second block.ending := by rw [bounded, ← hLines]
    have hSeventh := fromEnd_append (Block.openLine :: body) [start.guardLine, first, start.dateLine, stop.guardLine,
      second, stop.dateLine, block.ending.line]
    have hBody := slice_one_append Block.openLine body [start.guardLine, first, start.dateLine, stop.guardLine,
      second, stop.dateLine, block.ending.line]
    simp only [List.cons_append, List.length_cons, List.length_nil] at hSeventh
    rw [hBlock, bounds_bounded, tail_bounded, whole_bounded]
    simp only [ok_bind, commonYear_eq, hSeventh, hBody, checked_bind]
    rfl

theorem timeMacro_whole (d : Dialect) (block : Block) :
    timeMacro d (whole block) = checked (Range.timeMacro d block.lines) := by
  rw [timeMacro, Range.timeMacro]
  cases hBounds : Range.bounds? block.lines with
  | none =>
    rw [bounds_of_short d (bounds?_eq_none_iff.mp hBounds)]
    rfl
  | some found =>
    obtain ⟨body, start, stop⟩ := found
    obtain ⟨first, second, hLines⟩ := Range.bounds?_eq_some_iff.mp hBounds
    have hBlock : block = bounded body start stop first second block.ending := by rw [bounded, ← hLines]
    rw [hBlock, bounds_bounded]
    simp only [checked_bind]
    rfl

end Ranges

section Texts

variable (d : Dialect)

theorem dropFilters_eq (lines : List String) : dropFilters lines = checked (Reduced.dropFilters lines) := by
  cases lines with
  | nil => rfl
  | cons first rest =>
    unfold dropFilters Reduced.dropFilters
    simp only [List.head?_cons]
    split
    · rcases rest with _ | ⟨second, _ | ⟨line, more⟩⟩
      · rfl
      · rfl
      · have hLength : ¬ (first :: second :: line :: more).length ≤ 2 := by
          simp only [List.length_cons]
          omega
        have hRest := slice_append [first, second] (line :: more) []
        have hAll : (first :: second :: line :: more).length = [first, second].length + (line :: more).length := by
          simp only [List.length_cons, List.length_nil]
          omega
        rw [List.append_nil] at hRest
        rw [if_neg hLength, hAll]
        exact hRest
    · rfl

theorem findIdx?_of_declarations {declarations rest : List String} {header : String}
    (hDeclares : ∀ line ∈ declarations, Text.startsWith Block.declarationMark line = true)
    (hHeader : Text.startsWith Block.declarationMark header = false) :
    (declarations ++ header :: rest).findIdx? (!Text.startsWith Block.declarationMark ·) =
      some declarations.length := by
  induction declarations with
  | nil => simp [List.findIdx?_cons, hHeader]
  | cons line declarations ih =>
    obtain ⟨hLine, hRest⟩ := List.forall_mem_cons.mp hDeclares
    rw [List.cons_append, List.findIdx?_cons, ih hRest]
    simp [hLine]

theorem any_whole (block : Block) :
    (whole block).any (Text.contains Block.stringFilterMark) =
      block.lines.any (Text.contains Block.stringFilterMark) := by
  have hOpen : Text.contains Block.stringFilterMark Block.openLine = false := by decide
  have hEnding : Text.contains Block.stringFilterMark block.ending.line = false := by
    cases block.ending <;> decide
  simp [whole, hOpen, hEnding]

/-- The last line of all is the last one of the block, and the line that opens it is none of the two that end it. -/
theorem afterOpening_eq (before opened : List String) :
    (if ((before ++ Block.openLine :: opened).getLast?.bind Block.ending?).isNone then mismatch .ending
      else if (Block.openLine :: opened).any (Text.contains Block.stringFilterMark) then
        .error (.rejected .stringFilter)
      else .ok (Block.openLine :: opened)) =
    (checked (Block.ofOpened opened) >>= fun found =>
      if found.lines.any (Text.contains Block.stringFilterMark) then .error (.rejected .stringFilter)
      else .ok (whole found)) := by
  rcases List.eq_nil_or_concat opened with rfl | ⟨init, last, rfl⟩
  · rw [List.getLast?_concat]
    rfl
  · rw [List.concat_eq_append, ← List.cons_append, ← List.append_assoc, List.getLast?_concat, Option.bind_some]
    cases hEnding : Block.ending? last with
    | none =>
      have hOpened : Block.ofOpened (init ++ [last]) = .error .ending := by
        simp [Block.ofOpened, hEnding]
      rw [hOpened]
      rfl
    | some ending =>
      have hLast := Block.ending?_eq_some_iff.mp hEnding
      have hOpened : Block.ofOpened (init ++ [last]) = .ok ⟨init, ending⟩ :=
        Block.ofOpened_eq_ok_iff.mpr (by rw [hLast])
      have hWhole : Block.openLine :: init ++ [last] = whole ⟨init, ending⟩ := by rw [whole, hLast]; rfl
      rw [hOpened, hWhole, any_whole]
      rfl

theorem afterHeader_append (declarations rest : List String) (header : String) :
    afterHeader d (declarations ++ header :: rest) declarations.length =
      if Block.selects d header then do
        let opened ← checked (Block.afterOpening rest)
        let found ← checked (Block.ofOpened opened)
        if found.lines.any (Text.contains Block.stringFilterMark) then .error (.rejected .stringFilter)
        else .ok (whole found)
      else mismatch (.header d.answerVariable header) := by
  have hNext : (declarations ++ header :: rest)[declarations.length + 1]? = rest.head? := by
    rw [List.getElem?_append_right (Nat.le_add_right _ _), Nat.add_sub_cancel_left, List.getElem?_cons_succ,
      List.head?_eq_getElem?]
  have hRest := slice_append (declarations ++ [header]) rest []
  have hLength : (declarations ++ header :: rest).length = declarations.length + 1 + rest.length := by
    simp only [List.length_append, List.length_cons]
    omega
  simp only [List.append_nil, List.append_assoc, List.singleton_append, List.length_append,
    List.length_singleton] at hRest
  rw [afterHeader, item_append, ok_bind, hNext, hLength, hRest, ok_bind]
  cases hSelects : Block.selects d header with
  | false => rfl
  | true =>
    simp only [Bool.not_true, Bool.false_eq_true, if_false, if_true]
    cases rest with
    | nil => rfl
    | cons line opened =>
      simp only [List.head?_cons, ne_eq, Option.some.injEq, Block.afterOpening]
      by_cases hOpen : line = Block.openLine
      · subst hOpen
        simp only [not_true_eq_false, if_false, if_true]
        have hOpened := afterOpening_eq (declarations ++ [header]) opened
        rw [List.append_assoc, List.singleton_append] at hOpened
        exact hOpened
      · simp only [hOpen, not_false_eq_true, if_true, if_false]
        rfl

theorem block_eq (text : String) :
    block d text = given (Block.ofText d text) >>= fun found => .ok (whole found) := by
  have hLift : given (Block.ofText d text) = checked (Block.ofTemplate d text) >>= fun found =>
      if found.lines.any (Text.contains Block.stringFilterMark) then .error (.rejected .stringFilter)
      else .ok found := by
    rw [Block.ofText, given_bind]
    simp only [given_ite]
    rfl
  rw [hLift, block, Block.ofTemplate, Block.templateLines]
  cases Text.contentLines text with
  | nil => rfl
  | cons first lines =>
    simp only [List.head?_cons]
    by_cases hManual : first = d.manualMarker
    · simp only [hManual, if_true]
      rfl
    · simp only [hManual, if_false, ok_bind, Block.afterHeader]
      cases hDrop : (first :: lines).dropWhile (Text.startsWith Block.declarationMark) with
      | nil =>
        have hNone : (first :: lines).findIdx? (!Text.startsWith Block.declarationMark ·) = none := by
          rw [List.findIdx?_eq_none_iff]
          simpa using List.dropWhile_eq_nil_iff.mp hDrop
        rw [hNone]
        rfl
      | cons header rest =>
        obtain ⟨declarations, hLines, hDeclares, hHeader⟩ := Text.dropWhile_eq_cons_iff.mp hDrop
        rw [hLines, findIdx?_of_declarations hDeclares hHeader]
        simp only [afterHeader_append]
        cases Block.selects d header with
        | false => rfl
        | true =>
          simp only [if_true, ok_bind, checked_bind, bind_assoc]
          refine bind_congr fun opened => bind_congr fun found => ?_
          split <;> rfl

theorem split_whole (found : Block) : split d (whole found) = given (Reduced.split d found) := by
  rw [split, shape_whole, ok_bind, Reduced.split]
  cases found.shape with
  | plain => exact plain_whole found
  | superlative => exact superlative_whole d found
  | range => exact range_whole d found

theorem ofText_eq (text : String) : ofText d text = given (Reduced.ofText d text) := by
  have hBody : ∀ lines, given (((Reduced.dropFilters lines).bind (Reduced.checkLines d)).mapError .structural) =
      checked (Reduced.dropFilters lines) >>= fun kept => checked (Reduced.checkLines d kept) :=
    fun lines => checked_bind (Reduced.dropFilters lines) (Reduced.checkLines d)
  rw [ofText, block_eq, Reduced.ofText, given_bind, bind_assoc]
  refine bind_congr fun found => ?_
  rw [ok_bind, split_whole, Reduced.ofBlock, given_bind]
  simp only [dropFilters_eq, given_bind, hBody, bind_assoc]
  rfl

theorem timeMacro?_eq (text : String) : timeMacro? d text = given (Range.timeMacro? d text) := by
  rw [timeMacro?, block_eq, Range.timeMacro?, given_bind, bind_assoc]
  refine bind_congr fun found => ?_
  rw [ok_bind, shape_whole, ok_bind]
  cases found.shape with
  | plain => rfl
  | superlative => rfl
  | range =>
    rw [timeMacro_whole]
    cases Range.timeMacro d found.lines <;> rfl

end Texts

end Positional

section Pivots

/-- The outcome is not that a guard speaks of no variable. -/
def Spares {α : Type} (outcome : Except Mismatch α) : Prop := ∀ word, outcome ≠ .error (.constantPivot word)

namespace Spares

variable {α β : Type}

theorem bind {step : Except Mismatch α} {next : α → Except Mismatch β} (hStep : Spares step)
    (hNext : ∀ a, step = .ok a → Spares (next a)) : Spares (step >>= next) := by
  intro word h
  rcases bind_eq_error.mp h with h | ⟨a, ha, h⟩
  · exact hStep word h
  · exact hNext a ha word h

theorem ok (a : α) : Spares (.ok a) := by
  intro word h
  cases h

theorem guard (line : String) : Spares (Range.Guard.ofLine line) := by
  intro word
  rw [Range.Guard.ofLine]
  split
  · simp
  · split
    · simp
    · split <;> simp

theorem domain (relation : String) : Spares (Range.domain relation) := by
  intro word
  rw [Range.domain]
  split <;> simp

theorem readBounds (d : Dialect) (start stop : Range.Bound) : Spares (Range.readBounds d start stop) := by
  rw [Range.readBounds]
  refine (guard _).bind fun first _ => (guard _).bind fun second _ => ?_
  split
  · intro word
    simp
  · refine (domain _).bind fun startDomain _ => (domain _).bind fun stopDomain _ => ?_
    intro word
    split <;> simp

theorem year (bound : Range.Bound) : Spares bound.year := by
  have hQuoted : Spares (Range.quoted bound.dateLine) := by
    intro word
    rw [Range.quoted]
    split <;> simp
  refine hQuoted.bind fun date _ word => ?_
  rw [Range.year]
  split <;> simp

theorem commonYear (start stop : Range.Bound) : Spares (Range.commonYear start stop) := by
  rw [Range.commonYear]
  refine (year start).bind fun first _ => (year stop).bind fun second _ word => ?_
  split <;> simp

/-- The guards of a range start with a variable, so the last check always passes. -/
theorem reduce (d : Dialect) (lines : List String) : Spares (Range.reduce d lines) := by
  rw [Range.reduce]
  split
  · intro word
    simp
  · rename_i body start stop _
    refine (readBounds d start stop).bind fun bounds hBounds => (commonYear start stop).bind fun year _ => ?_
    obtain ⟨first, _, hGuard, _⟩ := Range.readBounds_eq_ok_iff.mp hBounds
    rw [Range.condition_eq_ok_iff.mpr ⟨hGuard.isVar d, rfl⟩, ok_bind]
    exact ok _

theorem template (d : Dialect) (text : String) : Spares (Block.ofTemplate d text) := by
  rw [Block.ofTemplate]
  refine bind ?_ fun lines _ => bind ?_ fun rest _ => bind ?_ fun opened _ => ?_
  · intro word
    rw [Block.templateLines]
    split
    · simp
    · split <;> simp
  · intro word
    rw [Block.afterHeader]
    split
    · simp
    · split <;> simp
  · intro word
    unfold Block.afterOpening
    split
    · simp
    · split <;> simp
  · intro word
    rw [Block.ofOpened]
    split
    · simp
    · split <;> simp

theorem checkedBody (d : Dialect) (lines : List String) :
    Spares ((Reduced.dropFilters lines).bind (Reduced.checkLines d)) := by
  refine bind ?_ fun kept _ word => ?_
  · intro word
    unfold Reduced.dropFilters
    split
    · simp
    · split
      · split <;> simp
      · simp
  · rw [Reduced.checkLines]
    split <;> simp

end Spares

theorem Superlative.reduce_ne_constantPivot (d : Dialect) (lines : List String) (word : String) :
    reduce d lines ≠ .error (.structural (.constantPivot word)) := by
  intro h
  rcases reduce_error_cases h with hCause | ⟨inner, order, _, hCause | ⟨_, ⟨hCause, _⟩ | ⟨line, _, hLine⟩⟩⟩
  · cases hCause
  · cases hCause
  · cases hCause
  · rcases condition_error_cases hLine with hTriple | hCause | hCause
    · cases Triple.kind_of_ofLine_eq_error hTriple
    · cases hCause
    · cases hCause

theorem Reduced.ofText_ne_constantPivot (d : Dialect) (text word : String) :
    ofText d text ≠ .error (.structural (.constantPivot word)) := by
  intro h
  rcases ofText_error_cases h with
    ⟨found, hFound, hCause⟩ | hCause | ⟨block, _, hSplit | ⟨parts, found, hFound, hCause⟩⟩
  · cases hCause
    exact Spares.template d text word hFound
  · cases hCause
  · rw [split] at hSplit
    split at hSplit
    · cases hSplit
    · exact Superlative.reduce_ne_constantPivot d _ word hSplit
    · obtain ⟨found, hFound, hCause⟩ := mapError_eq_error.mp hSplit
      cases hCause
      exact Spares.reduce d _ word hFound
  · cases hCause
    exact Spares.checkedBody d parts.body word hFound

theorem Range.timeMacro?_ne_constantPivot (d : Dialect) (text word : String) :
    timeMacro? d text ≠ .error (.structural (.constantPivot word)) := by
  have hTimeMacro : ∀ lines, Spares (timeMacro d lines) := by
    intro lines
    rw [timeMacro]
    split
    · intro word
      simp
    · exact (Spares.readBounds d _ _).bind fun bounds _ => Spares.ok _
  intro h
  rcases bind_eq_error.mp h with h | ⟨block, _, h⟩
  · rcases Block.ofText_error_cases h with ⟨found, hFound, hCause⟩ | hCause
    · cases hCause
      exact Spares.template d text word hFound
    · cases hCause
  · split at h
    · obtain ⟨found, hFound, hCause⟩ := mapError_eq_error.mp h
      cases hCause
      cases hMacro : timeMacro d block.lines with
      | ok found =>
        rw [hMacro] at hFound
        cases hFound
      | error cause =>
        rw [hMacro] at hFound
        cases hFound
        exact hTimeMacro block.lines word hMacro
    · cases h

end Pivots

namespace Positional

theorem given_ne_outOfRange {α : Type} (outcome : Except Rejection α) : given outcome ≠ .error .outOfRange := by
  intro h
  obtain ⟨cause, _, hCause⟩ := mapError_eq_error.mp h
  cases hCause

/-- Every position that the readers ask for is there, so reading by position gives what matching gives. The first
bytes of a text are cut between two characters or not at all. A guard starts with a variable, so no query is
rejected for a guard without one. -/
theorem ofText_never_outOfRange (d : Dialect) (text : String) :
    (ofText d text = given (Reduced.ofText d text) ∧ ofText d text ≠ .error .outOfRange) ∧
    (timeMacro? d text = given (Range.timeMacro? d text) ∧ timeMacro? d text ≠ .error .outOfRange) ∧
    (∀ (n : Nat) (date digits : String), Text.firstBytes? n date = some digits ↔
      digits.utf8ByteSize = n ∧ ∃ rest, date = digits ++ rest) ∧
    (∀ line guard, Range.Guard.ofLine line = .ok guard → Text.startsWith "?" guard.pivot = true) ∧
    ∀ word, Reduced.ofText d text ≠ .error (.structural (.constantPivot word)) ∧
      Range.timeMacro? d text ≠ .error (.structural (.constantPivot word)) := by
  refine ⟨⟨ofText_eq d text, ?_⟩, ⟨timeMacro?_eq d text, ?_⟩, fun n date digits => Text.firstBytes?_eq_some_iff,
    fun line guard hGuard => ?_, fun word =>
      ⟨Reduced.ofText_ne_constantPivot d text word, Range.timeMacro?_ne_constantPivot d text word⟩⟩
  · rw [ofText_eq]
    exact given_ne_outOfRange _
  · rw [timeMacro?_eq]
    exact given_ne_outOfRange _
  · exact Dialect.isVar_term_iff.mp ((Range.guard_ofLine_eq_ok_iff.mp hGuard).isVar d)

/-- The four bytes of this year end within its last character, and reading by position stops there as matching does. -/
theorem ofText_never_outOfRange_accented :
    let guardLine := "FILTER(NOT EXISTS \x7b?y ns:a.b.from\x7d ||"
    let text := Text.unlines ["SELECT DISTINCT ?x", "WHERE \x7b", "?x ns:r ?y .", guardLine, "EXISTS \x7b", "\"200é\"",
      guardLine, "EXISTS \x7b", "\"200é\"", "\x7d"]
    (Range.Guard.ofLine guardLine = .ok ⟨"?y", "ns:a.b.from"⟩ ∧ Text.startsWith "?" "?y" = true) ∧
    Text.firstBytes? 4 "200é" = none ∧ ofText {} text = .error (.rejected (.structural (.noYear "200é"))) := by
  intro guardLine text
  have hGuard : Range.Guard.ofLine guardLine = .ok ⟨"?y", "ns:a.b.from"⟩ := by decide +kernel
  have hText : Reduced.ofText {} text = .error (.structural (.noYear "200é")) := by
    have hBlock : Block.ofText {} text = .ok ⟨["?x ns:r ?y .", guardLine, "EXISTS \x7b", "\"200é\"", guardLine,
        "EXISTS \x7b", "\"200é\""], .brace⟩ :=
      Block.ofText_eq_ok_iff.mpr ⟨Block.ofTemplate_eq_ok_iff.mpr ⟨[], _, Reduced.isHead_select,
        (Text.contentLines_unlines (by decide)).trans (by decide +kernel)⟩, by decide⟩
    rw [Reduced.ofText, hBlock]
    decide +kernel
  obtain ⟨⟨hOfText, _⟩, _, _, hPivot, _⟩ := ofText_never_outOfRange {} text
  rw [hText] at hOfText
  exact ⟨⟨hGuard, hPivot _ _ hGuard⟩, by decide, hOfText⟩

end Positional

end LogicalForm
