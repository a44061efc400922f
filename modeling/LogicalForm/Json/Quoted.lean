/-!
# Quoted strings

Reading a quoted string takes two steps. The first undoes its escapes, except that a numbered escape
stays a code unit; the second joins pairs of surrogates and refuses single ones. A string that is only
passed over takes the first step alone.
-/

namespace LogicalForm.Json
set_option autoImplicit false

inductive StringUnit where
  | char (c : Char)
  | code (n : Nat)
  deriving DecidableEq, Repr

def hexValue? (c : Char) : Option Nat :=
  if '0' ≤ c ∧ c ≤ '9' then some (c.toNat - '0'.toNat)
  else if 'a' ≤ c ∧ c ≤ 'f' then some (c.toNat - 'a'.toNat + 10)
  else if 'A' ≤ c ∧ c ≤ 'F' then some (c.toNat - 'A'.toNat + 10)
  else none

def code? (a b c d : Char) : Option Nat := do
  let a ← hexValue? a
  let b ← hexValue? b
  let c ← hexValue? c
  let d ← hexValue? d
  some (((a * 16 + b) * 16 + c) * 16 + d)

def escaped? (c : Char) : Option Char :=
  if c = '"' ∨ c = '\\' ∨ c = '/' then some c
  else if c = 'b' then some '\x08'
  else if c = 't' then some '\t'
  else if c = 'n' then some '\n'
  else if c = 'f' then some '\x0c'
  else if c = 'r' then some '\r'
  else none

def isControl (c : Char) : Bool := decide (c.toNat < 0x20)

/-- Reads up to the closing quote, after the opening one. The units so far come with the last first. -/
def units (done : List StringUnit) : List Char → Option (List StringUnit × List Char)
  | [] => none
  | '"' :: rest => some (done.reverse, rest)
  | '\\' :: 'u' :: a :: b :: c :: d :: rest =>
    match code? a b c d with
    | some n => units (.code n :: done) rest
    | none => none
  | '\\' :: c :: rest =>
    match escaped? c with
    | some c => units (.char c :: done) rest
    | none => none
  | c :: rest => if c = '\\' ∨ isControl c = true then none else units (.char c :: done) rest

theorem length_of_units {done us : List StringUnit} {cs rest : List Char}
    (h : units done cs = some (us, rest)) : rest.length < cs.length := by
  fun_induction units done cs with
  | case1 => cases h
  | case2 done rest' =>
    cases h
    simp
  | case3 done a b c d rest' n hCode ih =>
    have hLess := ih h
    simp only [List.length_cons]
    omega
  | case4 => cases h
  | case5 done c rest' _ c' hEscaped ih =>
    have hLess := ih h
    simp only [List.length_cons]
    omega
  | case6 => cases h
  | case7 => cases h
  | case8 done c rest' _ _ _ hPlain ih =>
    have hLess := ih h
    simp only [List.length_cons]
    omega

def isHighSurrogate (n : Nat) : Bool := decide (0xD800 ≤ n ∧ n ≤ 0xDBFF)

def isLowSurrogate (n : Nat) : Bool := decide (0xDC00 ≤ n ∧ n ≤ 0xDFFF)

def paired (high low : Nat) : Char := Char.ofNat (0x10000 + (high - 0xD800) * 0x400 + (low - 0xDC00))

/-- Joins surrogates. The characters so far come with the last first. -/
def assemble (done : List Char) : List StringUnit → Option (List Char)
  | [] => some done.reverse
  | .char c :: us => assemble (c :: done) us
  | .code n :: us =>
    if isHighSurrogate n then
      match us with
      | .code m :: us => if isLowSurrogate m then assemble (paired n m :: done) us else none
      | _ => none
    else if isLowSurrogate n then none
    else assemble (Char.ofNat n :: done) us

def decode? (us : List StringUnit) : Option String := (assemble [] us).map String.ofList

def hexDigit (n : Nat) : Char := Nat.digitChar n

def quoteChar (c : Char) : List Char :=
  if c = '"' ∨ c = '\\' then ['\\', c]
  else if c = '\x08' then ['\\', 'b']
  else if c = '\t' then ['\\', 't']
  else if c = '\n' then ['\\', 'n']
  else if c = '\x0c' then ['\\', 'f']
  else if c = '\r' then ['\\', 'r']
  else if isControl c then ['\\', 'u', '0', '0', hexDigit (c.toNat / 16), hexDigit (c.toNat % 16)]
  else [c]

def quote (s : String) : String :=
  String.ofList ('"' :: s.toList.flatMap quoteChar ++ ['"'])

def IsPrintable (s : String) : Prop := ∀ c ∈ s.toList, isControl c = false

instance (s : String) : Decidable (IsPrintable s) :=
  decidable_of_iff (s.toList.all fun c => !isControl c) (by simp [IsPrintable])

theorem isPrintable_append {s t : String} : IsPrintable (s ++ t) ↔ IsPrintable s ∧ IsPrintable t := by
  rw [IsPrintable, String.toList_append, List.forall_mem_append]
  rfl

theorem isControl_hexDigit : ∀ n < 16, isControl (hexDigit n) = false := by decide

theorem all_quoteChar (a : Char) : (quoteChar a).all (fun c => !isControl c) = true := by
  rw [quoteChar]
  split
  · rename_i hMark
    rcases hMark with rfl | rfl <;> decide
  iterate 5
    split
    · decide
  split
  · rename_i hControl
    have hLess : a.toNat < 32 := of_decide_eq_true hControl
    have hHigh := isControl_hexDigit (a.toNat / 16) (by omega)
    have hLow := isControl_hexDigit (a.toNat % 16) (by omega)
    simp only [List.all_cons, hHigh, hLow]
    decide
  · rename_i hPlain
    simpa using hPlain

theorem isPrintable_quote (s : String) : IsPrintable (quote s) := by
  intro c hc
  rw [quote, String.toList_ofList, List.cons_append, List.mem_cons, List.mem_append, List.mem_flatMap,
    List.mem_singleton] at hc
  rcases hc with rfl | ⟨a, _, hc⟩ | rfl
  · rfl
  · simpa using List.all_eq_true.mp (all_quoteChar a) c hc
  · rfl

end LogicalForm.Json
