import LogicalForm.Json.Quoted

/-!
# Tokens of JSON

A line is cut into tokens before it is parsed. Numbers and words are the longest runs of their
characters, checked as a whole; two of them in a row are never part of a value, so nothing is lost.
-/

namespace LogicalForm.Json
set_option autoImplicit false

inductive Token where
  | openArray
  | closeArray
  | openObject
  | closeObject
  | comma
  | colon
  | string (us : List StringUnit)
  | null
  | scalar
  deriving DecidableEq, Repr

def isSpace (c : Char) : Bool := c == ' ' || c == '\t' || c == '\n' || c == '\r'

def punctuation? (c : Char) : Option Token :=
  if c = '[' then some .openArray
  else if c = ']' then some .closeArray
  else if c = '\x7b' then some .openObject
  else if c = '\x7d' then some .closeObject
  else if c = ',' then some .comma
  else if c = ':' then some .colon
  else none

def isNumeral (c : Char) : Bool :=
  c.isDigit || c == '-' || c == '+' || c == '.' || c == 'e' || c == 'E'

def isDigits (cs : List Char) : Bool := !cs.isEmpty && cs.all Char.isDigit

def isExponent : List Char → Bool
  | [] => true
  | c :: cs =>
    (c == 'e' || c == 'E') &&
      match cs with
      | '+' :: ds | '-' :: ds => isDigits ds
      | ds => isDigits ds

/-- Digits without a leading zero, then a fraction, then an exponent, the last two as one likes. -/
def isUnsigned (cs : List Char) : Bool :=
  let whole := cs.takeWhile Char.isDigit
  isDigits whole && (whole.length == 1 || whole.head? != some '0') &&
    match cs.dropWhile Char.isDigit with
    | '.' :: rest => isDigits (rest.takeWhile Char.isDigit) && isExponent (rest.dropWhile Char.isDigit)
    | rest => isExponent rest

def isNumber : List Char → Bool
  | '-' :: cs => isUnsigned cs
  | cs => isUnsigned cs

def word? (cs : List Char) : Option Token :=
  if cs = "null".toList then some .null
  else if cs = "true".toList ∨ cs = "false".toList then some .scalar
  else none

def next? (c : Char) (cs : List Char) : Option (Token × List Char) :=
  match punctuation? c with
  | some token => some (token, cs)
  | none =>
    if c = '"' then (units [] cs).map fun (us, rest) => (.string us, rest)
    else if c.isDigit || c == '-' then
      if isNumber (c :: cs.takeWhile isNumeral) then some (.scalar, cs.dropWhile isNumeral) else none
    else (word? (c :: cs.takeWhile Char.isLower)).map (·, cs.dropWhile Char.isLower)

theorem length_of_next? {c : Char} {cs rest : List Char} {token : Token}
    (h : next? c cs = some (token, rest)) : rest.length ≤ cs.length := by
  unfold next? at h
  split at h
  · cases h
    exact Nat.le_refl _
  · split at h
    · obtain ⟨⟨us, rest'⟩, hUnits, hEq⟩ := Option.map_eq_some_iff.mp h
      cases hEq
      exact Nat.le_of_lt (length_of_units hUnits)
    · split at h
      · split at h
        · cases h
          exact (List.dropWhile_sublist isNumeral).length_le
        · cases h
      · obtain ⟨token', _, hEq⟩ := Option.map_eq_some_iff.mp h
        cases hEq
        exact (List.dropWhile_sublist Char.isLower).length_le

/-- Cuts a line into tokens. The tokens so far come with the last first. -/
def tokens (done : List Token) : List Char → Option (List Token)
  | [] => some done.reverse
  | c :: cs =>
    if isSpace c then tokens done cs
    else
      match _h : next? c cs with
      | none => none
      | some (token, rest) => tokens (token :: done) rest
termination_by cs => cs.length
decreasing_by
  · simp
  · have hLess := length_of_next? ‹next? c cs = some (token, rest)›
    simp only [List.length_cons]
    omega

inductive Goal where
  | value
  | firstElement
  | afterElement
  | firstMember
  | key
  | colon
  | afterMember
  deriving DecidableEq, Repr

def enter? (goals : List Goal) : Token → Option (List Goal)
  | .null | .scalar | .string _ => some goals
  | .openArray => some (.firstElement :: goals)
  | .openObject => some (.firstMember :: goals)
  | _ => none

def advance? (goals : List Goal) (goal : Goal) (token : Token) : Option (List Goal) :=
  match goal, token with
  | .value, token => enter? goals token
  | .firstElement, .closeArray => some goals
  | .firstElement, token => enter? (.afterElement :: goals) token
  | .afterElement, .closeArray => some goals
  | .afterElement, .comma => some (.value :: .afterElement :: goals)
  | .firstMember, .closeObject => some goals
  | .firstMember, .string _ | .key, .string _ => some (.colon :: .value :: .afterMember :: goals)
  | .colon, .colon => some goals
  | .afterMember, .closeObject => some goals
  | .afterMember, .comma => some (.key :: goals)
  | _, _ => none

/-- Passes over tokens until every goal is met; what is passed over has to be well-formed. -/
def skip? : List Goal → List Token → Option (List Token)
  | [], tokens => some tokens
  | _ :: _, [] => none
  | goal :: goals, token :: tokens =>
    match advance? goals goal token with
    | none => none
    | some goals => skip? goals tokens

theorem length_of_skip? {goals : List Goal} {tokens rest : List Token}
    (h : skip? goals tokens = some rest) : rest.length ≤ tokens.length := by
  fun_induction skip? goals tokens with
  | case1 tokens =>
    cases h
    exact Nat.le_refl _
  | case2 => cases h
  | case3 => cases h
  | case4 goal goals token tokens goals' hAdvance ih =>
    exact Nat.le_succ_of_le (ih h)

end LogicalForm.Json
