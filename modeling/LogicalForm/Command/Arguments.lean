import LogicalForm.Text.Basic

/-!
# Arguments of a command line

Options take one value each: the next argument, or what is attached to the option itself. Arguments
that start with a dash are options, a lone dash apart, and a double dash ends the options.
-/

namespace LogicalForm
set_option autoImplicit false

inductive Argument where
  | long (name : String) (attached : Option String)
  | short (letter : Char) (attached : Option String)
  | ending
  | word (text : String)
  deriving DecidableEq, Repr

structure OptionSpec where
  name : String
  letter : Option Char := none
  allowsEmpty : Bool
  deriving DecidableEq, Repr

abbrev Given := List (String × String)

namespace Argument

/-- A long option has its value after an equals sign, a short one after its letter, with or without
one. -/
def ofString (s : String) : Argument :=
  match s.toList with
  | ['-', '-'] => ending
  | '-' :: '-' :: rest =>
    match Text.cut? (· == '=') rest with
    | some (name, value) => long (String.ofList name) (some (String.ofList value))
    | none => long (String.ofList rest) none
  | ['-', letter] => short letter none
  | '-' :: letter :: '=' :: value => short letter (some (String.ofList value))
  | '-' :: letter :: value => short letter (some (String.ofList value))
  | _ => word s

def isWord (s : String) : Bool :=
  match ofString s with
  | word _ => true
  | _ => false

end Argument

namespace OptionSpec

def find? (specs : List OptionSpec) : Argument → Option (OptionSpec × Option String)
  | .long name attached => (specs.find? (·.name == name)).map (·, attached)
  | .short letter attached => (specs.find? (·.letter == some letter)).map (·, attached)
  | _ => none

/-- An option may be given once, and not every one may be empty. -/
def give? (given : Given) (spec : OptionSpec) (value : String) : Option Given :=
  if (given.lookup spec.name).isSome || (value.isEmpty && !spec.allowsEmpty) then none
  else some ((spec.name, value) :: given)

def read? (specs : List OptionSpec) (given : Given) : List String → Option (Given × List String)
  | [] => some (given, [])
  | arg :: rest =>
    match Argument.ofString arg with
    | .word _ | .ending => some (given, arg :: rest)
    | argument =>
      match find? specs argument with
      | none => none
      | some (spec, some value) => (give? given spec value).bind (read? specs · rest)
      | some (spec, none) =>
        match rest with
        | [] => none
        | value :: rest =>
          if Argument.isWord value then (give? given spec value).bind (read? specs · rest) else none

end OptionSpec

def Argument.words? : List String → Option (List String)
  | [] => some []
  | arg :: rest =>
    match ofString arg with
    | word text => if text.isEmpty then none else (words? rest).map (text :: ·)
    | ending => if rest.any String.isEmpty then none else some rest
    | _ => none

end LogicalForm
