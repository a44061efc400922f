import LogicalForm.Command.Arguments
import LogicalForm.Dialect

/-!
# Commands

What a command line asks for: one conversion, a batch of them, or a list of the time macros in a
batch. The spellings of queries can be set before or after the name of the command; the later setting
counts.
-/

namespace LogicalForm
set_option autoImplicit false

/-- Input comes from a file, or from the standard input if none is named; likewise for output. -/
inductive Command where
  | convert (source : Option String)
  | batch (source target : Option String)
  | templates (source : Option String)
  deriving DecidableEq, Repr

structure Request where
  dialect : Dialect
  command : Command
  deriving DecidableEq, Repr

namespace Request

def answerOption : OptionSpec := ⟨"answer-variable", none, true⟩

def namespaceOption : OptionSpec := ⟨"namespace-prefix", none, true⟩

def sentinelOption : OptionSpec := ⟨"sentinel", none, true⟩

def fileOption : OptionSpec := ⟨"file", some 'f', false⟩

def fromOption : OptionSpec := ⟨"from-file", some 'f', false⟩

def toOption : OptionSpec := ⟨"to-file", some 't', false⟩

def sharedOptions : List OptionSpec := [answerOption, namespaceOption, sentinelOption]

def dialectOf (given : Given) : Dialect :=
  let base : Dialect := {}
  { base with
    answerVariable := (given.lookup answerOption.name).getD base.answerVariable
    namespaceMark := (given.lookup namespaceOption.name).getD base.namespaceMark
    sentinel := (given.lookup sentinelOption.name).getD base.sentinel }

def commandOf? (name : String) : Option (List OptionSpec × (Given → Command)) :=
  if name = "convert" then some ([fileOption], fun given => .convert (given.lookup fileOption.name))
  else if name = "batch" then
    some ([fromOption, toOption], fun given =>
      .batch (given.lookup fromOption.name) (given.lookup toOption.name))
  else if name = "templates" then
    some ([fromOption], fun given => .templates (given.lookup fromOption.name))
  else none

/-- Nothing may follow the options of a command but the mark that ends them. -/
def isEnd (rest : List String) : Bool := rest.isEmpty || rest == ["--"]

def ofArguments? (args : List String) : Option Request := do
  let (before, rest) ← OptionSpec.read? sharedOptions [] args
  let (name, rest) ← rest.head?.map (·, rest.tail)
  let (specs, command) ← commandOf? name
  let (after, rest) ← OptionSpec.read? (sharedOptions ++ specs) [] rest
  if isEnd rest then some ⟨dialectOf (after ++ before), command after⟩ else none

end Request

end LogicalForm
