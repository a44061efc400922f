import LogicalForm.Calendar.Stamp
import LogicalForm.Suite.Case

/-!
# Reports on cases

The results of cases are reported line by line with a summary, or checked all at once against a list
of cases that may fail.
-/

namespace LogicalForm
set_option autoImplicit false

structure CaseResult where
  name : String
  failure : Option String
  deriving DecidableEq, Repr

def Case.result (d : Dialect) (c : Case) : CaseResult := ⟨c.name, c.failure? d⟩

structure DatedResult where
  result : CaseResult
  date : Stamp

namespace Report

def flatten (s : String) : String := String.ofList (s.toList.map fun c => if c = '\n' then ' ' else c)

def line (dated : DatedResult) : String :=
  let start := dated.date.text ++ "\t" ++ dated.result.name
  match dated.result.failure with
  | none => start ++ "\tpassed\n"
  | some text => start ++ "\tfailed\t" ++ flatten text ++ "\n"

/-- A report part way through: the lines so far, and how many cases passed of how many. -/
structure Draft where
  lines : String := ""
  passed : Nat := 0
  total : Nat := 0

def Draft.next (draft : Draft) (dated : DatedResult) : Draft where
  lines := draft.lines ++ line dated
  passed := if dated.result.failure.isNone then draft.passed + 1 else draft.passed
  total := draft.total + 1

def text (results : List DatedResult) : String :=
  let draft := results.foldl Draft.next {}
  draft.lines ++ s!"{draft.passed} of {draft.total} cases passed\n"

end Report

inductive SuiteFault where
  | noCase
  | failing (failures : List (String × String)) (total : Nat)
  deriving DecidableEq, Repr

def SuiteFault.message : SuiteFault → String
  | noCase => "No case found"
  | failing failures total =>
    let lines := failures.map fun (name, text) => s!"{name}: failed with error {text}"
    let shown := "\n".intercalate lines
    s!"{failures.length} cases failing from {total} cases:\n{shown}\n"

namespace Suite

def run (volume : Volume) (d : Dialect) (folders : List Path) : Except LoadFault (List CaseResult) := do
  let loaded ← folders.mapM (Case.loadFolder volume)
  .ok (loaded.flatten.map (Case.result d))

def failures (ignored : List String) (results : List CaseResult) : List (String × String) :=
  results.filterMap fun result =>
    result.failure.bind fun text =>
      if ignored.contains result.name then none else some (result.name, text)

/-- A suite has at least one case, and every failure is an expected one. -/
def check (ignored : List String) (results : List CaseResult) : Except SuiteFault Unit :=
  if results = [] then .error .noCase
  else if failures ignored results = [] then .ok ()
  else .error (.failing (failures ignored results) results.length)

def verdict (volume : Volume) (ignored : List String) (folder : Path) : Except LoadFault (Except String Unit) :=
  (run volume {} [folder]).map fun results => (check ignored results).mapError SuiteFault.message

end Suite

end LogicalForm
