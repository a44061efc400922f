import LogicalForm.Command.Arguments
import LogicalForm.Command.Outcome
import LogicalForm.Suite.Report

/-!
# Running suites

A suite is run by naming the folders of its cases. The first folder that cannot be loaded ends the
run without a report.
-/

namespace LogicalForm.Suite
set_option autoImplicit false

def runArguments (args : List String) (volume : Volume) : Option (Except LoadFault (List CaseResult)) :=
  (Argument.words? args).map fun folders => run volume {} (folders.map Path.ofString)

/-- Reports on results. The clock has the dates at which they came about, one after another. -/
def report (clock : Nat → Stamp) : Option (Except LoadFault (List CaseResult)) → Outcome
  | none => .refused
  | some (.error fault) => .failed fault.message
  | some (.ok results) => .done (Report.text (results.mapIdx fun i result => ⟨result, clock i⟩))

def runLine (args : List String) (clock : Nat → Stamp) (volume : Volume) : Outcome :=
  report clock (runArguments args volume)

end LogicalForm.Suite
