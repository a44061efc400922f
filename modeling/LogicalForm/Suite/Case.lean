import LogicalForm.Conversion
import LogicalForm.Storage.Volume

/-!
# Conformance cases

A case is a query in a file with the extension `rq`, and beside it, in a file of the same stem with the
extension `lf`, the written form that it should have, or the sentinel.
-/

namespace LogicalForm
set_option autoImplicit false

structure Case where
  name : String
  path : Path
  query : String
  expected : String
  deriving DecidableEq, Repr

inductive LoadFault where
  | unlisted (folder : Path)
  | unnamed (path : Path)
  | unread (path : Path)
  deriving DecidableEq, Repr

def LoadFault.message : LoadFault → String
  | unlisted folder => s!"Failed to list {folder.text}"
  | unnamed path => s!"{path.text} has no valid name"
  | unread path => s!"Failed to read {path.text}"

namespace Case

def queryExtension : Name := Text.Utf8.encode "rq"

def expectedExtension : Name := Text.Utf8.encode "lf"

def stem? (name : Name) : Option Name :=
  match name.split with
  | (stem, some extension) => if extension = queryExtension then some stem else none
  | (_, none) => none

/-- Reads one case. The reader gives the text of a file, if it has one. -/
def load (read : Path → Option String) (folder : Path) (name stem : Name) : Except LoadFault Case :=
  let path := folder.child name
  match Text.Utf8.decode? stem with
  | none => .error (.unnamed path)
  | some caseName =>
    match read path with
    | none => .error (.unread path)
    | some query =>
      let expectedPath := folder.child (Name.withExtension stem expectedExtension)
      match read expectedPath with
      | none => .error (.unread expectedPath)
      | some expected => .ok ⟨caseName, path, query, Text.trim expected⟩

def le (c d : Case) : Bool := decide (c.name ≤ d.name)

/-- Reads the cases among the names of a folder, up to the first that cannot be read. -/
def loadNames (read : Path → Option String) (folder : Path) (names : List Name) :
    Except LoadFault (List Case) := do
  let cases ← (names.filterMap fun name => (stem? name).map (name, ·)).mapM fun (name, stem) =>
    load read folder name stem
  .ok (cases.mergeSort le)

def loadFolder (volume : Volume) (folder : Path) : Except LoadFault (List Case) :=
  match volume.list folder with
  | .error _ => .error (.unlisted folder)
  | .ok names => loadNames volume.readText? folder names

def failure? (d : Dialect) (c : Case) : Option String :=
  let actual := Query.render d ⟨c.query, none⟩
  if actual = c.expected then none
  else some s!"Unexpected conversion of {c.path.text}\nexpected: {c.expected}\nactual:   {actual}"

end Case

end LogicalForm
