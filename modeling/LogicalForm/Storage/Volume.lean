import LogicalForm.Storage.Path

/-!
# Volumes

A volume holds folders and files, and paths are followed in it from the folder that is current. It is
a value: writing a file gives another volume.
-/

namespace LogicalForm
set_option autoImplicit false

/-- Where a node is: names from the current folder on, or an empty name and names from the root on. The
names of the folders above the current one are not known; a parent name stands for each step up. -/
abbrev Location := List Name

inductive Node where
  | folder
  | file (content : ByteArray)

inductive StorageFault where
  | missing
  | notFolder
  | isFolder
  | tooLong
  deriving DecidableEq, Repr

def StorageFault.message : StorageFault → String
  | missing => "No such file or directory (os error 2)"
  | notFolder => "Not a directory (os error 20)"
  | isFolder => "Is a directory (os error 21)"
  | tooLong => "File name too long (os error 36)"

structure Volume where
  nodes : List (Location × Node)

namespace Volume

def root : Location := [[]]

def isAncestor (location : Location) : Bool := location.all (· == Name.parent)

/-- The current folder, the folders above it and the root are always there. -/
def node? (volume : Volume) (location : Location) : Option Node :=
  if isAncestor location ∨ location = root then some .folder else volume.nodes.lookup location

def isFolder (volume : Volume) (location : Location) : Bool :=
  match volume.node? location with
  | some .folder => true
  | _ => false

def above (location : Location) : Location :=
  if location = root then root
  else if isAncestor location then location ++ [Name.parent]
  else location.dropLast

def enter (volume : Volume) (location : Location) (name : Name) : Except StorageFault Location :=
  if !volume.isFolder location then .error .notFolder
  else if name = [] ∨ name = Name.self then .ok location
  else if name = Name.parent then .ok (above location)
  else if name.length > Name.maxLength then .error .tooLong
  else if (volume.node? (location ++ [name])).isNone then .error .missing
  else .ok (location ++ [name])

def walk (volume : Volume) : Location → List Name → Except StorageFault Location :=
  List.foldlM volume.enter

/-- Where a path starts, and the names to follow from there. The empty path leads nowhere. -/
def start (path : Path) : Except StorageFault (Location × List Name) :=
  if path.bytes.length > Path.maxLength then .error .tooLong
  else
    match path.names with
    | [[]] => .error .missing
    | [] :: names => .ok (root, names)
    | names => .ok ([], names)

def locate (volume : Volume) (path : Path) : Except StorageFault Location := do
  let (location, names) ← start path
  volume.walk location names

def list (volume : Volume) (path : Path) : Except StorageFault (List Name) := do
  let location ← volume.locate path
  if volume.isFolder location then
    .ok (volume.nodes.filterMap fun (other, _) =>
      if other.dropLast = location then other.getLast? else none)
  else .error .notFolder

def read (volume : Volume) (path : Path) : Except StorageFault ByteArray := do
  let location ← volume.locate path
  match volume.node? location with
  | some (.file content) => .ok content
  | some .folder => .error .isFolder
  | none => .error .missing

def readText? (volume : Volume) (path : Path) : Option String :=
  match volume.read path with
  | .ok content => String.fromUTF8? content
  | .error _ => none

def set (volume : Volume) (location : Location) (node : Node) : Volume :=
  match volume.nodes.lookup location with
  | none => ⟨volume.nodes ++ [(location, node)]⟩
  | some _ => ⟨volume.nodes.map fun entry => if entry.1 = location then (location, node) else entry⟩

/-- Creates a file or replaces its content. The folder has to be there already, and the last name of
the path, after which no slash may stand, has to be one that a file can have. -/
def write (volume : Volume) (path : Path) (content : ByteArray) : Except StorageFault Volume := do
  let (location, names) ← start path
  let bare := (names.reverse.dropWhile (·.isEmpty)).reverse
  let folder ← volume.walk location bare.dropLast
  let name := bare.getLastD []
  if !volume.isFolder folder then .error .notFolder
  else if bare ≠ names ∨ name = [] ∨ name = Name.self ∨ name = Name.parent ∨
      volume.isFolder (folder ++ [name]) then .error .isFolder
  else if name.length > Name.maxLength then .error .tooLong
  else .ok (volume.set (folder ++ [name]) (.file content))

def empty : Volume := ⟨[]⟩

def reach (volume : Volume) (location : Location) (name : Name) : Volume × Location :=
  if name = Name.parent then (volume, above location)
  else
    let inner := location ++ [name]
    (if (volume.node? inner).isSome then volume else volume.set inner .folder, inner)

def install (volume : Volume) (path : Path) (node : Node) : Volume :=
  match start path with
  | .error _ => volume
  | .ok (location, names) =>
    let names := names.filter fun name => name ≠ [] ∧ name ≠ Name.self
    let (withFolders, folder) :=
      names.dropLast.foldl (fun here name => here.1.reach here.2 name) (volume, location)
    match names.getLast? with
    | none => withFolders
    | some name => if name = Name.parent then withFolders else withFolders.set (folder ++ [name]) node

end Volume

end LogicalForm
