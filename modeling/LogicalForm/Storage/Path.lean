import LogicalForm.Text.Utf8

/-!
# Paths

A path is a sequence of bytes, in which slashes divide names. Names need not be texts. A name has a
stem and an extension, divided by its last dot; a dot at its very start divides nothing.
-/

namespace LogicalForm
set_option autoImplicit false

abbrev Name := List UInt8

namespace Name

def dot : UInt8 := 0x2E

def self : Name := [dot]

def parent : Name := [dot, dot]

def maxLength : Nat := 255

def split (name : Name) : Name × Option Name :=
  match Text.cut? (· == dot) name.reverse with
  | some (last, before) => if before = [] then (name, none) else (before.reverse, some last.reverse)
  | none => (name, none)

/-- A stem with an extension. The name of the folder above takes no extension, even if the dot that
would divide the two is what completes it. -/
def withExtension (stem extension : Name) : Name :=
  if stem ++ [dot] = parent then parent else stem ++ dot :: extension

end Name

structure Path where
  bytes : List UInt8
  deriving DecidableEq, Repr, Inhabited

namespace Path

def slash : UInt8 := 0x2F

def maxLength : Nat := 4095

def ofString (s : String) : Path := ⟨Text.Utf8.encode s⟩

def text (path : Path) : String := Text.Utf8.display path.bytes

/-- The names between the slashes. They may be empty; an empty first name means that the path starts
at the root. -/
def names (path : Path) : List Name := Text.pieces (· == slash) path.bytes

def child (folder : Path) (name : Name) : Path :=
  match folder.bytes.getLast? with
  | none => ⟨name⟩
  | some last => if last = slash then ⟨folder.bytes ++ name⟩ else ⟨folder.bytes ++ slash :: name⟩

end Path

end LogicalForm
