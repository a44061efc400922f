import LogicalForm.Record.Basic
import LogicalForm.Text.Utf8

/-!
# Streams of records

A stream holds one record per line. Blank lines hold none, but are counted. The first line that is no
text or no record ends the reading, and then the stream has no records at all.
-/

namespace LogicalForm
set_option autoImplicit false

inductive StreamFault where
  | notText
  | record (line : Nat)
  deriving DecidableEq, Repr

def StreamFault.message : StreamFault → String
  | notText => "stream did not contain valid UTF-8"
  | record line => s!"Invalid query record on line {line}"

namespace Record

variable (codec : Codec)

/-- Reads lines of which the first has the given number. -/
def ofLines (number : Nat) : List (Option String) → Except StreamFault (List Record)
  | [] => .ok []
  | none :: _ => .error .notText
  | some line :: rest =>
    if (Text.trim line).isEmpty then ofLines (number + 1) rest
    else
      match codec.decode line with
      | none => .error (.record number)
      | some record => (ofLines (number + 1) rest).map (record :: ·)

def ofBytes (bytes : ByteArray) : Except StreamFault (List Record) := ofLines codec 1 (Text.Utf8.lines bytes)

def convertAll (d : Dialect) (records : List Record) : String :=
  let batch := Batch.ofQueries d (records.map Record.query)
  String.join (records.zipWith (fun record expression => codec.encode record.id expression ++ "\n")
    (batch.rendered d.sentinel))

end Record

end LogicalForm
