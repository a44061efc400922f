import LogicalForm.Command.Basic
import LogicalForm.Command.Outcome
import LogicalForm.Query.TimeMacro
import LogicalForm.Record.Json
import LogicalForm.Record.Stream
import LogicalForm.Storage.Volume

/-!
# Running commands

A command reads one input completely, and only then is anything written: a text to the standard
output, or a file. What it makes of its input is a function of the bytes read; where they come from
and go to is a matter of the volume.
-/

namespace LogicalForm
set_option autoImplicit false

inductive CommandFault where
  | unread (path : String)
  | unopened (path : String)
  | storage (fault : StorageFault)
  | stream (fault : StreamFault)
  deriving DecidableEq, Repr

def CommandFault.message : CommandFault → String
  | unread path => s!"Failed to read {path}"
  | unopened path => s!"Failed to open {path}"
  | storage fault => fault.message
  | stream fault => fault.message

inductive Effect where
  | print (text : String)
  | save (path text : String)
  deriving DecidableEq, Repr

namespace Command

def source? : Command → Option String
  | convert source | batch source _ | templates source => source

def queryText (source : Option String) (input : Except StorageFault ByteArray) :
    Except CommandFault String :=
  match source, input.toOption.bind String.fromUTF8? with
  | _, some text => .ok text
  | none, none => .error (.stream .notText)
  | some path, none => .error (.unread path)

/-- The records of a batch. A folder can be opened, but not be read. -/
def records (codec : Record.Codec) (source : Option String) (input : Except StorageFault ByteArray) :
    Except CommandFault (List Record) :=
  match source, input with
  | _, .ok bytes => (Record.ofBytes codec bytes).mapError .stream
  | some path, .error fault => .error (if fault = .isFolder then .storage fault else .unopened path)
  | none, .error fault => .error (.storage fault)

def effect (codec : Record.Codec) (d : Dialect) (command : Command)
    (input : Except StorageFault ByteArray) : Except CommandFault Effect :=
  match command with
  | convert source => (queryText source input).map fun text =>
      .print (Query.render d ⟨text, none⟩ ++ "\n")
  | batch source target => (records codec source input).map fun records =>
      let text := Record.convertAll codec d records
      match target with
      | some path => .save path text
      | none => .print text
  | templates source => (records codec source input).map fun records =>
      .print (Range.TimeMacro.listing d (records.map (·.query.text)))

def run (codec : Record.Codec) (d : Dialect) (command : Command) (standardInput : ByteArray)
    (volume : Volume) : Outcome × Volume :=
  let input := match command.source? with
    | some path => volume.read (Path.ofString path)
    | none => .ok standardInput
  match command.effect codec d input with
  | .error fault => (.failed fault.message, volume)
  | .ok (.print text) => (.done text, volume)
  | .ok (.save path text) =>
    match volume.write (Path.ofString path) text.toUTF8 with
    | .ok volume => (.done "", volume)
    | .error fault => (.failed (CommandFault.storage fault).message, volume)

def runLine (args : List String) (standardInput : ByteArray) (volume : Volume) : Outcome × Volume :=
  match Request.ofArguments? args with
  | none => (.refused, volume)
  | some request => request.command.run Record.json request.dialect standardInput volume

end Command

end LogicalForm
