import LogicalForm.Calendar.Stamp
import LogicalForm.Command.Run
import LogicalForm.Suite.Runner
import Std.Time.DateTime.Timestamp

/-!
# Programs

The command line of the converter, and the runner of conformance cases. Both only fetch bytes and write
what the library has made of them.
-/

namespace LogicalForm
set_option autoImplicit false

def usage : String :=
  "usage: convert [-f FILE] | batch [-f FILE] [-t FILE] | templates [-f FILE]\n" ++
  "       [--answer-variable TEXT] [--namespace-prefix TEXT] [--sentinel TEXT]"

/-- The faults that messages know; any other error is passed on. -/
def storageFault (e : IO.Error) : IO StorageFault :=
  match e with
  | .noFileOrDirectory .. => pure .missing
  | .inappropriateType _ code _ => pure (if code = 20 then .notFolder else .isFolder)
  | .invalidArgument _ 36 _ => pure .tooLong
  | e => throw e

partial def readStream (stream : IO.FS.Stream) (bytes : ByteArray) : IO ByteArray := do
  let more ← stream.read 65536
  if more.isEmpty then pure bytes else readStream stream (bytes ++ more)

def readInput (source : Option String) : IO (Except StorageFault ByteArray) := do
  match source with
  | none => return .ok (← readStream (← IO.getStdin) ByteArray.empty)
  | some path => try return .ok (← IO.FS.readBinFile path) catch e => return .error (← storageFault e)

def report (outcome : Outcome) : IO UInt32 := do
  IO.print outcome.output
  match outcome with
  | .failed message => IO.eprintln ("Error: " ++ message)
  | .refused => IO.eprintln usage
  | .done _ => pure ()
  return outcome.exitCode.toUInt32

def runRequest (request : Request) : IO Outcome := do
  let input ← readInput request.command.source?
  match request.command.effect Record.json request.dialect input with
  | .error fault => return .failed fault.message
  | .ok (.print text) => return .done text
  | .ok (.save path text) =>
    try
      IO.FS.writeFile path text
      return .done ""
    catch e => return .failed (← storageFault e).message

namespace Suite

def snapshot (volume : Volume) (folder : String) : IO Volume := do
  try
    let entries ← (← IO.FS.realPath folder).readDir
    let path := Path.ofString folder
    let files ← entries.toList.mapM fun entry => do
      let node ← try pure (Node.file (← IO.FS.readBinFile entry.path)) catch _ => pure Node.folder
      return (path.child (Text.Utf8.encode entry.fileName), node)
    return files.foldl (fun volume (file, node) => volume.install file node)
      (volume.install path .folder)
  catch _ => return volume

def now : IO Stamp := do
  let time ← Std.Time.Timestamp.now
  let nanoseconds := time.toNanosecondsSinceUnixEpoch.val
  return Instant.stamp ⟨Int.fdiv nanoseconds 1000000000, (Int.fmod nanoseconds 1000000000).toNat, 0⟩

def main (args : List String) : IO UInt32 := do
  let folders := (Argument.words? args).getD []
  let volume ← folders.foldlM snapshot Volume.empty
  let results := runArguments args volume
  let dates ← match results with
    | some (.ok results) => results.mapM fun _ => now
    | _ => pure []
  LogicalForm.report (report (dates.getD · default) results)

end Suite

end LogicalForm

def main (args : List String) : IO UInt32 := do
  match LogicalForm.Request.ofArguments? args with
  | none => LogicalForm.report .refused
  | some request => LogicalForm.report (← LogicalForm.runRequest request)
