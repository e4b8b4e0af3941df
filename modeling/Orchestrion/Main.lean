import Orchestrion.CommandLine

/-!
# The program

Reads the files that the arguments name, does what the command line asks for, and prints and writes
what comes of it.
-/

namespace Orchestrion.Program

def fileError : IO.Error → FileError
  | .noFileOrDirectory .. => .absent
  | .inappropriateType _ code _ => if code = 20 then .notDirectory else .isDirectory
  | .permissionDenied .. => .other "permission denied"
  | e => .other (toString e)

def readFileText (path : String) : IO (Except FileError (Except FileError Text)) := do
  try
    let bytes ← IO.FS.readBinFile path
    return .ok (.ok bytes.data.toList)
  catch e => return match fileError e with
    | .isDirectory => .ok (.error .isDirectory)
    | e => .error e

def isSameFile (path other : String) : IO Bool := do
  try return (← IO.FS.realPath path) == (← IO.FS.realPath other)
  catch _ => return false

/-- Everything that comes from a stream. -/
partial def readAllBytes (input : IO.FS.Stream) (read : ByteArray) : IO ByteArray := do
  let more ← input.read 65536
  if more.isEmpty then return read else readAllBytes input (read ++ more)

def printBytes (output : IO.FS.Stream) (t : Text) : IO Unit := do
  output.write (ByteArray.mk t.toArray)
  output.flush

def fileName (path : Text) : String := String.ofList path.chars

def readEnvironment (request : CommandLine.Request) : IO CommandLine.Environment := do
  let contents ← request.files.mapM fun path => return (path, ← readFileText (fileName path))
  let same ← request.files.filterM fun path =>
    isSameFile (fileName path) (fileName request.output)
  let input ← if request.readsInput then readAllBytes (← IO.getStdin) .empty else pure .empty
  return {
    read := fun path => (contents.lookup path).getD (.error (.other "not read"))
    refusal? := fun _ => none
    isSame := fun path _ => same.contains path
    input := input.data.toList }

def writeOutput : Option (Text × Array UInt8) → IO (Option FileError)
  | none => return none
  | some (path, bytes) => do
    try
      IO.FS.writeBinFile (fileName path) (ByteArray.mk bytes)
      return none
    catch e => return some (fileError e)

def start (args : List String) : IO UInt32 := do
  let texts := args.map Text.ofString
  let env ← readEnvironment (CommandLine.Options.parse {} texts)
  let outcome := CommandLine.run env texts
  let outcome ← match ← writeOutput outcome.file with
    | none => pure outcome
    | some e => pure (CommandLine.run { env with refusal? := fun _ => some e } texts)
  printBytes (← IO.getStdout) outcome.stdout
  printBytes (← IO.getStderr) outcome.stderr
  return UInt32.ofNat outcome.status

end Orchestrion.Program

def main (args : List String) : IO UInt32 := Orchestrion.Program.start args
