import RegionTree.CommandLine
set_option autoImplicit false

/-!
# The program

Runs a command on the files of the system: reads the files that the command looks at, and writes
the one in its report.
-/

namespace RegionTree.CommandLine

/-- The number that the system has for an error. -/
def errorCode : IO.Error → Nat
  | .alreadyExists _ code _ => code.toNat
  | .otherError code _ => code.toNat
  | .resourceBusy code _ => code.toNat
  | .resourceVanished code _ => code.toNat
  | .unsupportedOperation code _ => code.toNat
  | .hardwareFault code _ => code.toNat
  | .unsatisfiedConstraints code _ => code.toNat
  | .illegalOperation code _ => code.toNat
  | .protocolError code _ => code.toNat
  | .timeExpired code _ => code.toNat
  | .interrupted _ code _ => code.toNat
  | .noFileOrDirectory _ code _ => code.toNat
  | .invalidArgument _ code _ => code.toNat
  | .permissionDenied _ code _ => code.toNat
  | .resourceExhausted _ code _ => code.toNat
  | .inappropriateType _ code _ => code.toNat
  | .noSuchThing _ code _ => code.toNat
  | .unexpectedEof => 0
  | .userError _ => 0

/-- The fault that an error of the system stands for. -/
def FileFault.ofError (e : IO.Error) : FileFault :=
  let code := errorCode e
  let known := [missing, notDirectory, isDirectory, longName, ⟨"Permission denied", 13⟩]
  (known.find? fun fault => fault.code == code).getD ⟨e.toString, code⟩

/-- The content of a file of the system. -/
def readFile (path : String) : IO (String × Except FileFault Binary.Bytes) := do
  try
    let content ← IO.FS.readBinFile path
    pure (path, .ok content.data.toList)
  catch e => pure (path, .error (.ofError e))

/-- Prints the outcome of a command and gives its status. -/
def conclude (outcome : Outcome) : IO UInt32 := do
  IO.print outcome.output
  IO.eprint outcome.errors
  pure outcome.status.toUInt32

/-- Writes the file in a report, if there is one. -/
def finish (report : Report) : IO UInt32 := do
  match report.file with
  | none => conclude (.success report.text)
  | some (path, content) =>
    try
      IO.FS.writeBinFile path ⟨content.toArray⟩
      conclude (.success report.text)
    catch e => conclude (.failure (.unwritable path (.ofError e)))

/-- Runs a command on the files of the system. -/
def run (command : Command) : IO UInt32 := do
  let files ← command.files.mapM readFile
  let input ← if command.readsInput then (← IO.getStdin).readBinToEnd else pure .empty
  let read := fun path => (files.lookup path).getD (.error .missing)
  match command.report ⟨read, input.data.toList⟩ with
  | .error failure => conclude (.failure failure)
  | .ok report => finish report

end RegionTree.CommandLine

/-- Runs the command that the arguments ask for. -/
def main (args : List String) : IO UInt32 :=
  match RegionTree.CommandLine.Command.ofArguments args with
  | .error refusal => RegionTree.CommandLine.conclude refusal.outcome
  | .ok command => RegionTree.CommandLine.run command
