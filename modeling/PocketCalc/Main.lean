import PocketCalc.CommandLine.Run

/-!
# The command line

Reads the standard input when a command needs it, executes the command and writes its outcome. When
there is nothing to execute there is only an exit code.
-/

namespace PocketCalc.CommandLine

/-- All bytes of a stream that are not read yet. -/
partial def readAll (stream : IO.FS.Stream) (before : ByteArray) : IO ByteArray := do
  let block ← stream.read 65536
  if block.isEmpty then return before
  else readAll stream (before ++ block)

end PocketCalc.CommandLine

open PocketCalc.CommandLine in
/-- Runs the calculator with the given arguments. -/
def main (args : List String) : IO UInt32 := do
  match Command.parse args with
  | .error e => return e.exitCode.toUInt32
  | .ok command =>
    let input ←
      if command.needsInput then readAll (← IO.getStdin) ByteArray.empty
      else pure ByteArray.empty
    let outcome := command.execute input
    IO.print outcome.output
    IO.eprint outcome.errors
    return outcome.exitCode.toUInt32
