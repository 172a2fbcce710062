import EventRules.CommandLine

/-!
The program. It reads the standard input when the command needs it, prints and exits.
-/

namespace EventRules.CommandLine
set_option autoImplicit false

/-- All that is left of a stream. -/
partial def readAll (stream : IO.FS.Stream) (seen : ByteArray) : IO ByteArray := do
  let chunk ← stream.read 65536
  if chunk.isEmpty then return seen else readAll stream (seen ++ chunk)

/-- The standard input, unless it is a terminal. -/
def pipedInput : IO (Option String) := do
  let stdin ← IO.getStdin
  if ← stdin.isTty then return none
  let bytes ← readAll stdin ByteArray.empty
  match String.fromUTF8? bytes with
  | some text => return some text
  | none => throw (IO.userError "stream did not contain valid UTF-8")

end EventRules.CommandLine

open EventRules

def main (args : List String) : IO UInt32 := do
  let needsInput := (CommandLine.command? args).any CommandLine.Command.needsInput
  let stdin ← if needsInput then CommandLine.pipedInput else pure none
  let outcome := CommandLine.run args stdin
  (← IO.getStdout).putStr outcome.stdout
  (← IO.getStderr).putStr outcome.stderr
  return UInt32.ofNat outcome.exit
