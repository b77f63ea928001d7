import Pseudocode.CommandLine.Reply

/-!
# The command

Reads what the arguments ask for, and prints the reply.
-/

namespace Pseudocode.Main

open CommandLine

/-- A failure to read, by its cause. -/
def readFailure : IO.Error → ReadFailure
  | .noFileOrDirectory .. => .notFound
  | .inappropriateType .. => .isDirectory
  | .permissionDenied .. => .denied
  | e => .other e.toString

/-- Reads the bytes of an input, if there are any to read. -/
def readInput : Input → IO (Except ReadFailure ByteArray)
  | .file path => do
    try
      let bytes ← IO.FS.readBinFile path
      pure (.ok bytes)
    catch e => pure (.error (readFailure e))
  | .standardInput => do
    let stdin ← IO.getStdin
    let bytes ← IO.FS.Stream.readBinToEnd stdin
    pure (.ok bytes)
  | .inline _ | .nothing => pure (.ok ByteArray.empty)

/-- Runs the command on its words. Colours are off where the choice is left open. -/
def replyTo (words : List String) : IO Reply := do
  match Arguments.read words with
  | .error e => pure e.reply
  | .ok arguments => do
    let colored := arguments.color.enabled?.getD false
    let contents ← readInput arguments.input
    pure (reply arguments colored ampleFuel contents)

end Pseudocode.Main

/-- Prints the reply and answers its status. -/
def main (words : List String) : IO UInt32 := do
  let reply ← Pseudocode.Main.replyTo words
  IO.print reply.output
  IO.eprint reply.errors
  pure (UInt32.ofNat reply.status)
