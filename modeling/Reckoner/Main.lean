import Reckoner.Command

/-!
The command line: reads the arguments and the program's text, and prints the answer. -/

namespace Reckoner

/-- All bytes of a stream that are still to come. -/
partial def readRest (stream : IO.FS.Stream) (bytes : ByteArray) : IO ByteArray := do
  let chunk ← stream.read 65536
  if chunk.isEmpty then return bytes else readRest stream (bytes ++ chunk)

/-- The text of an input, or why there is none. -/
def Input.read (input : Input) : IO (Except ReadError String) := do
  try
    let bytes ← match input with
      | .stdin => do readRest (← IO.getStdin) .empty
      | .file path => IO.FS.readBinFile path
    match String.fromUTF8? bytes with
    | some text => return .ok text
    | none => return .error .invalidData
  catch e =>
    match e with
    | .noFileOrDirectory .. => return .error .notFound
    | .permissionDenied .. => return .error .permissionDenied
    | e => return .error (.other (toString e))

end Reckoner

/-- Answers the request that the arguments make. -/
def main (args : List String) : IO UInt32 := do
  let stderr ← IO.getStderr
  let answer ← Reckoner.respond (← stderr.isTty) Reckoner.Input.read args
  IO.print answer.out
  stderr.putStr answer.err
  return answer.exit.toUInt32
