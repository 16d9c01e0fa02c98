import AhoCorasick.Scan

/-!
# The command line

Reads the text from standard input, runs the scan command and prints what it leaves.
-/

namespace AhoCorasick

/-- The bytes of a stream up to its end, put behind those read before. -/
partial def readToEnd (stream : IO.FS.Stream) (read : ByteArray) : IO ByteArray := do
  let chunk ← stream.read 65536
  if chunk.isEmpty then return read
  readToEnd stream (read ++ chunk)

end AhoCorasick

/-- The scan command. Its input is read only if there are patterns to search it for. -/
def main (arguments : List String) : IO UInt32 := do
  let input ←
    if arguments.isEmpty then pure ByteArray.empty
    else AhoCorasick.readToEnd (← IO.getStdin) ByteArray.empty
  let outcome := AhoCorasick.Scan.run arguments input.data
  let stdout ← IO.getStdout
  stdout.putStr outcome.output
  stdout.flush
  return outcome.code.toUInt32
