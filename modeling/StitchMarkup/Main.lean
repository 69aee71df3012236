import StitchMarkup.Terminal

/-! The command line: reads a document from standard input and prints it in colour. -/

namespace StitchMarkup

/-- Reads a stream to its end. -/
partial def readAll (stream : IO.FS.Stream) (bytes : ByteArray) : IO ByteArray := do
  let chunk ← stream.read 65536
  if chunk.isEmpty then return bytes
  readAll stream (bytes ++ chunk)

end StitchMarkup

def main : IO UInt32 := do
  let bytes ← StitchMarkup.readAll (← IO.getStdin) .empty
  match StitchMarkup.Terminal.paintBytes bytes with
  | .ok text =>
      (← IO.getStdout).putStr text
      return 0
  | .error error =>
      (← IO.getStderr).putStrLn error.message
      return 101
