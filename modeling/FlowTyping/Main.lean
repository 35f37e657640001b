/-
The program.  It reads a tree of files from standard input, as the JSON list that
`FileTree.ofJson?` takes, and carries out the command that its arguments give.
-/
import FlowTyping.Command.Basic
import FlowTyping.FileTree.Json

namespace FlowTyping

/-- Everything that is left in a stream. -/
partial def readAll (stream : IO.FS.Stream) (acc : String) : IO String := do
  let line ← stream.getLine
  if line.isEmpty then return acc else readAll stream (acc ++ line)

end FlowTyping

open FlowTyping in
def main (arguments : List String) : IO UInt32 := do
  let text ← readAll (← IO.getStdin) ""
  match (Json.parse? text).bind (FileTree.ofJson? (toString (← IO.currentDir))) with
  | none =>
    IO.eprintln "Error: standard input holds no tree of files"
    return 2
  | some tree =>
    let outcome := Command.runArguments tree arguments
    IO.print outcome.output
    if let some message := outcome.error then IO.eprintln ("Error: " ++ message)
    return outcome.code.toUInt32
