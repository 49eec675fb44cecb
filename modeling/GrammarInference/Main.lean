/-
GrammarInference/Main.lean

The command line: reads the main input, writes the answer.
-/
import GrammarInference.Command

open GrammarInference

/-- The text that a stream has left, behind the given one. -/
partial def readRest (stream : IO.FS.Stream) (text : String) : IO String := do
  let line ← stream.getLine
  if line.isEmpty then return text
  readRest stream (text ++ line)

/-- Writes the text for a failure, and gives the exit status. -/
def reportFailure (f : Failure) : IO UInt32 := do
  IO.eprintln f.text
  return 1

/-- Answers one command line. -/
def main (arguments : List String) : IO UInt32 := do
  match Command.ofArguments arguments with
  | .error f => reportFailure f
  | .ok (settings, command) =>
    let answer := command.answer settings (← readRest (← IO.getStdin) "")
    IO.print answer.output
    match answer.failure? with
    | some f => reportFailure f
    | none => return 0
