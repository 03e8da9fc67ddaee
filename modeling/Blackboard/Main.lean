import Blackboard.CommandLine.Run

/-! The command: finds out what a run needs to know, and does what its report says. -/
namespace Blackboard.CommandLine

def probe (directory path : String) : IO (String × Entry) := do
  let file := (← IO.currentDir) / path
  if ← file.isDir then
    return (path, .directory)
  else if ← file.pathExists then
    match String.fromUTF8? (← IO.FS.readBinFile file) with
    | some text => return (path, .text text)
    | none => return (path, .binary)
  else
    return (path, if path = directory then .directory else .missing)

def probeAll (inv : Invocation) : IO Files := do
  match parse inv.arguments with
  | .ok s => (paths inv s).mapM (probe inv.directory)
  | .error _ => return []

partial def readAll (stream : IO.FS.Stream) (read : String) : IO String := do
  let line ← stream.getLine
  if line.isEmpty then return read else readAll stream (read ++ line)

def readInput (args : List String) : IO String := do
  match parse args with
  | .ok s => if (given? s.inputFile).isSome || s.help then return "" else readAll (← IO.getStdin) ""
  | .error _ => return ""

def write (path : String) (content : Content) : IO Unit := do
  let text := match content with
    | .text s => s
    | .json j => j.pretty 0
  IO.FS.createDirAll (Path.parent path)
  IO.FS.writeFile path text

def secondsText (nanoseconds : Nat) : String :=
  let n := (nanoseconds + 50000) / 100000
  let decimals := (Nat.toDigits 10 (n % 10000))
  toString (n / 10000) ++ "." ++ String.ofList (List.replicate (4 - decimals.length) '0' ++ decimals)

def faultText : FileFault → String
  | .notFound => "No such file or directory"
  | .isDirectory => "Is a directory"
  | .notDirectory => "Not a directory"
  | .notText => "The file holds no text"
  | .exists_ => "File exists"

end Blackboard.CommandLine

open Blackboard.CommandLine in
def main (args : List String) : IO UInt32 := do
  let start ← IO.monoNanosNow
  let isTerminal ← (← IO.getStdin).isTty
  let input ← if isTerminal then pure "" else readInput args
  let inv : Invocation :=
    { arguments := args, input := input, isTerminal := isTerminal
      directory := (← IO.currentDir).toString }
  let report := run { inv with files := ← probeAll inv }
  report.writes.forM fun (path, content) => write path content
  (← IO.getStdout).putStr report.output
  let stop ← IO.monoNanosNow
  (← IO.getStderr).putStr (report.errorText (secondsText (stop - start)))
  match report.status with
  | .ok n => return n.toUInt32
  | .error fault =>
    IO.eprintln (faultText fault)
    return 1
