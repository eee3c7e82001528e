import Make24.CommandLine.Run

namespace Make24
open CommandLine Log

def freshKey : IO Random.Key := do
  let bytes ← IO.getRandomBytes 32
  return Vector.ofFn fun i =>
    ((bytes.toList.drop (4 * i)).take 4).foldl (fun word byte => word <<< 8 ||| byte.toUInt32) 0

/-- Reads up to the first line feed, one byte at a time, so that a player is answered at once. -/
partial def readLine (stream : IO.FS.Stream) (line : Array UInt8) : IO (List UInt8) := do
  let bytes ← stream.read 1
  match bytes.toList with
  | [] => return line.toList
  | byte :: _ =>
    if byte = 10 then return (line.push byte).toList else readLine stream (line.push byte)

def emit (output : Output) : IO Unit := do
  for event in output.events do
    IO.eprintln ("[" ++ event.level.label ++ "] " ++ logText event)
  IO.print output.text
  (← IO.getStdout).flush

def conclude (report : Report) : IO UInt32 := do
  emit report.output
  match report.ending with
  | .misused => IO.eprintln "error: these arguments are not understood; try '--help'"
  | .failed message => IO.eprintln ("Error: " ++ message)
  | .informed | .judged _ => pure ()
  return report.ending.exitCode.toUInt32

end Make24

open Make24 CommandLine

def main (arguments : List String) : IO UInt32 := do
  match opening arguments (← freshKey) with
  | .over report => conclude report
  | .asking output table =>
    emit output
    let input ← if table.expression.isSome then pure [] else readLine (← IO.getStdin) #[]
    conclude (table.close input)
