import SchemaGraph.CommandLine.Command

/-! The program, on the files of the machine. -/
namespace SchemaGraph.CommandLine

def succeeds (action : IO Unit) : IO Bool := do
  try
    action
    return true
  catch _ => return false

instance : FileAccess IO where
  read? path := do
    try return some (← IO.FS.readFile path)
    catch _ => return none
  occurs path := succeeds (discard (IO.FS.realPath path))
  write path text := succeeds (IO.FS.writeFile path text)
  workingDirectory := return (← IO.FS.realPath ".").toString

end SchemaGraph.CommandLine

def main (arguments : List String) : IO UInt32 := do
  let report ← SchemaGraph.CommandLine.run arguments
  IO.print report.output
  IO.eprint report.complaint
  return report.exitCode.toUInt32
