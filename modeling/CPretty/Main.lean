import CPretty.Cli.Run

namespace CPretty.Cli

def readEntry (path : String) : IO Entry := do
  try
    return .file (← IO.FS.readBinFile path)
  catch
    | .inappropriateType none _ _ => return .directory
    | .inappropriateType (some _) _ _ => return .obstructed
    | .invalidArgument (some _) 36 _ => return .tooLong
    | _ => return .missing

end CPretty.Cli

open CPretty.Cli in
def main (args : List String) : IO UInt32 := do
  let paths := ((request? args).map Request.paths).getD []
  let entries ← paths.mapM fun path => return (path, ← readEntry path)
  let outcome := run args fun path => (entries.lookup path).getD .missing
  (← IO.getStdout).putStr outcome.stdout
  (← IO.getStderr).putStr outcome.stderr
  return outcome.code.toUInt32
