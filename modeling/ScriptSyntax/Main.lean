import ScriptSyntax.CommandLine

/-!
The program itself: reads the files named and the setting, and writes the output.
-/

namespace ScriptSyntax

/-- The content of a file, if it can be read. -/
def readContent (path : String) : IO (Option ByteArray) := do
  try
    return some (← IO.FS.readBinFile path)
  catch _ => return none

end ScriptSyntax

open ScriptSyntax

def main (arguments : List String) : IO UInt32 := do
  let contents ← (CommandLine.paths arguments).mapM fun path => do
    return (path, ← readContent path)
  let setting ← IO.getEnv CommandLine.limitSetting
  IO.print (CommandLine.output arguments (fun path => (contents.lookup path).join) setting)
  return CommandLine.exitCode
