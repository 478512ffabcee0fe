import JvmClass.Command

/-!
# The program

Reads the arguments and writes the class file, making missing directories on the way.
-/

open JvmClass

/-- Write a file, and the directory that it is in if need be. -/
def writeClassFile (path : String) (contents : List UInt8) : IO Unit := do
  let directory := String.ofList ((path.toList.reverse.dropWhile (· != '/')).drop 1).reverse
  if directory ≠ "" then
    IO.FS.createDirAll directory
  IO.FS.writeBinFile path (ByteArray.mk contents.toArray)

def usage : String :=
  "usage: --output-class CLASS_NAME [--message TEXT] [--major-version VERSION]"

def main (args : List String) : IO UInt32 := do
  match Command.Request.ofArgs args with
  | .information =>
    IO.println usage
    return 0
  | .wrongUsage =>
    IO.eprintln usage
    return 1
  | .assemble options =>
    match Command.greeter options with
    | .error e =>
      IO.eprintln e.message
      return 1
    | .ok contents =>
      try
        writeClassFile options.outputPath contents
        return 0
      catch e =>
        IO.eprintln (toString e)
        return 1
