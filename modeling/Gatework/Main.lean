import Gatework.CommandLine.Execution

/-!
# The command line

Carries out the script of a program on real files.  The first argument may name the program that
fills catalogues; all other arguments are for the program that works on networks.
-/

namespace Gatework

/-- The cause of a failed attempt to open a file. -/
def FileError.ofCause : IO.Error → FileError
  | .inappropriateType _ code _ => if code = 21 then .isDirectory else .notDirectory
  | .invalidArgument _ code _ => if code = 36 then .nameTooLong else .notFound
  | _ => .notFound

/-- Opens and reads a real file. -/
def Contents.ofFile (path : String) : IO Contents := do
  match ← (IO.FS.Handle.mk path .read).toBaseIO with
  | .error _ => return .missing
  | .ok handle =>
      match ← handle.readBinToEnd.toBaseIO with
      | .error _ => return .directory
      | .ok data => return .bytes data.toList

/-- Carries out a script on real files. -/
def Script.perform {α : Type} : Script α → IO α
  | .done a => pure a
  | .read path next => do perform (next (← Contents.ofFile path))
  | .write path bytes next => do
      match ← (IO.FS.writeBinFile path (ByteArray.mk bytes.toArray)).toBaseIO with
      | .ok () => perform (next (.ok ()))
      | .error e => perform (next (.error (.ofCause e)))

/-- Prints how a program ended. -/
def Ending.print : Ending → IO Unit
  | success output => IO.print output.render
  | failure message => IO.eprintln ("Error: " ++ message)
  | usage e => IO.eprintln e.message
  | broken f => IO.eprintln f.message

end Gatework

/-- Runs the program that the arguments are for. -/
def main (arguments : List String) : IO UInt32 := do
  let script := match arguments with
    | "catalogue" :: arguments => Gatework.Program.cataloguer.script arguments
    | arguments => Gatework.Program.workbench.script arguments
  let ending ← script.perform
  ending.print
  return UInt32.ofNat ending.code
