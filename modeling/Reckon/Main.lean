import Reckon.Program

set_option autoImplicit false

namespace Reckon

def SystemError.ofIOError (e : IO.Error) : SystemError :=
  match e with
  | .noFileOrDirectory _ _ _ => .noEntry
  | .inappropriateType _ 20 _ => .notDirectory
  | .inappropriateType _ 21 _ => .isDirectory
  | e => .other e.toString.toList

def attempt {α : Type} (wrap : SystemError → RunError) (act : IO α) : ExceptT RunError IO α := do
  match ← act.toBaseIO with
  | .ok a => pure a
  | .error e => throw (wrap (SystemError.ofIOError e))

def readSource (input : IO.FS.Handle) : IO Source := do
  match ← input.readBinToEnd.toBaseIO with
  | .ok bytes => pure ⟨bytes.toList, none⟩
  | .error e => pure ⟨[], some (SystemError.ofIOError e)⟩

def interpretFiles (config : Config) (input output : Text) : ExceptT RunError IO Summary := do
  let reader ← attempt (.openInput input) (IO.FS.Handle.mk (String.ofList input) .read)
  let writer ← attempt (.createOutput output) (IO.FS.Handle.mk (String.ofList output) .write)
  let source ← readSource reader
  let (result, sink) := run config source {}
  attempt .write (writer.write ⟨sink.written⟩)
  attempt .write writer.flush
  ExceptT.mk (pure result)

def Ending.deliver (e : Ending) : IO UInt32 := do
  IO.print (String.ofList e.stdout)
  IO.eprint (String.ofList e.stderr)
  pure e.exitCode.toUInt32

end Reckon

open Reckon in
def main (args : List String) : IO UInt32 := do
  match CommandLine.parse (args.map String.toList) with
  | .error r => (Ending.ofRefusal r).deliver
  | .ok options =>
    let depth ← IO.getEnv "CALC_MAX_DEPTH"
    let config := options.config (depth.map String.toList)
    let result ← (interpretFiles config options.input options.output).run
    (Ending.ofResult result).deliver
