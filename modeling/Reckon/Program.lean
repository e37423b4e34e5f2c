import Reckon.CommandLine
import Reckon.Files

set_option autoImplicit false

namespace Reckon

structure Ending where
  exitCode : Nat
  stdout : Text
  stderr : Text
  deriving DecidableEq, Repr

def usage : Text := "Usage: interpreter [-v...] [--max-depth N] [--tokens] INPUT OUTPUT\n".toList

def helpText : Text :=
  "Evaluate semicolon-terminated integer statements line by line\n\n".toList ++ usage ++
    "\nSet CALC_MAX_DEPTH to change the nesting limit when --max-depth is not given.\n".toList

def versionText : Text := "interpreter 0.1.0\n".toList

def Ending.ofRefusal (r : CommandLine.Refusal) : Ending :=
  match r with
  | .help => ⟨r.exitCode, helpText, []⟩
  | .version => ⟨r.exitCode, versionText, []⟩
  | _ => ⟨r.exitCode, [], usage⟩

/-- A run that ends is a success, however many lines had errors. -/
def Ending.ofResult : Except RunError Summary → Ending
  | .ok _ => ⟨0, [], []⟩
  | .error e => ⟨1, [], "error: ".toList ++ e.message ++ ['\n']⟩

def program (words : List Text) (depthVariable : Option Text) (fs : Files) : Ending × Files :=
  match CommandLine.parse words with
  | .error r => (Ending.ofRefusal r, fs)
  | .ok options =>
    match runFiles (options.config depthVariable) fs options.input options.output with
    | (result, fs) => (Ending.ofResult result, fs)

end Reckon
