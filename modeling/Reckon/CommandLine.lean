import Reckon.Outcome

/-!
The words of a command line: `[-v...] [--max-depth N] [--tokens] INPUT OUTPUT`. Words are read
from left to right. An option that takes a value, and a file name, are held back until the next
word that is understood shows that they are complete; only then are they checked. So a word that
is not understood is reported before a fault in the word it follows.
-/

set_option autoImplicit false

namespace Reckon

namespace CommandLine

inductive Refusal where
  | help
  | version
  | unknownArgument
  | tooManyValues
  | missingValue
  | badValue
  | repeated
  | missingArgument
  deriving DecidableEq, Repr

def Refusal.exitCode : Refusal → Nat
  | help | version => 0
  | _ => 2

structure Options where
  verbosity : Nat
  input : Text
  output : Text
  maxDepth : Option Nat
  tokens : Bool
  deriving DecidableEq, Repr

inductive Flag where
  | verbose
  | tokens
  | help
  | version
  deriving DecidableEq, Repr

def Flag.ofLetter? : Char → Option Flag
  | 'v' => some verbose
  | 'h' => some help
  | 'V' => some version
  | _ => none

def Flag.ofName? (name : Text) : Option Flag :=
  if name = "verbose".toList then some verbose
  else if name = "tokens".toList then some tokens
  else if name = "help".toList then some help
  else if name = "version".toList then some version
  else none

/-- A word that is held back: the limit, whose value may still be missing, or a file name. -/
inductive Held where
  | depth (value : Option Text)
  | file (name : Text)
  deriving DecidableEq, Repr

/-- What the words up to here say. -/
structure Draft where
  verbosity : Nat := 0
  names : List Text := []
  maxDepth : Option Nat := none
  tokens : Bool := false
  held : Option Held := none
  onlyFiles : Bool := false
  deriving DecidableEq, Repr

def numeral? (s : Text) : Option Nat := Decimal.read? UInt64.size s

def Draft.setDepth (d : Draft) (value : Text) : Except Refusal Draft :=
  match d.maxDepth, numeral? value with
  | some _, _ => .error .repeated
  | none, some n => .ok { d with maxDepth := some n }
  | none, none => .error .badValue

def Draft.settle (d : Draft) : Except Refusal Draft :=
  let rest := { d with held := none }
  match d.held with
  | none => .ok rest
  | some (.depth none) => .error .missingValue
  | some (.depth (some value)) => rest.setDepth value
  | some (.file name) =>
    if name.isEmpty then .error .missingValue else .ok { rest with names := rest.names ++ [name] }

def Draft.louder (d : Draft) : Draft := { d with verbosity := min 255 (d.verbosity + 1) }

def Draft.fileCount (d : Draft) : Nat :=
  match d.held with
  | some (.file _) => d.names.length + 1
  | _ => d.names.length

def Draft.readFile (d : Draft) (name : Text) : Except Refusal Draft :=
  if d.fileCount < 2 then do
    let d ← d.settle
    .ok { d with held := some (.file name) }
  else .error .unknownArgument

/-- Help and version take effect as soon as they are read; `--tokens` may come once. -/
def Draft.raise (d : Draft) (flag : Flag) : Except Refusal Draft := do
  let d ← d.settle
  match flag with
  | .verbose => .ok d.louder
  | .tokens => if d.tokens then .error .repeated else .ok { d with tokens := true }
  | .help => .error .help
  | .version => .error .version

def Draft.readLetters (d : Draft) : Text → Except Refusal Draft
  | [] => .ok d
  | letter :: letters =>
    match Flag.ofLetter? letter with
    | none => .error .unknownArgument
    | some flag => do
      let d ← d.raise flag
      d.readLetters letters

def Draft.readLong (d : Draft) (name : Text) (value : Option Text) : Except Refusal Draft :=
  if name = "max-depth".toList then do
    let d ← d.settle
    match value with
    | none => .ok { d with held := some (.depth none) }
    | some value => d.setDepth value
  else match Flag.ofName? name, value with
    | none, _ => .error .unknownArgument
    | some _, some _ => .error .tooManyValues
    | some flag, none => d.raise flag

def splitLong (s : Text) : Text × Option Text :=
  match s.dropWhile (· != '=') with
  | [] => (s, none)
  | _ :: value => (s.takeWhile (· != '='), some value)

/-- Reads one word. After a lone `--` every word is a file name, and a lone `-` is no option. A
limit that waits for its value takes the next word that is no option. -/
def Draft.readWord (d : Draft) (word : Text) : Except Refusal Draft :=
  if d.onlyFiles then d.readFile word
  else match word with
    | ['-', '-'] => .ok { d with onlyFiles := true }
    | '-' :: '-' :: long => d.readLong (splitLong long).1 (splitLong long).2
    | '-' :: letter :: letters => d.readLetters (letter :: letters)
    | _ =>
      match d.held with
      | some (.depth none) => .ok { d with held := some (.depth (some word)) }
      | _ => d.readFile word

def Draft.finish (d : Draft) : Except Refusal Options := do
  let d ← d.settle
  match d.names with
  | [input, output] => .ok ⟨d.verbosity, input, output, d.maxDepth, d.tokens⟩
  | _ => .error .missingArgument

def parse (words : List Text) : Except Refusal Options := do
  let d ← words.foldlM Draft.readWord {}
  d.finish

/-- The characters of the Unicode property White_Space. -/
def isWhiteSpace (c : Char) : Bool :=
  let n := c.toNat
  (9 ≤ n && n ≤ 13) || n == 0x20 || n == 0x85 || n == 0xA0 || n == 0x1680
    || (0x2000 ≤ n && n ≤ 0x200A) || n == 0x2028 || n == 0x2029 || n == 0x202F || n == 0x205F
    || n == 0x3000

def trim (s : Text) : Text :=
  ((s.dropWhile isWhiteSpace).reverse.dropWhile isWhiteSpace).reverse

/-- The nesting limit: that of the command line, else that of the environment if it can be read,
else the default. -/
def chooseDepth (flag : Option Nat) (environment : Option Text) : Nat :=
  (flag.or (environment.bind (fun s => numeral? (trim s)))).getD defaultDepth

def Options.config (o : Options) (environment : Option Text) : Config :=
  ⟨if o.tokens then .list else .evaluate, chooseDepth o.maxDepth environment⟩

end CommandLine

end Reckon
