import Reckon.Outcome
import Reckon.Utf8

/-!
A run over a whole input. Each line that is not blank is written to the output, followed by the
block of its outcome. Lines are read, interpreted and written one after the other, so whatever
fails leaves the report of the lines before it.
-/

set_option autoImplicit false

namespace Reckon

inductive SystemError where
  | noEntry
  | notDirectory
  | isDirectory
  | nameTooLong
  | nulInName
  | other (text : Text)
  deriving DecidableEq, Repr

def SystemError.message : SystemError → Text
  | noEntry => "No such file or directory (os error 2)".toList
  | notDirectory => "Not a directory (os error 20)".toList
  | isDirectory => "Is a directory (os error 21)".toList
  | nameTooLong => "File name too long (os error 36)".toList
  | nulInName => "file name contained an unexpected NUL byte".toList
  | other text => text

inductive RunError where
  | openInput (path : Text) (e : SystemError)
  | createOutput (path : Text) (e : SystemError)
  | read (line : Nat) (e : SystemError)
  | write (e : SystemError)
  deriving DecidableEq, Repr

def RunError.message : RunError → Text
  | openInput path e => "could not open ".toList ++ path ++ " for reading: ".toList ++ e.message
  | createOutput path e => "could not open ".toList ++ path ++ " for writing: ".toList ++ e.message
  | read line e => "failed to read line ".toList ++ Decimal.digits line ++ ": ".toList ++ e.message
  | write e => "failed to write output: ".toList ++ e.message

def newline : UInt8 := 10

/-- The lines of an input, each with the newline that ends it; the last may have none. -/
def splitLines (bytes : Bytes) : List Bytes :=
  bytes.foldr (fun b lines =>
    if b = newline then [b] :: lines
    else match lines with
      | [] => [[b]]
      | line :: lines => (b :: line) :: lines) []

theorem flatten_splitLines (bytes : Bytes) : (splitLines bytes).flatten = bytes := by
  induction bytes with
  | nil => rfl
  | cons b bytes ih =>
    simp only [splitLines, List.foldr_cons] at ih ⊢
    split
    · simp [ih]
    · split <;> simp_all

structure Source where
  bytes : Bytes
  fault : Option SystemError
  deriving DecidableEq, Repr

def Source.broken (bytes : Bytes) (limit : Nat) (e : SystemError) : Source :=
  ⟨bytes.take limit, some e⟩

/-- The lines that can be read. A fault takes the line that it interrupts with it. -/
def Source.lines (s : Source) : List Bytes :=
  match s.fault with
  | none => splitLines s.bytes
  | some _ => (splitLines s.bytes).filter (fun line => line.getLast? == some newline)

/-- An output: what it has taken, how much it takes in all and the error beyond that, and the
error of flushing it. -/
structure Sink where
  written : Array UInt8 := #[]
  limit : Option (Nat × SystemError) := none
  flushFault : Option SystemError := none
  deriving DecidableEq, Repr

def Sink.write (s : Sink) (bytes : Bytes) : Sink × Option SystemError :=
  match s.limit with
  | none => ({ s with written := s.written ++ bytes }, none)
  | some (size, e) =>
    let room := size - s.written.size
    ({ s with written := s.written ++ bytes.take room },
      if bytes.length ≤ room then none else some e)

structure Summary where
  lines : Nat := 0
  skipped : Nat := 0
  failed : Nat := 0
  deriving DecidableEq, Repr

def chomp (line : Text) : Text :=
  match line.getLast? with
  | some '\n' => line.dropLast
  | _ => line

def runLines (config : Config) : List Bytes → Summary → Sink → Except RunError Summary × Sink
  | [], summary, sink => (.ok summary, sink)
  | line :: lines, summary, sink =>
    let number := summary.lines + 1
    let text := Utf8.decode line
    if isBlank text then
      runLines config lines { summary with lines := number, skipped := summary.skipped + 1 } sink
    else
      let text := chomp text
      let outcome := interpret config number text
      let failed := if outcome.isError then summary.failed + 1 else summary.failed
      match sink.write (Utf8.encode (text ++ ['\n'])) with
      | (sink, some e) => (.error (.write e), sink)
      | (sink, none) =>
        match sink.write (Utf8.encode outcome.text) with
        | (sink, some e) => (.error (.write e), sink)
        | (sink, none) =>
          runLines config lines { summary with lines := number, failed := failed } sink

def run (config : Config) (source : Source) (sink : Sink) : Except RunError Summary × Sink :=
  match runLines config source.lines {} sink with
  | (.error e, sink) => (.error e, sink)
  | (.ok summary, sink) =>
    match source.fault, sink.flushFault with
    | some e, _ => (.error (.read (summary.lines + 1) e), sink)
    | none, some e => (.error (.write e), sink)
    | none, none => (.ok summary, sink)

end Reckon
