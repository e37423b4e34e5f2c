import Reckon.Run

/-!
Runs between files. A path is walked name by name from the working folder, and every name but
the last has to lead to a folder. The input is opened first, then the output is made anew, and
only then is the input read.
-/

set_option autoImplicit false

namespace Reckon

inductive Entry where
  | file (content : Bytes)
  | folder
  deriving DecidableEq, Repr

/-- The way from the working folder, the innermost name first. Only names that lead out of the
working folder stay in it as steps up. -/
abbrev Place := List Text

def stepUp : Text := ['.', '.']

def root : Text := ['/']

def Place.isSurrounding (p : Place) : Bool := p.all (fun name => name == stepUp || name == root)

def Place.enter (p : Place) (name : Text) : Place :=
  if name = ['.'] then p
  else if name = stepUp then
    match p with
    | [] => [stepUp]
    | inner :: outer => if inner = root then p else if inner = stepUp then stepUp :: p else outer
  else name :: p

/-- The files and folders there are. The working folder and those around it are always there. -/
structure Files where
  entries : List (Place × Entry)
  deriving DecidableEq, Repr

def Files.entry? (fs : Files) (p : Place) : Option Entry :=
  if p.isSurrounding then some .folder else fs.entries.lookup p

def Files.put (fs : Files) (p : Place) (content : Bytes) : Files :=
  ⟨(p, .file content) :: fs.entries.filter (fun e => e.1 != p)⟩

def Files.requireFolder (fs : Files) (p : Place) : Except SystemError Unit :=
  match fs.entry? p with
  | some .folder => .ok ()
  | some (.file _) => .error .notDirectory
  | none => .error .noEntry

def Files.enter (fs : Files) (p : Place) (name : Text) : Except SystemError Place := do
  fs.requireFolder p
  if (Utf8.encode name).length ≤ 255 then .ok (p.enter name) else .error .nameTooLong

def pathNames (path : Text) : List Text :=
  (path.foldr (fun c names =>
    if c = '/' then [] :: names
    else match names with
      | [] => [[c]]
      | name :: names => (c :: name) :: names) [[]]).filter (fun name => !name.isEmpty)

def pathStart (path : Text) : Place := if path.head? = some '/' then [root] else []

def endsInSlash (path : Text) : Bool := path.getLast? == some '/'

def checkPath (path : Text) : Except SystemError Unit :=
  if path.contains '\x00' then .error .nulInName
  else if path.isEmpty then .error .noEntry
  else if (Utf8.encode path).length ≤ 4095 then .ok ()
  else .error .nameTooLong

def Files.openInput (fs : Files) (path : Text) : Except SystemError Place := do
  checkPath path
  let place ← (pathNames path).foldlM fs.enter (pathStart path)
  match fs.entry? place with
  | none => .error .noEntry
  | some .folder => .ok place
  | some (.file _) => if endsInSlash path then .error .notDirectory else .ok place

/-- Makes an empty file, in a folder that is there, or empties the file that has the name. A path
that ends in a slash or in dots can only mean a folder, and its last name is not looked up. -/
def Files.createOutput (fs : Files) (path : Text) : Except SystemError (Files × Place) := do
  checkPath path
  match (pathNames path).getLast? with
  | none => .error .isDirectory
  | some last =>
    let folder ← (pathNames path).dropLast.foldlM fs.enter (pathStart path)
    fs.requireFolder folder
    if last = ['.'] || last = stepUp || endsInSlash path then .error .isDirectory
    else
      let place ← fs.enter folder last
      match fs.entry? place with
      | some .folder => .error .isDirectory
      | _ => .ok (fs.put place [], place)

def Files.source (fs : Files) (p : Place) : Source :=
  match fs.entry? p with
  | some (.file content) => ⟨content, none⟩
  | some .folder => ⟨[], some .isDirectory⟩
  | none => ⟨[], some .noEntry⟩

def Files.plain (fs : Files) : List (Text × Bytes) :=
  fs.entries.filterMap (fun e => match e with
    | ([name], .file content) => some (name, content)
    | _ => none)

def runFiles (config : Config) (fs : Files) (input output : Text) :
    Except RunError Summary × Files :=
  match fs.openInput input with
  | .error e => (.error (.openInput input e), fs)
  | .ok source =>
    match fs.createOutput output with
    | .error e => (.error (.createOutput output e), fs)
    | .ok (fs, target) =>
      match run config (fs.source source) {} with
      | (result, sink) => (result, fs.put target sink.written.toList)

end Reckon
