import FlowPlan.Text.Utf8

/-!
# Files

A `Disk` is what commands do with files: read one, write one, make a directory. `Files` is a disk that is a plain value: a
directory with files and directories in it, under paths as a file system resolves them. A path starts at that directory; `.`
stays, `..` goes up but not out of it, and empty parts count for nothing, except that a path with a slash at its end wants a
directory.
-/

namespace FlowPlan

/-- Why a file operation fails. -/
inductive FileFault
  | notFound
  | alreadyExists
  | notADirectory
  | isADirectory
  | nameTooLong
  | permissionDenied
  /-- a path that holds a NUL character -/
  | invalidPath
  /-- a file that holds no text -/
  | notText
  /-- any other fault that the system reports -/
  | other (number : Nat) (text : String)
  deriving DecidableEq, Repr

namespace FileFault

/-- The number of the fault, its kind and its text; a fault that the system does not know has no number. -/
def description : FileFault → Option Nat × String × String
  | .notFound => (some 2, "NotFound", "No such file or directory")
  | .alreadyExists => (some 17, "AlreadyExists", "File exists")
  | .notADirectory => (some 20, "NotADirectory", "Not a directory")
  | .isADirectory => (some 21, "IsADirectory", "Is a directory")
  | .nameTooLong => (some 36, "InvalidFilename", "File name too long")
  | .permissionDenied => (some 13, "PermissionDenied", "Permission denied")
  | .invalidPath => (none, "InvalidInput", "file name contained an unexpected NUL byte")
  | .notText => (none, "InvalidData", "stream did not contain valid UTF-8")
  | .other number text => (some number, "Uncategorized", text)

/-- The fault that a system reports by its number and text. -/
def ofNumber (number : Nat) (text : String) : FileFault :=
  match [notFound, alreadyExists, notADirectory, isADirectory, nameTooLong, permissionDenied].find? fun f =>
      f.description.1 = some number with
  | some fault => fault
  | none => .other number text

/-- The fault in a sentence. -/
def message (f : FileFault) : String :=
  match f.description with
  | (some number, _, text) => s!"{text} (os error {number})"
  | (none, _, text) => text

/-- The fault field by field. -/
def fieldText (f : FileFault) : String :=
  match f.description with
  | (some number, kind, text) =>
    "Os \x7b code: " ++ toString number ++ ", kind: " ++ kind ++ ", message: \"" ++ text ++ "\" \x7d"
  | (none, kind, text) => "Error \x7b kind: " ++ kind ++ ", message: \"" ++ text ++ "\" \x7d"

end FileFault

/-- What commands do with files, in a monad `m`. -/
structure Disk (m : Type → Type) where
  read : (path : String) → m (Except FileFault (List UInt8))
  write : (path : String) → List UInt8 → m (Except FileFault Unit)
  /-- makes a directory, unless it is there -/
  makeDirectory : (path : String) → m (Except FileFault Unit)

/-- What a path can lead to. -/
inductive Entry
  | directory
  | file (content : List UInt8)
  deriving DecidableEq, Repr

/-- The entries below a directory, by the names on the way to them. -/
structure Files where
  entries : List (List String × Entry) := []
  deriving Repr, Inhabited

namespace Files

/-- The entry at a place; the place without names is the directory itself. -/
def entryAt? (fs : Files) (place : List String) : Option Entry :=
  if place.isEmpty then some .directory else fs.entries.lookup place

/-- Puts an entry at a place. -/
def put (fs : Files) (place : List String) (entry : Entry) : Files :=
  if (fs.entries.lookup place).isSome then
    { entries := fs.entries.map fun e => if e.1 = place then (place, entry) else e }
  else { entries := fs.entries ++ [(place, entry)] }

/-- The longest name of an entry, in bytes. -/
def nameLimit : Nat := 255

/-- The first length of a path that is refused, in bytes. -/
def pathLimit : Nat := 4096

/-- The parts of a path between slashes, without empty ones. -/
def parts (path : String) : List String :=
  (path.splitOn "/").filter (· ≠ "")

/-- Whether a path wants a directory at its end. -/
def endsWithSlash (path : String) : Bool :=
  path.toList.getLast? = some '/'

/-- What is wrong with a path before anything is looked up. -/
def checkPath (path : String) : Except FileFault Unit :=
  if path.toList.contains (.ofNat 0) then .error .invalidPath
  else if path.isEmpty then .error .notFound
  else if pathLimit ≤ path.utf8ByteSize then .error .nameTooLong
  else .ok ()

/-- One part further from a place. -/
def stepTo (fs : Files) (place : List String) (part : String) : Except FileFault (List String) :=
  if fs.entryAt? place ≠ some .directory then .error .notADirectory
  else if part = "." then .ok place
  else if part = ".." then .ok place.dropLast
  else if nameLimit < part.utf8ByteSize then .error .nameTooLong
  else if (fs.entryAt? (place ++ [part])).isNone then .error .notFound
  else .ok (place ++ [part])

/-- Where parts lead. -/
def resolve (fs : Files) (parts : List String) : Except FileFault (List String) :=
  parts.foldlM fs.stepTo []

/-- The content of the file at a path. -/
def read (fs : Files) (path : String) : Except FileFault (List UInt8) := do
  checkPath path
  let place ← fs.resolve (parts path)
  match fs.entryAt? place with
  | some (.file content) => if endsWithSlash path then throw .notADirectory else return content
  | _ => throw .isADirectory

/-- The files after writing one, which replaces the one that is there. -/
def write (fs : Files) (path : String) (content : List UInt8) : Except FileFault Files := do
  checkPath path
  let parts := parts path
  let place ← fs.resolve parts.dropLast
  if fs.entryAt? place ≠ some .directory then throw .notADirectory
  match parts.getLast? with
  | none => throw .isADirectory
  | some "." => throw .isADirectory
  | some ".." => throw .isADirectory
  | some name =>
    if endsWithSlash path then throw .isADirectory
    if nameLimit < name.utf8ByteSize then throw .nameTooLong
    let place := place ++ [name]
    if fs.entryAt? place = some .directory then throw .isADirectory
    return fs.put place (.file content)

/-- The files with a directory of the given name. -/
def makeDirectory (fs : Files) (name : String) : Except FileFault Files :=
  match fs.entryAt? [name] with
  | none => .ok (fs.put [name] .directory)
  | some .directory => .ok fs
  | some (.file _) => .error .alreadyExists

/-- Performs a change that may fail. -/
def change (f : Files → Except FileFault Files) : StateM Files (Except FileFault Unit) := do
  match f (← get) with
  | .ok fs => do set fs; return .ok ()
  | .error fault => return .error fault

/-- Files as a disk. -/
def disk : Disk (StateM Files) where
  read path := do return (← get).read path
  write path content := change (·.write path content)
  makeDirectory name := change (·.makeDirectory name)

/-- The plain files right in the directory at a place, with their names. -/
def filesIn (fs : Files) (place : List String) : List (String × List UInt8) :=
  fs.entries.filterMap fun
    | (names, .file content) => names.getLast?.bind fun name => if names = place ++ [name] then some (name, content) else none
    | (_, .directory) => none

end Files

end FlowPlan
