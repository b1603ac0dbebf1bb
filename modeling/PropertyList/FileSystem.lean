/-
  PropertyList.FileSystem

  Files, directories, pipes and two devices under their paths.  A path is walked
  from the working directory, or from the root if it starts with a slash; every
  component but the last must be a directory.
-/
import PropertyList.Input

namespace PropertyList

/-- What a place holds. -/
inductive Entry where
  | file (bytes : List UInt8)
  | directory
  /-- A pipe with a writer that sends some bytes and closes it. -/
  | pipe (bytes : List UInt8)
  /-- The device that is empty and takes anything. -/
  | null
  /-- The device that has no room. -/
  | full
  deriving DecidableEq

/-- A place: the names on the way from the root. -/
abbrev Place := List String

/-- Places with what they hold, and the working directory. -/
structure FileSystem where
  entries : List (Place × Entry)
  workingDirectory : Place

namespace FileSystem

/-- What a place holds.  The root is a directory. -/
def entryAt? (fs : FileSystem) (p : Place) : Option Entry :=
  if p.isEmpty then some .directory else fs.entries.lookup p

/-- The file system after a file was put at a place. -/
def putFile (fs : FileSystem) (p : Place) (bytes : List UInt8) : FileSystem :=
  if (fs.entryAt? p).isSome then
    { fs with entries := fs.entries.map fun e => if e.1 = p then (p, .file bytes) else e }
  else
    { fs with entries := fs.entries ++ [(p, .file bytes)] }

/-! ## Paths -/

/-- The most bytes of a path with its end mark. -/
def maximumPath : Nat := 4096

/-- The most bytes of one component. -/
def maximumName : Nat := 255

/-- What a path leads to: a directory, by dots or by nothing behind the last slash, or a name in a
    directory. -/
inductive Target where
  | directory (p : Place)
  | named (parent : Place) (name : String) (trailingSlash : Bool)

/-- What a name in a directory stands for. -/
def lookUp (fs : FileSystem) (p : Place) (name : String) : Except OsError (Option Entry) :=
  if maximumName < name.utf8ByteSize then .error .nameTooLong
  else .ok (fs.entryAt? (p ++ [name]))

/-- The place one component further on, if it is a directory. -/
def descend (fs : FileSystem) (p : Place) (name : String) : Except OsError Place :=
  if name = "" ∨ name = "." then .ok p
  else if name = ".." then .ok p.dropLast
  else do
    match ← fs.lookUp p name with
    | some .directory => .ok (p ++ [name])
    | some _ => .error .notDirectory
    | none => .error .noEntry

/-- Walks the components of a path.  The last one need not be there. -/
def walk (fs : FileSystem) (p : Place) : List String → Except OsError Target
  | [] => .ok (.directory p)
  | name :: rest =>
    if rest.all (· = "") then
      if name = "" ∨ name = "." ∨ name = ".." then (fs.descend p name).map .directory
      else .ok (.named p name (!rest.isEmpty))
    else do
      let p ← fs.descend p name
      fs.walk p rest

/-- What a path leads to. -/
def target (fs : FileSystem) (path : String) : Except OsError Target :=
  if maximumPath ≤ path.utf8ByteSize then .error .nameTooLong
  else fs.walk (if path.startsWith "/" then [] else fs.workingDirectory) (path.splitOn "/")

/-! ## Reading and writing -/

/-- What reading an entry gives.  A slash behind a name asks for a directory. -/
def openEntry (trailingSlash : Bool) : Option Entry → Opened
  | none => .failed .noEntry
  | some .directory => .failed .isDirectory
  | some (.file bytes) => if trailingSlash then .failed .notDirectory else .regular bytes
  | some (.pipe bytes) => if trailingSlash then .failed .notDirectory else .stream { bytes }
  | some _ => if trailingSlash then .failed .notDirectory else .stream { bytes := [] }

/-- Opens a path for reading. -/
def openForReading (fs : FileSystem) (path : String) : Opened :=
  match fs.target path with
  | .error e => .failed e
  | .ok (.directory _) => .failed .isDirectory
  | .ok (.named parent name slash) =>
    match fs.lookUp parent name with
    | .error e => .failed e
    | .ok entry => openEntry slash entry

/-- Writes a file, which is created if its directory is there. -/
def write (fs : FileSystem) (path : String) (bytes : List UInt8) : Except OsError FileSystem :=
  match fs.target path with
  | .error e => .error e
  | .ok (.directory _) => .error .isDirectory
  | .ok (.named _ _ true) => .error .isDirectory
  | .ok (.named parent name false) =>
    match fs.lookUp parent name with
    | .error e => .error e
    | .ok (some .directory) => .error .isDirectory
    | .ok (some .full) => .error .noSpace
    | .ok (some .null) => .ok fs
    | .ok (some (.pipe _)) => .ok fs
    | .ok _ => .ok (fs.putFile (parent ++ [name]) bytes)

/-- The regular files of a directory. -/
def filesIn (fs : FileSystem) (p : Place) : List (String × List UInt8) :=
  fs.entries.filterMap fun (q, e) =>
    match e, q.getLast? with
    | .file bytes, some name => if q.dropLast = p then some (name, bytes) else none
    | _, _ => none

end FileSystem

end PropertyList
