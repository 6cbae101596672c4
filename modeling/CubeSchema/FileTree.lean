import CubeSchema.Failure
import CubeSchema.History
import CubeSchema.Path

/-!
# The file tree

Files and directories as a value: for every place that is not empty, named by its components from
the root, what stands there. A name is followed component by component, each of which has to be a
directory to go on from, and the failures are those that such a walk meets. Every question about a
name and every change takes the working directory that relative names start from.
-/

namespace CubeSchema

/-- Why a walk through the file tree or a change of it fails. -/
inductive FileFault where
  /-- A component does not exist. -/
  | missing
  /-- Something else stands where a directory is needed. -/
  | notDirectory
  /-- A directory stands where a file is needed. -/
  | isDirectory
  /-- There is already something. -/
  | occupied
  /-- The name holds a byte that no name may hold. -/
  | invalidName
  /-- The name, or a component of it, is longer than names may be. -/
  | nameTooLong
  /-- The name leads through too many links. -/
  | looped
  /-- What stands there may not be read. -/
  | denied
  /-- Nothing answers there. -/
  | unanswered
  deriving DecidableEq, Repr

/-- The words for a fault. -/
def FileFault.message : FileFault → Text
  | missing => lit "no such file or directory"
  | notDirectory => lit "not a directory"
  | isDirectory => lit "is a directory"
  | occupied => lit "file exists"
  | invalidName => lit "invalid argument"
  | nameTooLong => lit "file name too long"
  | looped => lit "too many levels of symbolic links"
  | denied => lit "permission denied"
  | unanswered => lit "no such device or address"

/-- A fault with what was being done and the name it was done to. -/
structure FileError where
  /-- What was being done. -/
  action : String
  /-- The name as it was given. -/
  path : Text
  /-- What went wrong. -/
  fault : FileFault
  deriving DecidableEq, Repr

namespace FileError

/-- The whole text. -/
def message (e : FileError) : Text :=
  lit e.action ++ lit " " ++ e.path ++ lit ": " ++ e.fault.message

/-- The failure that a file error is. -/
def failure (e : FileError) : Failure :=
  ⟨if e.fault = .missing then .missing else .other, e.message⟩

end FileError

/-- What stands at a place. -/
inductive Entry where
  /-- A file with its content. -/
  | file (content : Text)
  /-- A database file. -/
  | database (content : Database)
  /-- A directory; what it holds are the entries at longer places. -/
  | directory
  deriving DecidableEq, Repr

/-- The bytes that every database file starts with. -/
def databaseMagic : Text := lit "SQLite format 3" ++ [0]

/-- The bytes of a file. -/
def Entry.content : Entry → Text
  | file t => t
  | database _ => databaseMagic
  | directory => []

/-- A place in the tree: its components from the root. -/
abbrev Place := List Text

/-- What stands where. Every place occurs once, and where something stands, all places above it are
directories. The root is always there and is not listed. -/
structure FileTree where
  /-- The places that are not empty. -/
  entries : List (Place × Entry) := []
  deriving Repr

namespace FileTree

/-- What stands at a place. -/
def at? (t : FileTree) (p : Place) : Option Entry :=
  if p.isEmpty then some .directory else t.entries.lookup p

/-- Puts an entry at a place. -/
def put (t : FileTree) (p : Place) (e : Entry) : FileTree :=
  ⟨t.entries.filter (fun x => x.1 ≠ p) ++ [(p, e)]⟩

/-- Takes away what stands at a place and below it. -/
def erase (t : FileTree) (p : Place) : FileTree :=
  ⟨t.entries.filter fun x => !p.isPrefixOf x.1⟩

/-- Where a walk ends: at something, or at a name that a directory does not have yet. -/
inductive Stop where
  /-- Something stands there. -/
  | found (place : Place) (entry : Entry)
  /-- The name is free in a directory that exists. -/
  | vacant (place : Place)
  deriving DecidableEq, Repr

/-- The longest component that a name may have. -/
def maxComponent : Nat := 255

/-- The longest name that can be followed. -/
def maxName : Nat := 4095

/-- Follows components from a place. -/
def walkFrom (t : FileTree) (place : Place) : List Text → Except FileFault Stop
  | [] =>
    match t.at? place with
    | some e => .ok (.found place e)
    | none => .error .missing
  | c :: rest =>
    match t.at? place with
    | some .directory =>
      if c = Path.here then t.walkFrom place rest
      else if c = Path.up then t.walkFrom place.dropLast rest
      else if c.length > maxComponent then .error .nameTooLong
      else
        match t.at? (place ++ [c]), rest with
        | none, [] => .ok (.vacant (place ++ [c]))
        | none, _ => .error .missing
        | some _, _ => t.walkFrom (place ++ [c]) rest
    | some _ => .error .notDirectory
    | none => .error .missing

/-- The place that a name starts from. -/
def origin (cwd p : Text) : Place := if Path.isAbsolute p then [] else Path.steps cwd

/-- Whether a name says by a closing slash that it is that of a directory. -/
def wantsDirectory (p : Text) : Bool := p.getLast? = some Path.slash

/-- Follows a name; a closing slash says nothing. -/
def follow (t : FileTree) (cwd p : Text) : Except FileFault Stop :=
  if p.isEmpty then .error .missing
  else if List.contains p 0 then .error .invalidName
  else if p.length > maxName then .error .nameTooLong
  else t.walkFrom (origin cwd p) (Path.components p)

/-- Follows a name; behind a closing slash stands a directory or nothing. -/
def walk (t : FileTree) (cwd p : Text) : Except FileFault Stop :=
  match t.follow cwd p with
  | .ok (.found place (.file content)) =>
    if wantsDirectory p then .error .notDirectory else .ok (.found place (.file content))
  | .ok (.found place (.database content)) =>
    if wantsDirectory p then .error .notDirectory else .ok (.found place (.database content))
  | stop => stop

/-- What stands at a name. -/
def stat (t : FileTree) (cwd p : Text) : Except FileError Entry :=
  match t.walk cwd p with
  | .ok (.found _ e) => .ok e
  | .ok (.vacant _) => .error ⟨"stat", p, .missing⟩
  | .error f => .error ⟨"stat", p, f⟩

/-- Whether something stands at a name. -/
def contains (t : FileTree) (cwd p : Text) : Bool := (t.stat cwd p).isOk

/-- Opens a file to read it. -/
def openFile (t : FileTree) (cwd p : Text) : Except FileError Entry :=
  (t.stat cwd p).mapError fun e => { e with action := "open" }

/-- The content of a file. -/
def read (t : FileTree) (cwd p : Text) : Except FileError Text :=
  match t.openFile cwd p with
  | .ok .directory => .error ⟨"read", p, .isDirectory⟩
  | .ok e => .ok e.content
  | .error e => .error e

/-- Writes a file, which is made where there is none; its directory has to exist. -/
def write (t : FileTree) (cwd p content : Text) : Except FileError FileTree :=
  match t.walk cwd p with
  | .ok (.found _ .directory) => .error ⟨"open", p, .isDirectory⟩
  | .ok (.found place _) => .ok (t.put place (.file content))
  | .ok (.vacant place) =>
    if wantsDirectory p then .error ⟨"open", p, .isDirectory⟩
    else .ok (t.put place (.file content))
  | .error f => .error ⟨"open", p, f⟩

/-- Makes one directory. -/
def makeDir (t : FileTree) (cwd p : Text) : Except FileError FileTree :=
  match t.follow cwd p with
  | .ok (.found _ _) => .error ⟨"mkdir", p, .occupied⟩
  | .ok (.vacant place) => .ok (t.put place .directory)
  | .error f => .error ⟨"mkdir", p, f⟩

/-- Makes a directory unless there is one. -/
def ensureDir (t : FileTree) (cwd p : Text) : Except FileError FileTree :=
  match t.stat cwd p with
  | .ok .directory => .ok t
  | .ok _ => .error ⟨"mkdir", p, .notDirectory⟩
  | .error _ => t.makeDir cwd p

/-- The names that a name leads through: its beginnings up to a slash before a component, and the
whole. -/
def stages (p : Text) : List Text :=
  ((List.range p.length).filter fun i =>
    p[i]? = some Path.slash && (p[i + 1]?).any fun b => b ≠ Path.slash).map
      (fun i => p.take (i + 1)) ++ [p]

/-- Makes a directory and those above it, where they do not exist. -/
def makeDirs (t : FileTree) (cwd p : Text) : Except FileError FileTree :=
  (stages p).foldlM (fun t q => t.ensureDir cwd q) t

/-- Takes away what stands at a name and below it; a name where nothing stands is left so. -/
def remove (t : FileTree) (cwd p : Text) : FileTree :=
  match t.follow cwd p with
  | .ok (.found place _) => t.erase place
  | _ => t

end FileTree

end CubeSchema
