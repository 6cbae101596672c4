import CubeSchema.Command.Execute
import CubeSchema.History.Record

/-!
# The program

Takes the files of the project from the disk, runs the command line on them, writes back what has
changed, and prints what the command wrote. The files are those of the project, which is the
directory of the nearest configuration file or the working directory, and those around every name on
the command line.
-/

namespace CubeSchema.Program

/-- The text of a string. -/
def textOf (s : String) : Text := lit s

/-- The string of a text. -/
def stringOf (t : Text) : String := (String.fromUTF8? ⟨t.toArray⟩).getD ""

/-- Directories that no project keeps files of its own in. -/
def passedOver : List String := ["node_modules", ".git"]

/-- What a file holds. -/
def entryOf (content : ByteArray) : Entry :=
  let t := content.data.toList
  match Database.decode? t with
  | some d => .database d
  | none => .file t

/-- The bytes of a file with an entry. -/
def bytesOf : Entry → ByteArray
  | .database d => ⟨d.encode.toArray⟩
  | e => ⟨e.content.toArray⟩

/-- Takes a directory, and everything below it, from the disk. A link that is met in it is taken as
what it leads to, but is not entered. -/
partial def addBelow (t : FileTree) (place : Place) : IO FileTree := do
  let disk ← IO.currentDir
  let path := disk / stringOf (Path.assemble true place)
  if ← path.isDir then
    let t := if place.isEmpty then t else t.put place .directory
    (← path.readDir).foldlM (fun t e => do
      let below := place ++ [textOf e.fileName]
      if passedOver.contains e.fileName then return t
      else if (← e.path.isDir) && (← e.path.symlinkMetadata).type == .symlink then
        return t.put below .directory
      else addBelow t below) t
  else if ← path.pathExists then return t.put place (entryOf (← IO.FS.readBinFile path))
  else return t

/-- Takes the directories above a place from the disk, without what else they hold. -/
def addAbove (t : FileTree) (place : Place) : FileTree :=
  (List.range place.length).foldl (fun t n =>
    let above := place.take (n + 1)
    if n + 1 < place.length && (t.at? above).isNone then t.put above .directory else t) t

/-- The names of files that a word of the command line may hold. -/
def namesIn (word : Text) : List Text :=
  [word, (word.dropWhile (· ≠ ascii '=')).drop 1].filter fun t =>
    !t.isEmpty && t.head? ≠ some (ascii '-')

/-- Takes the directory of a name from the disk, if there is something of that name. -/
def addAround (t : FileTree) (cwd name : Text) : IO FileTree := do
  let disk ← IO.currentDir
  let path := Path.absolute cwd name
  if ← (disk / stringOf path).pathExists then
    let place := Path.steps (Path.dir path)
    addBelow (addAbove t place) place
  else return t

/-- The nearest directory with a configuration file, at most `levels` directories above. -/
def projectRoot (dir : Text) : Nat → IO (Option Text)
  | 0 => return none
  | levels + 1 => do
    let disk ← IO.currentDir
    let found ← Config.fileNames.anyM fun name =>
      (disk / stringOf (Path.join [dir, name])).pathExists
    if found then return some dir
    else if Path.dir dir = dir then return none
    else projectRoot (Path.dir dir) levels

/-- The environment variables that are settings. -/
def environment : IO (List (Text × Text)) := do
  Settings.defaults.filterMapM fun s => do
    let name := Settings.environmentMark ++ s.1.upper
    return (← IO.getEnv (stringOf name)).map fun v => (name, textOf v)

/-- The present moment, as the disk gives it to a new file. -/
def moment : IO Int := do
  let (_, path) ← IO.FS.createTempFile
  let m ← path.metadata
  IO.FS.removeFile path
  return m.modified.sec * 1000 + (m.modified.nsec.toNat / 1000000 : Nat)

/-- A fresh name for a run. -/
def freshId : IO Text := do
  let bytes := (← IO.getRandomBytes 16).data.toList
  let digits := Text.hex bytes
  return Text.join (lit "-") [digits.take 8, (digits.drop 8).take 4, (digits.drop 12).take 4,
    (digits.drop 16).take 4, digits.drop 20]

/-- Writes what has changed to the disk. -/
def writeBack (old new : FileTree) : IO Unit := do
  let disk ← IO.currentDir
  for (place, entry) in new.entries do
    if old.at? place ≠ some entry then
      let path := disk / stringOf (Path.assemble true place)
      match entry with
      | .directory => IO.FS.createDirAll path
      | e => IO.FS.writeBinFile path (bytesOf e)

/-- Runs a command line on the disk. -/
def run (words : List Text) : IO UInt32 := do
  let cwd := textOf (← IO.currentDir).toString
  let base := (← projectRoot cwd Config.maxLevels).getD cwd
  let places := [Path.steps base, Path.steps cwd]
  let tree ← places.foldlM (fun t p => addBelow (addAbove t p) p) ({} : FileTree)
  let tree ← (words.flatMap namesIn).foldlM (fun t name => addAround t cwd name) tree
  let host : Host :=
    { cwd, env := ← environment, now := ← moment, runId := ← freshId, toolchain := lit "unknown" }
  let (failure, session) := execute host tree words
  writeBack tree session.tree
  (← IO.getStdout).write ⟨session.console.out.toArray⟩
  (← IO.getStderr).write ⟨session.console.err.toArray⟩
  return if failure.isSome then 1 else 0

end CubeSchema.Program

/-- The program. -/
def main (args : List String) : IO UInt32 :=
  CubeSchema.Program.run (args.map CubeSchema.Program.textOf)
