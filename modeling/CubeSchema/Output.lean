import CubeSchema.Compilation
import CubeSchema.Sha256
import CubeSchema.Store

/-!
# Writing outputs

Every compiled file goes to a place of its own below the output directory. Where a store is at hand,
a file is left alone if it is still there and the store has the digest of the same content for it.
The digest is stored after the file has been written, so a digest in the store is that of a content
that was there.
-/

namespace CubeSchema

/-- The name of an output from the output directory. A name that leads out of it keeps its last
component only. -/
def outputPath (p : Text) : Text :=
  if Path.isAbsolute p || Path.escapes p then Path.base p else p

/-- The name of the file that an output goes to. -/
def outputTarget (outDir p : Text) : Text := Path.join [outDir, outputPath p]

/-- What writing outputs needs, as actions that may fail. -/
structure OutputSite (m : Type → Type) where
  /-- Fails when the work has been called off. -/
  proceed : m Unit
  /-- The digest stored for a target; none when no digests are stored at all. -/
  lookUp : Text → m (Option Text)
  /-- Whether a target is there. -/
  holds : Text → m Bool
  /-- Makes a directory with those above it. -/
  makeDirs : Text → m Unit
  /-- Writes a target. -/
  write : Text → Text → m Unit
  /-- Stores the digest of what a target holds now. -/
  remember : Text → Text → m Unit

/-- What was done with an output. -/
inductive Disposition where
  /-- It was written. -/
  | written
  /-- It was left alone. -/
  | skipped
  deriving DecidableEq, Repr

/-- How many outputs were written and left alone, and the failure that ended the work. -/
structure WriteReport (ε : Type) where
  /-- The number of outputs written. -/
  written : Nat := 0
  /-- The number of outputs left alone. -/
  skipped : Nat := 0
  /-- What ended the work early. -/
  failure : Option ε := none
  deriving Repr

/-- Counts an output. -/
def WriteReport.count {ε : Type} (r : WriteReport ε) : Disposition → WriteReport ε
  | .written => { r with written := r.written + 1 }
  | .skipped => { r with skipped := r.skipped + 1 }

/-- Writes one output unless its target is known to hold it already. -/
def writeOutput {m : Type → Type} [Monad m] (site : OutputSite m) (target source : Text) :
    m Disposition := do
  site.proceed
  let hash := Sha256.hexDigest source
  let known ← site.lookUp target
  let there ← if known = some hash then site.holds target else pure false
  if there then return .skipped
  site.makeDirs (Path.dir target)
  site.write target source
  site.remember target hash
  return .written

/-- Writes outputs one after the other up to the first failure. -/
def writeOutputs {σ ε : Type} (site : OutputSite (ExceptT ε (StateM σ))) (outDir : Text) :
    List (Text × Text) → StateM σ (WriteReport ε)
  | [] => return {}
  | (path, source) :: rest => do
    match ← (writeOutput site (outputTarget outDir path) source).run with
    | .error e => return { failure := some e }
    | .ok d => return (← writeOutputs site outDir rest).count d

/-- Files, and the store of digests if there is one. -/
structure Workspace where
  /-- The file tree. -/
  tree : FileTree
  /-- The store. -/
  store : Option Store := none

namespace Workspace

/-- Runs an action that changes the store and the file tree. -/
def onStore (act : Store → FileTree → Except StoreError (Store × FileTree)) :
    ExceptT Failure (StateM Workspace) Unit := do
  let w ← get
  match w.store with
  | none => return ()
  | some s =>
    match act s w.tree with
    | .error e => throw e.failure
    | .ok (s, t) => set { w with tree := t, store := some s }

/-- Runs an action that changes the file tree. -/
def onTree (what : String) (act : FileTree → Except FileError FileTree) :
    ExceptT Failure (StateM Workspace) Unit := do
  let w ← get
  match act w.tree with
  | .error e => throw (e.failure.during what)
  | .ok t => set { w with tree := t }

/-- The site of a workspace, seen from a working directory. -/
def site (cwd : Text) (cancelled : Bool) : OutputSite (ExceptT Failure (StateM Workspace)) where
  proceed := if cancelled then throw .cancelled else return ()
  lookUp target := do
    let w ← get
    match w.store with
    | none => return none
    | some s =>
      match s.outputHash w.tree cancelled target with
      | .error e => throw e.failure
      | .ok h => return some h
  holds target := do return (← get).tree.contains cwd target
  makeDirs dir := onTree "failed to create output directory" fun t => t.makeDirs cwd dir
  write target source := onTree "failed to write output" fun t => t.write cwd target source
  remember target hash := onStore fun s t => s.setOutputHash t cancelled target hash

end Workspace

/-- Writes the outputs of a compilation by the actions of a site. -/
def Compilation.writeBy {σ ε : Type} (c : Compilation) (site : OutputSite (ExceptT ε (StateM σ)))
    (outDir : Text) : StateM σ (WriteReport ε) :=
  writeOutputs site outDir (c.outputs.map fun o => (o.path, o.source))

/-- Writes the outputs of a compilation in a workspace. -/
def Compilation.write (c : Compilation) (w : Workspace) (cwd outDir : Text) (cancelled : Bool) :
    WriteReport Failure × Workspace :=
  (c.writeBy (Workspace.site cwd cancelled) outDir).run w

end CubeSchema
