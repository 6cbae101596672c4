import CubeSchema.Command.Session
import CubeSchema.Report.References
import CubeSchema.Report.Runs
import CubeSchema.Report.Symbols

/-!
# Looking at a project

The commands that show something and write no outputs: the symbols of the project, the references
between its cubes, and its runs.
-/

namespace CubeSchema.Task

/-- Shows the symbols. -/
def showSymbols (x : Context) (a : Arguments) : Task Unit := do
  let p ← compile x a.args
  write (p.table.display (a.bool "members") x.mode)

/-- Shows the references between cubes, or the dependencies of one of them. -/
def showReferences (x : Context) (a : Arguments) : Task Unit := do
  let p ← compile x a.args
  let cube := a.text "cube"
  if cube.isEmpty then write (p.graph.display x.mode)
  else if p.graph.has cube then write (p.graph.showCube cube x.mode)
  else throw ⟨.other, lit "unknown cube " ++ cube.quoted⟩

/-- The number of runs shown when none is given. -/
def defaultRuns : Int := 20

/-- Shows the latest runs. -/
def showRuns (x : Context) (a : Arguments) : Task Unit := do
  match ← openStore x with
  | none => throw (.ofString "state tracking is disabled (--no-state)")
  | some s =>
    let runs ← ofExcept StoreError.failure
      (s.listRuns (← get).tree x.host.cancelled (a.int "limit" defaultRuns))
    write (Run.showAll runs x.mode)

end CubeSchema.Task
