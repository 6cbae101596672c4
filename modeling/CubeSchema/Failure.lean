import CubeSchema.ParseError

/-!
# Failures

A failure as a caller of the tool sees it: the class it belongs to and its text. The modules below
have error types of their own, with one constructor per cause; each of them gives its failure by a
function `failure`.
-/

namespace CubeSchema

/-- What kind of thing went wrong. Where several apply, the first in this order counts. -/
inductive FailureKind where
  /-- A schema file is not well formed. -/
  | parse
  /-- A symbol manifest is not well formed. -/
  | invalidManifest
  /-- There is no run of the given name. -/
  | runNotFound
  /-- The work was called off. -/
  | cancelled
  /-- A file or directory is missing. -/
  | missing
  /-- Anything else. -/
  | other
  /-- The work broke down in the middle, where no failure was foreseen. -/
  | breakdown
  deriving DecidableEq, Repr

/-- A failure with its text. -/
structure Failure where
  /-- What kind of thing went wrong. -/
  kind : FailureKind := .other
  /-- The whole text. -/
  message : Text
  deriving DecidableEq, Repr

namespace Failure

/-- Says in front of a failure what it is about. A breakdown stays as it is. -/
def about (f : Failure) (what : Text) : Failure :=
  if f.kind = .breakdown then f else { f with message := what ++ lit ": " ++ f.message }

/-- Says in front of a failure what was being done. -/
def during (f : Failure) (what : String) : Failure := f.about (lit what)

/-- Work that was called off. -/
def cancelled : Failure := ⟨.cancelled, lit "context canceled"⟩

/-- Work that broke down. -/
def breakdown : Failure := ⟨.breakdown, lit "runtime error"⟩

/-- A failure of no particular kind. -/
def ofString (s : String) : Failure := ⟨.other, lit s⟩

end Failure

end CubeSchema
