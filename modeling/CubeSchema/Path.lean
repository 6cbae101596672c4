import CubeSchema.Text.Basic

/-!
# Path names

Names of files are texts with slashes between their components. Everything here looks at the name
alone and never at a file: `clean` gives the shortest name of the same place, provided that no
component is a link, and the other functions give clean names.
-/

namespace CubeSchema.Path

/-- The byte between two components. -/
def slash : UInt8 := ascii '/'

/-- The component that stays where it is. -/
def here : Text := lit "."

/-- The component that goes one level up. -/
def up : Text := lit ".."

/-- Whether a name starts at the root of the file tree. -/
def isAbsolute (p : Text) : Bool := p.head? = some slash

/-- The components of a name as they are written; empty ones do not count. -/
def components (p : Text) : List Text := (Text.splitOn slash p).filter fun c => !c.isEmpty

/-- Adds a component behind a list of components, kept in reverse. Going up takes the last one back
where that can be done; above the root there is nothing to go up to. -/
def descend (rooted : Bool) (done : List Text) (c : Text) : List Text :=
  if c = here then done
  else if c = up then
    match done with
    | [] => if rooted then [] else [up]
    | last :: rest => if last = up then up :: last :: rest else rest
  else c :: done

/-- The components of the place that a name leads to, with as few steps up as possible. -/
def steps (p : Text) : List Text :=
  ((components p).foldl (descend (isAbsolute p)) []).reverse

/-- The name with the given components. -/
def assemble (rooted : Bool) (cs : List Text) : Text :=
  if rooted then slash :: Text.join [slash] cs
  else if cs.isEmpty then here
  else Text.join [slash] cs

/-- The shortest name of the same place. -/
def clean (p : Text) : Text := assemble (isAbsolute p) (steps p)

/-- The clean name that leads through all given names in order; empty names do not count, and of
empty names only nothing is left. -/
def join (ps : List Text) : Text :=
  match ps.filter fun p => !p.isEmpty with
  | [] => []
  | ps => clean (Text.join [slash] ps)

/-- The last component of a name. -/
def base (p : Text) : Text :=
  if p.isEmpty then here
  else
    match (components p).getLast? with
    | some c => c
    | none => [slash]

/-- The part of a name up to its last slash. -/
def head (p : Text) : Text := (p.reverse.dropWhile fun b => b ≠ slash).reverse

/-- The clean name of the place that a name is in. -/
def dir (p : Text) : Text := clean (head p)

/-- The clean name from the root, read from the working directory `cwd`. -/
def absolute (cwd p : Text) : Text := if isAbsolute p then clean p else join [cwd, p]

/-- Takes the common beginning off two lists. -/
def dropCommon : List Text → List Text → List Text × List Text
  | a :: as, b :: bs => if a = b then dropCommon as bs else (a :: as, b :: bs)
  | as, bs => (as, bs)

/-- The name that leads from `base` to `target`, both read from the same place. There is none when
one of them starts at the root and the other does not, or when the way back from `base` goes through
a directory whose name is unknown. -/
def relative? (base target : Text) : Option Text :=
  if isAbsolute base ≠ isAbsolute target then none
  else
    match dropCommon (steps base) (steps target) with
    | ([], []) => some here
    | (back, forth) =>
      if back.head? = some up then none
      else some (Text.join [slash] (back.map (fun _ => up) ++ forth))

/-- Whether a clean name leads up out of the directory it is read from. -/
def escapes (p : Text) : Bool := p = up || Text.startsWith p (up ++ [slash])

end CubeSchema.Path
