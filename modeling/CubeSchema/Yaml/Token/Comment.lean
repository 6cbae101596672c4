import CubeSchema.Yaml.Cursor

/-!
# Comments of a YAML stream

A comment goes from a number sign to the end of the line. It is stepped over together with the
comments behind it that only white space separates from it. Looking for the next comment goes less
than 512 characters ahead, and not over the line breaks that are no ASCII characters.
-/

namespace CubeSchema.Yaml.Scan

/-- How far looking for a comment goes. -/
def commentReach : Nat := 512

/-- The distance to a comment, looking from a distance on at `fuel` characters. Only white space
stands before it: blanks and, where `lines` holds, line breaks of ASCII. Another line break is
looked behind, but there a comment does not count. -/
def findComment (lines : Bool) : Nat → Nat → Scan (Option Nat)
  | 0, _ => return none
  | fuel + 1, i => do
    need (i + 1)
    match (← get).peek i with
    | none => return none
    | some x =>
      if x = '#' then return some i
      else if isBlank x || (lines && isAsciiBreak x) then findComment lines fuel (i + 1)
      else do
        if lines && isBreak x && fuel ≠ 0 then need (i + 2)
        return none

/-- The distance from the end of a comment to the next one. -/
def nextComment : Scan (Option Nat) := do
  if (← get).peek.any isAsciiBreak then findComment true (commentReach - 1) 1
  else do
    need 2
    return none

/-- Steps over comments, from the start of the first one on. -/
def commentsFrom : Nat → Scan Unit
  | 0 => return
  | fuel + 1 => do
    skipToLineEnd
    let c ← get
    if let some i ← nextComment then
      goTo (c.index + i) c.bound
      commentsFrom fuel

/-- Steps over comments. -/
def skipComments : Scan Unit := do commentsFrom (← get).bound

/-- Steps over a comment that follows in the same line as what has been read. -/
def skipTrailingComment : Scan Unit := do
  let c ← get
  if !c.fresh then
    if let some i ← findComment false commentReach 0 then
      goTo (c.index + i) c.bound
      skipToLineEnd

end CubeSchema.Yaml.Scan
