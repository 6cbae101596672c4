import CubeSchema.Tree.Node

/-!
# Operator precedence

The grammar reads a chain of operands with operators between them. `fold` nests it by precedence: an
operator that binds tighter is applied first, and among equals the left one, except that powers
group to the right.
-/

namespace CubeSchema.Operator

/-- How tightly a binary operator binds. -/
def precedence (op : Text) : Nat :=
  if op = lit "??" then 1
  else if op = lit "||" then 2
  else if op = lit "&&" then 3
  else if op = lit "|" then 4
  else if op = lit "^" then 5
  else if op = lit "&" then 6
  else if [lit "==", lit "!=", lit "===", lit "!=="].contains op then 7
  else if [lit "<", lit ">", lit "<=", lit ">=", lit "instanceof", lit "in"].contains op then 8
  else if [lit "<<", lit ">>", lit ">>>"].contains op then 9
  else if [lit "+", lit "-"].contains op then 10
  else if [lit "*", lit "/", lit "%"].contains op then 11
  else if op = lit "**" then 12
  else 0

/-- The least precedence that the right operand of an operator takes in. -/
def rightLevel (op : Text) : Nat :=
  if op = lit "**" then precedence op else precedence op + 1

/-- Extends `left` by the operators of the chain that bind at least at `level`, and gives the chain
that is left over. Every step takes an operator off the chain, so `fuel` never needs to exceed its
length. -/
def climb : Nat → Nat → Node → List (Text × Node) → Node × List (Text × Node)
  | 0, _, left, chain => (left, chain)
  | _ + 1, _, left, [] => (left, [])
  | fuel + 1, level, left, (op, x) :: chain =>
    if precedence op < level then (left, (op, x) :: chain)
    else
      let (right, chain') := climb fuel (rightLevel op) x chain
      climb fuel level (.binary left op right) chain'

/-- Nests a chain of operands by precedence. -/
def fold (first : Node) (chain : List (Text × Node)) : Node :=
  (climb chain.length 0 first chain).1

end CubeSchema.Operator
