import CubeSchema.Tree.Cursor
import CubeSchema.Tree.Print

/-!
# Traversal with a visitor

`Cursor.traverse` walks a tree in pre-order and lets a visitor replace the node it stands at. The
walk goes on into the children of the replacement. A visitor that never replaces a node sees the
cursors of `Cursor.visits` in that order.
-/

namespace CubeSchema

/-- A visitor: what it does at a cursor, with a state of its own. -/
abbrev Visitor (σ : Type) := Cursor → σ → Except Fault (Cursor × σ)

/-- What a visitor does for each kind of node. Kinds without a handler are walked through. -/
abbrev Handlers (σ : Type) := Kind → Option (Visitor σ)

/-- The visitor that calls the handler for the kind of the node it stands at. -/
def Handlers.visitor {σ : Type} (handlers : Handlers σ) : Visitor σ := fun c s =>
  match handlers c.focus.kind with
  | some handle => handle c s
  | none => .ok (c, s)

namespace Cursor

/-- Walks the children at the given addresses of the node at `c`, each with `walk`. -/
def traverseChildren {σ : Type} (walk : Visitor σ) : List Address → Visitor σ
  | [], c, s => .ok (c, s)
  | a :: rest, c, s =>
    match c.focus.child? a with
    | none => .error .absentNode
    | some n => do
      let (child, s) ← walk (c.descend ⟨a, n⟩) s
      traverseChildren walk rest (child.parent?.getD c) s

/-- Walks the node at a cursor and all nodes below it. The tree must not get deeper than `fuel`. -/
def traverse {σ : Type} (visit : Visitor σ) : Nat → Visitor σ
  | 0, c, s => .ok (c, s)
  | fuel + 1, c, s =>
    if c.focus.isAbsent then .error .absentNode
    else do
      let (c, s) ← visit c s
      traverseChildren (traverse visit fuel) (c.focus.children.map Child.address) c s

/-- Walks all nodes below the node at a cursor, but not that node. -/
def traverseBelow {σ : Type} (visit : Visitor σ) (fuel : Nat) : Visitor σ := fun c s =>
  traverseChildren (traverse visit fuel) (c.focus.children.map Child.address) c s

end Cursor

/-- What a visit shows of a node. -/
structure Visit where
  /-- The kind of the node. -/
  kind : Kind
  /-- The field of the parent that holds it. -/
  edge : Edge
  /-- Its index in a list field. -/
  index : Option Nat
  /-- The kind of the parent. -/
  parent : Option Kind
  /-- The number of steps from the root. -/
  depth : Nat
  /-- The name, value or operator that tells it from others of its kind. -/
  label : Option Text
  /-- Where it starts. -/
  pos : Position
  deriving Repr

/-- What a visit shows of the node at a cursor. -/
def Cursor.visit (c : Cursor) : Except Fault Visit :=
  if c.focus.isAbsent then .error .absentNode
  else .ok {
    kind := c.focus.kind
    edge := c.edge
    index := c.index?
    parent := c.parent?.map fun p => p.focus.kind
    depth := c.depth
    label := c.focus.label?
    pos := c.focus.position }

/-- Replaces the first identifiers of a name that a traversal meets. -/
structure Substitution where
  /-- The name looked for. -/
  name : Text
  /-- What is put in place of it. -/
  node : Node
  /-- How many identifiers are replaced. -/
  limit : Nat
  deriving Repr

namespace Traversal

/-- Whether a kind is asked for; without a list every kind is. -/
def wants (kinds : Option (List Kind)) (k : Kind) : Bool := kinds.all fun asked => k ∈ asked

/-- Records the visited node if it is asked for, and then substitutes it. The state holds the visits
so far and the number of substitutions left. -/
def recording (kinds : Option (List Kind)) (sub : Option Substitution) :
    Visitor (List Visit × Nat) :=
  fun c (seen, left) => do
    let seen ← if wants kinds c.focus.kind then c.visit.map (fun v => seen ++ [v]) else pure seen
    match sub, left with
    | some sub, left + 1 =>
      if c.focus.name? = some sub.name then return (← c.replace sub.node, seen, left)
      else return (c, seen, left + 1)
    | _, _ => return (c, seen, left)

/-- Walks a whole tree: the visits of the kinds asked for, and the tree with its substitutions. -/
def run (kinds : Option (List Kind)) (sub : Option Substitution) (root : Node) :
    Except Fault (List Visit × Node) := do
  let limit := (sub.map Substitution.limit).getD 0
  let added := (sub.map fun s => (s.node.visits []).length).getD 0
  -- Every substitution adds at most the nodes of its replacement.
  let fuel := (root.visits []).length + limit * added + 1
  let (c, seen, _) ← Cursor.traverse (recording kinds sub) fuel (.root root) ([], limit)
  return (seen, c.tree)

/-- Handlers that record the visits of the kinds asked for. -/
def recorders (kinds : Option (List Kind)) : Handlers (List Visit) := fun k =>
  if wants kinds k then some fun c seen => c.visit.map fun v => (c, seen ++ [v]) else none

/-- The visits of the nodes below a cursor. -/
def below (kinds : Option (List Kind)) (c : Cursor) : Except Fault (List Visit) := do
  let (_, seen) ← c.traverseBelow (recorders kinds).visitor c.visits.length []
  return seen

end Traversal

/-- Whether every declared variable and every parameter in a tree has a name. -/
def Node.isNamed (n : Node) : Bool := (n.visits []).all fun c => !c.focus.lacksName

/-- The printed form of a node in which no name is missing. -/
def Node.format (n : Node) : Except Fault Text :=
  if n.isNamed then .ok n.print else .error .absentNode

end CubeSchema
