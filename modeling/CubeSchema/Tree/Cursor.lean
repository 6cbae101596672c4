import CubeSchema.Tree.Child

/-!
# Cursors

A cursor is a node together with the way to it from the root: the parent with the address of the
child taken, for every step. Replacing the node at a cursor changes the parents on that way and
nothing else. `Cursor.visits` lists the cursors of a tree in pre-order.
-/

namespace CubeSchema

/-- Why a walk over a tree breaks off. -/
inductive Fault where
  /-- The root has no place in which it could be replaced. -/
  | noPlace
  /-- A place does not admit the node that was to be put there. -/
  | misfit
  /-- A list field holds an absent node, or a name is missing. -/
  | absentNode
  deriving DecidableEq, Repr

/-- The words for a fault. -/
def Fault.message : Fault → Text
  | .noPlace => lit "ast: Replace called on a node without a parent slot"
  | .misfit | .absentNode => lit "runtime error"

/-- One step of a way down: the parent and the address of the child taken. -/
structure Frame where
  /-- The node the step starts at. -/
  parent : Node
  /-- The address of the child taken. -/
  address : Address
  deriving Repr

/-- A node in a tree. -/
structure Cursor where
  /-- The node itself. -/
  focus : Node
  /-- The steps from the root to the node, the last one first. -/
  above : List Frame := []
  deriving Repr

namespace Cursor

/-- The cursor of the root. -/
def root (n : Node) : Cursor := { focus := n }

/-- The address of the node in its parent. -/
def address? (c : Cursor) : Option Address := c.above.head?.map Frame.address

/-- The field of the parent that holds the node. -/
def edge (c : Cursor) : Edge := (c.address?.map Address.edge).getD .none

/-- The index of the node in a list field of its parent. -/
def index? (c : Cursor) : Option Nat := c.address?.bind Address.index

/-- The cursor of the parent. -/
def parent? (c : Cursor) : Option Cursor :=
  match c.above with
  | [] => none
  | f :: above => some { focus := f.parent, above }

/-- The number of steps from the root. -/
def depth (c : Cursor) : Nat := c.above.length

/-- The cursor of a child. -/
def descend (c : Cursor) (child : Child) : Cursor :=
  { focus := child.node, above := { parent := c.focus, address := child.address } :: c.above }

/-- The cursors of the children in source order. -/
def children (c : Cursor) : List Cursor := c.focus.children.map c.descend

/-- The cursor of the first child reached through an edge. -/
def field? (c : Cursor) (edge : Edge) : Option Cursor :=
  (c.focus.children.find? fun child => child.address.edge = edge).map c.descend

/-- Follows a list of child numbers. -/
def follow? (c : Cursor) : List Nat → Option Cursor
  | [] => some c
  | i :: rest => (c.children[i]?).bind fun child => child.follow? rest

/-- The steps above a node that has become `n`, with every parent brought up to date. -/
def refreshed : Node → List Frame → List Frame
  | _, [] => []
  | n, f :: above =>
    let parent := f.parent.put f.address n
    { f with parent } :: refreshed parent above

/-- The whole tree. -/
def tree (c : Cursor) : Node := (c.above.getLast?.map Frame.parent).getD c.focus

/-- Puts a node in place of the one at the cursor. -/
def replace (c : Cursor) (n : Node) : Except Fault Cursor :=
  match c.above with
  | [] => .error .noPlace
  | f :: above =>
    match f.parent.replace? f.address n with
    | none => .error .misfit
    | some parent => .ok { focus := n, above := { f with parent } :: refreshed parent above }

end Cursor

namespace Node

mutual

/-- The cursors of a node at the end of a way and of all nodes below it, in pre-order. -/
def visits (above : List Frame) : Node → List Cursor
  | absent => []
  | program pos body =>
    ⟨program pos body, above⟩ :: visitsAll above (program pos body) .programBody 0 body
  | varDecl pos keyword name init =>
    let n := varDecl pos keyword name init
    ⟨n, above⟩ :: visits (⟨n, ⟨.varName, none⟩⟩ :: above) name ++
      visits (⟨n, ⟨.varInit, none⟩⟩ :: above) init
  | exprStmt x => ⟨exprStmt x, above⟩ :: visits (⟨exprStmt x, ⟨.stmtExpr, none⟩⟩ :: above) x
  | identifier pos name => [⟨identifier pos name, above⟩]
  | stringLiteral pos value raw => [⟨stringLiteral pos value raw, above⟩]
  | templateLiteral pos quasis exprs =>
    ⟨templateLiteral pos quasis exprs, above⟩ ::
      visitsAll above (templateLiteral pos quasis exprs) .templateExpr 0 exprs
  | numberLiteral pos raw => [⟨numberLiteral pos raw, above⟩]
  | keywordLiteral pos value => [⟨keywordLiteral pos value, above⟩]
  | array pos elements =>
    ⟨array pos elements, above⟩ :: visitsAll above (array pos elements) .arrayElement 0 elements
  | object pos properties =>
    ⟨object pos properties, above⟩ ::
      visitsAll above (object pos properties) .objectProperty 0 properties
  | property pos key value computed shorthand =>
    let n := property pos key value computed shorthand
    ⟨n, above⟩ :: visits (⟨n, ⟨.propertyKey, none⟩⟩ :: above) key ++
      visits (⟨n, ⟨.propertyValue, none⟩⟩ :: above) value
  | spread pos x =>
    ⟨spread pos x, above⟩ :: visits (⟨spread pos x, ⟨.spreadArgument, none⟩⟩ :: above) x
  | member obj prop computed optional =>
    let n := member obj prop computed optional
    ⟨n, above⟩ :: visits (⟨n, ⟨.memberObject, none⟩⟩ :: above) obj ++
      visits (⟨n, ⟨.memberProperty, none⟩⟩ :: above) prop
  | call callee args optional =>
    let n := call callee args optional
    ⟨n, above⟩ :: visits (⟨n, ⟨.callCallee, none⟩⟩ :: above) callee ++
      visitsAll above n .callArgument 0 args
  | function pos params body async =>
    let n := function pos params body async
    ⟨n, above⟩ :: visitsAll above n .functionParam 0 params ++
      visits (⟨n, ⟨.functionBody, none⟩⟩ :: above) body
  | binary left op right =>
    let n := binary left op right
    ⟨n, above⟩ :: visits (⟨n, ⟨.binaryLeft, none⟩⟩ :: above) left ++
      visits (⟨n, ⟨.binaryRight, none⟩⟩ :: above) right
  | unary pos op x =>
    ⟨unary pos op x, above⟩ :: visits (⟨unary pos op x, ⟨.unaryOperand, none⟩⟩ :: above) x
  | paren pos x => ⟨paren pos x, above⟩ :: visits (⟨paren pos x, ⟨.parenExpr, none⟩⟩ :: above) x

/-- The cursors below the elements of a list field, counted from `i`. -/
def visitsAll (above : List Frame) (parent : Node) (edge : Edge) : Nat → List Node → List Cursor
  | _, [] => []
  | i, n :: rest =>
    visits (⟨parent, ⟨edge, some i⟩⟩ :: above) n ++ visitsAll above parent edge (i + 1) rest

end

/-- Whether a list field of a node other than an array holds an absent node. -/
def hasGap : Node → Bool
  | program _ body => body.any isAbsent
  | templateLiteral _ _ exprs => exprs.any isAbsent
  | object _ properties => properties.any isAbsent
  | call _ args _ => args.any isAbsent
  | function _ params _ _ => params.any isAbsent
  | _ => false

/-- Whether a declared variable or a parameter of a node has no name. -/
def lacksName : Node → Bool
  | varDecl _ _ name _ => name.isAbsent
  | function _ params _ _ => params.any isAbsent
  | _ => false

end Node

namespace Cursor

/-- The cursors of the node and of all nodes below it, in pre-order. -/
def visits (c : Cursor) : List Cursor := c.focus.visits c.above

/-- The cursors of all nodes below the node, in pre-order. -/
def descendants (c : Cursor) : List Cursor := c.visits.tail

end Cursor

end CubeSchema
