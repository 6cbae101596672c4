import CubeSchema.Tree.Node

/-!
# Children

Every child of a node has an address: the edge that leads to it and, for a list field, its index
there. `Node.children` lists the children in source order, `Node.put` changes the node at an address
and nothing else, and `Node.replace?` is the guarded form that a change of the tree uses. Absent
single fields and array holes are no children.
-/

namespace CubeSchema

/-- Where a child stands in its parent. -/
structure Address where
  /-- The field of the parent. -/
  edge : Edge
  /-- The index in a list field, none for a single field. -/
  index : Option Nat := none
  deriving DecidableEq, Repr

/-- A child with its address. -/
structure Child where
  /-- Where the child stands. -/
  address : Address
  /-- The child itself. -/
  node : Node
  deriving Repr

namespace Node

/-- A single field as a list of children: empty when the field is absent. -/
def single (edge : Edge) (n : Node) : List Child :=
  if n.isAbsent then [] else [⟨⟨edge, none⟩, n⟩]

/-- The elements of a list field as children, counted from `start`. -/
def listed (edge : Edge) : Nat → List Node → List Child
  | _, [] => []
  | i, n :: rest => ⟨⟨edge, some i⟩, n⟩ :: listed edge (i + 1) rest

/-- The children of a node in source order. -/
def children : Node → List Child
  | absent | identifier .. | stringLiteral .. | numberLiteral .. | keywordLiteral .. => []
  | program _ body => listed .programBody 0 body
  | varDecl _ _ name init => single .varName name ++ single .varInit init
  | exprStmt x => single .stmtExpr x
  | templateLiteral _ _ exprs => listed .templateExpr 0 exprs
  | array _ elements => (listed .arrayElement 0 elements).filter fun c => !c.node.isAbsent
  | object _ properties => listed .objectProperty 0 properties
  | property _ key value _ _ => single .propertyKey key ++ single .propertyValue value
  | spread _ x => single .spreadArgument x
  | member obj prop _ _ => single .memberObject obj ++ single .memberProperty prop
  | call callee args _ => single .callCallee callee ++ listed .callArgument 0 args
  | function _ params body _ => listed .functionParam 0 params ++ single .functionBody body
  | binary left _ right => single .binaryLeft left ++ single .binaryRight right
  | unary _ _ x => single .unaryOperand x
  | paren _ x => single .parenExpr x

/-- The child at an address. -/
def child? (n : Node) (a : Address) : Option Node :=
  (n.children.find? fun c => c.address = a).map Child.node

/-- The parent with `n` put at an address, whatever kind of node it is. An address that the parent
does not have changes nothing. -/
def put (parent : Node) (a : Address) (n : Node) : Node :=
  match parent, a with
  | program pos body, ⟨.programBody, some i⟩ => program pos (body.set i n)
  | varDecl pos keyword _ init, ⟨.varName, none⟩ => varDecl pos keyword n init
  | varDecl pos keyword name _, ⟨.varInit, none⟩ => varDecl pos keyword name n
  | exprStmt _, ⟨.stmtExpr, none⟩ => exprStmt n
  | templateLiteral pos quasis exprs, ⟨.templateExpr, some i⟩ =>
    templateLiteral pos quasis (exprs.set i n)
  | array pos elements, ⟨.arrayElement, some i⟩ => array pos (elements.set i n)
  | object pos properties, ⟨.objectProperty, some i⟩ => object pos (properties.set i n)
  | property pos _ value computed shorthand, ⟨.propertyKey, none⟩ =>
    property pos n value computed shorthand
  | property pos key _ computed shorthand, ⟨.propertyValue, none⟩ =>
    property pos key n computed shorthand
  | spread pos _, ⟨.spreadArgument, none⟩ => spread pos n
  | member _ prop computed optional, ⟨.memberObject, none⟩ => member n prop computed optional
  | member obj _ computed optional, ⟨.memberProperty, none⟩ => member obj n computed optional
  | call _ args optional, ⟨.callCallee, none⟩ => call n args optional
  | call callee args optional, ⟨.callArgument, some i⟩ => call callee (args.set i n) optional
  | function pos params body async, ⟨.functionParam, some i⟩ =>
    function pos (params.set i n) body async
  | function pos params _ async, ⟨.functionBody, none⟩ => function pos params n async
  | binary _ op right, ⟨.binaryLeft, none⟩ => binary n op right
  | binary left op _, ⟨.binaryRight, none⟩ => binary left op n
  | unary pos op _, ⟨.unaryOperand, none⟩ => unary pos op n
  | paren pos _, ⟨.parenExpr, none⟩ => paren pos n
  | other, _ => other

/-- A property that is written in full. -/
def unabbreviated : Node → Node
  | property pos key value computed _ => property pos key value computed false
  | other => other

/-- The parent with the node at an address replaced by one that its place admits. A property whose
value is replaced is written in full from then on. -/
def replace? (parent : Node) (a : Address) (n : Node) : Option Node :=
  if n.fits a.edge.slot then
    let changed := parent.put a n
    some (if a.edge = .propertyValue then changed.unabbreviated else changed)
  else none

end Node

end CubeSchema
