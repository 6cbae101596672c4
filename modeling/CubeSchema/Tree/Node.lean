import CubeSchema.Position

/-!
# Syntax trees

A schema source is a small language of declarations: calls, object and array literals, template
texts, member accesses and arrow functions. The tree has one type of node, so that paths, cursors
and traversals treat every place alike; which kinds of node a place admits is said by `Slot`.

An absent child is the node `absent`. It stands for a missing initialiser and for the holes of an
array, and it lets trees that were built by hand leave parts open.
-/

namespace CubeSchema

/-- The kinds of node. -/
inductive Kind where
  | invalid
  | program
  | varDecl
  | exprStmt
  | identifier
  | stringLiteral
  | templateLiteral
  | numberLiteral
  | keywordLiteral
  | array
  | object
  | property
  | spread
  | member
  | call
  | function
  | binary
  | unary
  | paren
  deriving DecidableEq, Repr

namespace Kind

/-- All kinds in the order of their numbers. -/
def all : List Kind :=
  [invalid, program, varDecl, exprStmt, identifier, stringLiteral, templateLiteral, numberLiteral,
    keywordLiteral, array, object, property, spread, member, call, function, binary, unary, paren]

/-- The name of a kind. -/
def name : Kind → Text
  | invalid => lit "Invalid"
  | program => lit "Program"
  | varDecl => lit "VarDecl"
  | exprStmt => lit "ExprStmt"
  | identifier => lit "Identifier"
  | stringLiteral => lit "StringLiteral"
  | templateLiteral => lit "TemplateLiteral"
  | numberLiteral => lit "NumberLiteral"
  | keywordLiteral => lit "KeywordLiteral"
  | array => lit "Array"
  | object => lit "Object"
  | property => lit "Property"
  | spread => lit "Spread"
  | member => lit "Member"
  | call => lit "Call"
  | function => lit "Function"
  | binary => lit "Binary"
  | unary => lit "Unary"
  | paren => lit "Paren"

/-- The name of the kind with a number, or a mark that there is none. -/
def nameAt (n : Int) : Text :=
  if n < 0 then lit "Kind(?)" else ((all[n.toNat]?).map name).getD (lit "Kind(?)")

end Kind

/-- The field through which a node is reached from its parent. -/
inductive Edge where
  | none
  | programBody
  | varName
  | varInit
  | stmtExpr
  | templateExpr
  | arrayElement
  | objectProperty
  | propertyKey
  | propertyValue
  | spreadArgument
  | memberObject
  | memberProperty
  | callCallee
  | callArgument
  | functionParam
  | functionBody
  | binaryLeft
  | binaryRight
  | unaryOperand
  | parenExpr
  deriving DecidableEq, Repr

namespace Edge

/-- All edges in the order of their numbers. -/
def all : List Edge :=
  [none, programBody, varName, varInit, stmtExpr, templateExpr, arrayElement, objectProperty,
    propertyKey, propertyValue, spreadArgument, memberObject, memberProperty, callCallee,
    callArgument, functionParam, functionBody, binaryLeft, binaryRight, unaryOperand, parenExpr]

/-- The name of an edge. -/
def name : Edge → Text
  | none => lit "None"
  | programBody => lit "Program.Body"
  | varName => lit "VarDecl.Name"
  | varInit => lit "VarDecl.Init"
  | stmtExpr => lit "ExprStmt.X"
  | templateExpr => lit "TemplateLiteral.Exprs"
  | arrayElement => lit "Array.Elements"
  | objectProperty => lit "Object.Properties"
  | propertyKey => lit "Property.Key"
  | propertyValue => lit "Property.Value"
  | spreadArgument => lit "Spread.X"
  | memberObject => lit "Member.Object"
  | memberProperty => lit "Member.Property"
  | callCallee => lit "Call.Callee"
  | callArgument => lit "Call.Args"
  | functionParam => lit "Function.Params"
  | functionBody => lit "Function.Body"
  | binaryLeft => lit "Binary.Left"
  | binaryRight => lit "Binary.Right"
  | unaryOperand => lit "Unary.X"
  | parenExpr => lit "Paren.X"

/-- The name of the edge with a number, or a mark that there is none. -/
def nameAt (n : Int) : Text :=
  if n < 0 then lit "Edge(?)" else ((all[n.toNat]?).map name).getD (lit "Edge(?)")

end Edge

/-- One static chunk of a template. -/
structure Quasi where
  /-- The chunk as it was written. -/
  raw : Text
  /-- The chunk with its escapes decoded. -/
  cooked : Text
  deriving DecidableEq, Repr

/-- A node of a syntax tree. -/
inductive Node where
  /-- No node at all. -/
  | absent
  /-- A whole source. -/
  | program (pos : Position) (body : List Node)
  /-- A variable declaration; `init` may be absent. -/
  | varDecl (pos : Position) (keyword : Text) (name init : Node)
  /-- An expression used as a statement. -/
  | exprStmt (x : Node)
  /-- A bare name. -/
  | identifier (pos : Position) (name : Text)
  /-- A quoted text; `raw` keeps the quotes and is empty for a node that was not read. -/
  | stringLiteral (pos : Position) (value raw : Text)
  /-- A template, read as `quasis[0] exprs[0] quasis[1] …`. -/
  | templateLiteral (pos : Position) (quasis : List Quasi) (exprs : List Node)
  /-- A number as it was written. -/
  | numberLiteral (pos : Position) (raw : Text)
  /-- One of the words that are values of their own. -/
  | keywordLiteral (pos : Position) (value : Text)
  /-- An array literal; absent elements are holes. -/
  | array (pos : Position) (elements : List Node)
  /-- An object literal. -/
  | object (pos : Position) (properties : List Node)
  /-- A key with its value. A computed key was written in brackets; a shorthand property was written
  as its key alone. -/
  | property (pos : Position) (key value : Node) (computed shorthand : Bool)
  /-- The contents of another list or object. -/
  | spread (pos : Position) (x : Node)
  /-- A member access. -/
  | member (object property : Node) (computed optional : Bool)
  /-- A call. -/
  | call (callee : Node) (args : List Node) (optional : Bool)
  /-- An arrow function with an expression as its body. -/
  | function (pos : Position) (params : List Node) (body : Node) (async : Bool)
  /-- A binary operation. -/
  | binary (left : Node) (op : Text) (right : Node)
  /-- A unary operation. -/
  | unary (pos : Position) (op : Text) (x : Node)
  /-- An expression in parentheses. -/
  | paren (pos : Position) (x : Node)
  deriving Repr, Inhabited

/-- What kinds of node a child place admits. -/
inductive Slot where
  | expression
  | statement
  | objectMember
  | name
  deriving DecidableEq, Repr

namespace Node

/-- The kind of a node. -/
def kind : Node → Kind
  | absent => .invalid
  | program .. => .program
  | varDecl .. => .varDecl
  | exprStmt .. => .exprStmt
  | identifier .. => .identifier
  | stringLiteral .. => .stringLiteral
  | templateLiteral .. => .templateLiteral
  | numberLiteral .. => .numberLiteral
  | keywordLiteral .. => .keywordLiteral
  | array .. => .array
  | object .. => .object
  | property .. => .property
  | spread .. => .spread
  | member .. => .member
  | call .. => .call
  | function .. => .function
  | binary .. => .binary
  | unary .. => .unary
  | paren .. => .paren

/-- Whether there is no node. -/
def isAbsent : Node → Bool
  | absent => true
  | _ => false

/-- The place of the first character of a node. -/
def position : Node → Position
  | absent => .unknown
  | program pos _ => pos
  | varDecl pos .. => pos
  | exprStmt x => x.position
  | identifier pos _ => pos
  | stringLiteral pos .. => pos
  | templateLiteral pos .. => pos
  | numberLiteral pos _ => pos
  | keywordLiteral pos _ => pos
  | array pos _ => pos
  | object pos _ => pos
  | property pos .. => pos
  | spread pos _ => pos
  | member obj .. => obj.position
  | call callee .. => callee.position
  | function pos .. => pos
  | binary left .. => left.position
  | unary pos .. => pos
  | paren pos _ => pos

/-- The text that tells a node from others of its kind: a name, a value or an operator. -/
def label? : Node → Option Text
  | identifier _ name => some name
  | stringLiteral _ value _ => some value
  | numberLiteral _ raw => some raw
  | keywordLiteral _ value => some value
  | binary _ op _ => some op
  | unary _ op _ => some op
  | _ => none

/-- The plain name that a property has as its key. -/
def keyName? : Node → Option Text
  | property _ (identifier _ name) _ false _ => some name
  | _ => none

/-- The plain name that a call has as its callee. -/
def calleeName? : Node → Option Text
  | call (identifier _ name) .. => some name
  | _ => none

/-- The name of an identifier. -/
def name? : Node → Option Text
  | identifier _ name => some name
  | _ => none

/-- The names of a function's parameters. -/
def paramNames : Node → List Text
  | function _ params _ _ => params.filterMap name?
  | _ => []

/-- Whether a node is an expression. -/
def isExpression (n : Node) : Bool :=
  match n.kind with
  | .invalid | .program | .varDecl | .exprStmt | .property => false
  | _ => true

/-- Whether a place admits a node. -/
def fits (n : Node) : Slot → Bool
  | .expression => n.isExpression
  | .statement => n.kind = .varDecl || n.kind = .exprStmt
  | .objectMember => n.kind = .property || n.kind = .spread
  | .name => n.kind = .identifier

end Node

/-- What the place behind an edge admits. -/
def Edge.slot : Edge → Slot
  | .programBody => .statement
  | .varName | .functionParam => .name
  | .objectProperty => .objectMember
  | _ => .expression

end CubeSchema
