import CubeSchema.Deferral.Identifiers
import CubeSchema.Symbols.Table

/-!
# Deferring properties

The values of some properties refer to things that are known only at evaluation. The pass replaces
such a value by a function of the names it mentions. It works declaration by declaration, outer ones
first: inside the last argument of a `cube`, `view` or `context` call it wraps the values of the
deferred fields, and inside a cube or view then those of `extends`.

A value inside several declarations is wrapped once for each of them, the function of an inner
declaration around that of an outer one.
-/

namespace CubeSchema

/-- How names are resolved while properties are deferred. -/
structure Resolvers where
  /-- Whether a name denotes something inside the declaration of the given name. -/
  symbol : Text → Text → Bool
  /-- Whether a name stands for the cube being declared. -/
  current : Text → Bool
  /-- Whether a name is that of a cube or view. -/
  cube : Text → Bool

/-- Resolves names by a symbol table. -/
def SymbolTable.resolvers (t : SymbolTable) : Resolvers :=
  { symbol := t.resolves, current := isCurrentCube, cube := t.resolvesCube }

/-- Whether a name is resolved inside the body of the declaration `cubeName`. -/
def Resolvers.scope (r : Resolvers) (cubeName name : Text) : Bool :=
  r.symbol cubeName name || r.current name

/-- One wrapped property. -/
structure DeferredField where
  /-- The key of the property. -/
  key : Text
  /-- The declaration in whose scope the value was resolved, empty for none. -/
  cube : Text
  /-- The parameters of the new function. -/
  params : List Text
  /-- Where the property starts. -/
  pos : Position
  deriving DecidableEq, Repr

/-- A transformed value with the record of what was wrapped, in order. -/
structure Logged (α : Type) where
  /-- The transformed value. -/
  val : α
  /-- What was wrapped. -/
  log : List DeferredField := []

namespace Logged

instance : Monad Logged where
  pure a := { val := a }
  bind x f :=
    let y := f x.val
    { val := y.val, log := x.log ++ y.log }

/-- Records a wrapped property. -/
def record (field : DeferredField) : Logged Unit := { val := (), log := [field] }

end Logged

namespace Deferral

/-- The name of the pass. -/
def passName : Text := lit "cube-prop-context"

/-- Fields whose values are always deferred. -/
def simpleFields : List Text :=
  ["sql", "measureReferences", "dimensionReferences", "segmentReferences", "timeDimensionReference",
    "timeDimensions", "rollupReferences", "drillMembers", "drillMemberReferences", "contextMembers",
    "columns"].map lit

/-- Fields whose values are deferred unless their object is itself an argument of a call: there they
declare members. -/
def complexFields : List Text := ["dimensions", "segments", "rollups", "measures"].map lit

/-- The field that names the cube a declaration extends. -/
def extendsField : Text := lit "extends"

/-- Which properties one walk wraps, and how it resolves names. -/
structure FieldRule where
  /-- Whether a property is wrapped, by its key and the edge that leads to its object. -/
  applies : Text → Edge → Bool
  /-- The declaration recorded for each wrapped property. -/
  cube : Text
  /-- Which names become parameters. -/
  resolve : Text → Bool

/-- Wraps the deferred fields in the scope of a declaration. -/
def bodyRule (r : Resolvers) (cubeName : Text) : FieldRule :=
  { applies := fun key objectEdge =>
      simpleFields.contains key || (complexFields.contains key && objectEdge ≠ .callArgument)
    cube := cubeName
    resolve := r.scope cubeName }

/-- Wraps the names of extended cubes. -/
def extendsRule (r : Resolvers) : FieldRule :=
  { applies := fun key _ => key = extendsField, cube := [], resolve := r.cube }

mutual

/-- Wraps the properties in a node that stands at `edge` of its parent, which itself stands at `up`.
The names are collected before anything inside the value is wrapped. -/
@[grind =]
def wrap (rule : FieldRule) (up edge : Edge) : Node → Logged Node
  | .absent => pure .absent
  | .program pos body => do return .program pos (← wrapAll rule edge .programBody body)
  | .varDecl pos keyword name init => do
    let name ← wrap rule edge .varName name
    return .varDecl pos keyword name (← wrap rule edge .varInit init)
  | .exprStmt x => do return .exprStmt (← wrap rule edge .stmtExpr x)
  | .identifier pos name => pure (.identifier pos name)
  | .stringLiteral pos value raw => pure (.stringLiteral pos value raw)
  | .templateLiteral pos quasis exprs => do
    return .templateLiteral pos quasis (← wrapAll rule edge .templateExpr exprs)
  | .numberLiteral pos raw => pure (.numberLiteral pos raw)
  | .keywordLiteral pos value => pure (.keywordLiteral pos value)
  | .array pos elements => do return .array pos (← wrapAll rule edge .arrayElement elements)
  | .object pos properties => do
    return .object pos (← wrapAll rule edge .objectProperty properties)
  | .property pos key value computed shorthand => do
    match Node.keyName? (.property pos key value computed shorthand) with
    | some name =>
      if rule.applies name up && !value.isAbsent then
        let params := value.identifiers rule.resolve
        Logged.record { key := name, cube := rule.cube, params, pos }
        let key ← wrap rule edge .propertyKey key
        let body ← wrap rule .propertyValue .functionBody value
        return .property pos key (.deferred params value.position body) computed false
      else
        let key ← wrap rule edge .propertyKey key
        return .property pos key (← wrap rule edge .propertyValue value) computed shorthand
    | none =>
      let key ← wrap rule edge .propertyKey key
      return .property pos key (← wrap rule edge .propertyValue value) computed shorthand
  | .spread pos x => do return .spread pos (← wrap rule edge .spreadArgument x)
  | .member object property computed optional => do
    let object ← wrap rule edge .memberObject object
    return .member object (← wrap rule edge .memberProperty property) computed optional
  | .call callee args optional => do
    let callee ← wrap rule edge .callCallee callee
    return .call callee (← wrapAll rule edge .callArgument args) optional
  | .function pos params body async => do
    let params ← wrapAll rule edge .functionParam params
    return .function pos params (← wrap rule edge .functionBody body) async
  | .binary left op right => do
    let left ← wrap rule edge .binaryLeft left
    return .binary left op (← wrap rule edge .binaryRight right)
  | .unary pos op x => do return .unary pos op (← wrap rule edge .unaryOperand x)
  | .paren pos x => do return .paren pos (← wrap rule edge .parenExpr x)

/-- Wraps the properties in the elements of a list field. -/
@[grind =]
def wrapAll (rule : FieldRule) (up edge : Edge) : List Node → Logged (List Node)
  | [] => pure []
  | n :: rest => do
    let n ← wrap rule up edge n
    return n :: (← wrapAll rule up edge rest)

end

/-- The name of a declaration for scoping: a string, or the leading chunk of a template. -/
def scopeName : Node → Text
  | .stringLiteral _ value _ => value
  | .templateLiteral _ (quasi :: _) _ => quasi.cooked
  | _ => []

/-- The rules by which a call transforms its last argument; none when it is no declaration. -/
def rulesOf (r : Resolvers) (callee : Node) (args : List Node) : List FieldRule :=
  match callee, args with
  | .identifier _ name, first :: _ =>
    if name = lit "cube" || name = lit "view" then
      [bodyRule r (scopeName first), extendsRule r]
    else if name = lit "context" then [bodyRule r []]
    else []
  | _, _ => []

/-- Transforms a body by several rules, one after the other. -/
def wrapBody (rules : List FieldRule) (body : Node) : Logged Node :=
  rules.foldlM (fun body rule => wrap rule .none .callArgument body) body

/-- Transforms the last argument of a call. -/
def wrapLast (rules : List FieldRule) : List Node → Logged (List Node)
  | [] => pure []
  | [body] => do return [← wrapBody rules body]
  | arg :: rest => do return arg :: (← wrapLast rules rest)

mutual

/-- Transforms the outermost declarations in a node; `inner` goes on inside of them. -/
@[grind =]
def outermost (r : Resolvers) (inner : Node → Logged Node) : Node → Logged Node
  | .absent => pure .absent
  | .program pos body => do return .program pos (← outermostAll r inner body)
  | .varDecl pos keyword name init => do
    let name ← outermost r inner name
    return .varDecl pos keyword name (← outermost r inner init)
  | .exprStmt x => do return .exprStmt (← outermost r inner x)
  | .identifier pos name => pure (.identifier pos name)
  | .stringLiteral pos value raw => pure (.stringLiteral pos value raw)
  | .templateLiteral pos quasis exprs => do
    return .templateLiteral pos quasis (← outermostAll r inner exprs)
  | .numberLiteral pos raw => pure (.numberLiteral pos raw)
  | .keywordLiteral pos value => pure (.keywordLiteral pos value)
  | .array pos elements => do return .array pos (← outermostAll r inner elements)
  | .object pos properties => do return .object pos (← outermostAll r inner properties)
  | .property pos key value computed shorthand => do
    let key ← outermost r inner key
    return .property pos key (← outermost r inner value) computed shorthand
  | .spread pos x => do return .spread pos (← outermost r inner x)
  | .member object property computed optional => do
    let object ← outermost r inner object
    return .member object (← outermost r inner property) computed optional
  | .call callee args optional => do
    match rulesOf r callee args with
    | [] =>
      let callee ← outermost r inner callee
      return .call callee (← outermostAll r inner args) optional
    | rules =>
      let args ← wrapLast rules args
      let callee ← inner callee
      return .call callee (← args.mapM inner) optional
  | .function pos params body async => do
    let params ← outermostAll r inner params
    return .function pos params (← outermost r inner body) async
  | .binary left op right => do
    let left ← outermost r inner left
    return .binary left op (← outermost r inner right)
  | .unary pos op x => do return .unary pos op (← outermost r inner x)
  | .paren pos x => do return .paren pos (← outermost r inner x)

/-- Transforms the outermost declarations in each node of a list. -/
@[grind =]
def outermostAll (r : Resolvers) (inner : Node → Logged Node) : List Node → Logged (List Node)
  | [] => pure []
  | n :: rest => do
    let n ← outermost r inner n
    return n :: (← outermostAll r inner rest)

end

/-- Transforms declarations that are nested at most `depth` deep. -/
def nested (r : Resolvers) : Nat → Node → Logged Node
  | 0, n => pure n
  | depth + 1, n => outermost r (nested r depth) n

/-- The number of calls in a tree, which bounds how deep declarations nest. -/
def callCount (n : Node) : Nat := (n.visits []).countP fun c => c.focus.kind = .call

/-- One pass over a tree. -/
def run (r : Resolvers) (n : Node) : Logged Node := nested r (callCount n + 1) n

/-- Several passes over a tree. A pass wraps values that an earlier one has wrapped once more. -/
def runTimes (r : Resolvers) : Nat → Node → Logged Node
  | 0, n => pure n
  | times + 1, n => do runTimes r times (← run r n)

end Deferral

end CubeSchema
