import CubeSchema.ParseError
import CubeSchema.Text.Escape
import CubeSchema.Tree.Operator

/-!
# From matches to syntax trees

`ParseTree.build` turns what the grammar matched into a syntax tree: it decodes literals, nests
operators, and drops brackets and separators. It always gives a tree; the first error met on the
way, in source order, is kept beside it.
-/

namespace CubeSchema

/-- A value together with the first error met while it was made. -/
structure Checked (α : Type) where
  /-- The value. -/
  val : α
  /-- The first error, if there was one. -/
  error : Option ParseError := none

namespace Checked

instance : Monad Checked where
  pure a := { val := a }
  bind x f :=
    let y := f x.val
    { val := y.val, error := x.error <|> y.error }

/-- Reports an error. -/
def report (pos : Position) (cause : ParseCause) : Checked Unit :=
  { val := (), error := some { pos, cause } }

/-- The value, or the first error. -/
def toExcept {α : Type} (x : Checked α) : Except ParseError α :=
  match x.error with
  | some e => .error e
  | none => .ok x.val

end Checked

namespace ParseTree

/-- A string literal with its escapes decoded. -/
def stringNode (pos : Position) (raw : Text) : Checked Node :=
  match Text.unescape (raw.drop 1).dropLast with
  | some value => pure (.stringLiteral pos value raw)
  | none => do
    Checked.report pos .stringEscape
    return .stringLiteral pos [] raw

/-- A chunk of the template at `pos` with its escapes decoded. -/
def quasiOf (pos : Position) (raw : Text) : Checked Quasi :=
  match raw.unescape with
  | some cooked => pure { raw, cooked }
  | none => do
    Checked.report pos .templateEscape
    return { raw, cooked := [] }

/-- The node of a token that is an expression by itself. -/
def primaryNode (pos : Position) (token : Token) : Checked Node :=
  if (keywordValues.map lit).contains token.text then pure (.keywordLiteral pos token.text)
  else
    match token.cls with
    | .number => pure (.numberLiteral pos token.text)
    | .string => stringNode pos token.text
    | _ => pure (.identifier pos token.text)

/-- The node of a token that is a property key. -/
def keyNode (pos : Position) (token : Token) : Checked Node :=
  match token.cls with
  | .number => pure (.numberLiteral pos token.text)
  | .string => stringNode pos token.text
  | _ => pure (.identifier pos token.text)

/-- Whether the parts of an arrow function start with its marker word. -/
def startsAsync : List ParseTree → Bool
  | .leaf token :: _ => token.text = lit "async"
  | _ => false

/-- The operator of a link in a chain of operands. -/
def operator? : ParseTree → Option Text
  | .branch .binaryOp _ (.leaf token :: _) => some token.text
  | _ => none

/-- A property without a value: its key, which has to be a plain name, is its value too. -/
def shorthandNode (pos : Position) (key : Node) (computed : Bool) : Checked Node :=
  match key, computed with
  | .identifier kpos name, false => pure (.property pos key (.identifier kpos name) false true)
  | _, _ => do
    Checked.report pos .shorthandKey
    return .absent

mutual

/-- The syntax tree of a match. -/
def build : ParseTree → Checked Node
  | .leaf _ => pure .absent
  | .branch .program pos kids => do return .program pos (← buildAll kids)
  | .branch .statement _ [.branch .varDecl pos (.leaf word :: name :: init)] => do
    let name ← build name
    let init ← buildAll init
    return .varDecl pos word.text name (init.headD .absent)
  | .branch .statement _ [x] => do return .exprStmt (← build x)
  | .branch .ident pos [.leaf token] => pure (.identifier pos token.text)
  | .branch .expression _ [x] => build x
  | .branch .arrowFunction pos kids => do
    let parts ← buildAll kids
    return .function pos parts.dropLast (parts.getLastD .absent) (startsAsync kids)
  | .branch .binaryChain _ (head :: links) => do
    let first ← build head
    let operands ← buildAll links
    return Operator.fold first ((links.filterMap operator?).zip operands)
  | .branch .binaryOp _ [_, x] => build x
  | .branch .unary pos [.leaf token, x] => do return .unary pos token.text (← build x)
  | .branch .unary _ [x] => build x
  | .branch .suffixed _ (primary :: suffixes) => do buildSuffixes (← build primary) suffixes
  | .branch .element pos [.leaf _, x] => do return .spread pos (← build x)
  | .branch .element _ [x] => build x
  | .branch .primary pos [.leaf token] => primaryNode pos token
  | .branch .primary pos [.leaf _, x, .leaf _] => do return .paren pos (← build x)
  | .branch .primary _ [x] => build x
  | .branch .templateLiteral pos kids => do
    let (quasis, exprs) ← buildParts pos [] kids
    return .templateLiteral pos quasis exprs
  | .branch .arrayLiteral pos kids => do return .array pos (← buildAll kids)
  | .branch .objectLiteral pos kids => do
    return .object pos ((← buildAll kids).filter fun n => !n.isAbsent)
  | .branch .objectMember pos [.leaf _, x] => do return .spread pos (← build x)
  | .branch .objectMember _ [x] => build x
  | .branch .property pos [.branch .propertyKey _ [.leaf _, key, .leaf _]] => do
    shorthandNode pos (← build key) true
  | .branch .property pos [.branch .propertyKey kpos [.leaf token]] => do
    shorthandNode pos (← keyNode kpos token) false
  | .branch .property pos [.branch .propertyKey _ [.leaf _, key, .leaf _], _, value] => do
    let key ← build key
    return .property pos key (← build value) true false
  | .branch .property pos [.branch .propertyKey kpos [.leaf token], _, value] => do
    let key ← keyNode kpos token
    return .property pos key (← build value) false false
  | .branch _ _ _ => pure .absent

/-- The syntax trees of the rules in a list of matches; tokens are passed over. -/
def buildAll : List ParseTree → Checked (List Node)
  | [] => pure []
  | .leaf _ :: rest => buildAll rest
  | .branch rule pos kids :: rest => do
    let n ← build (.branch rule pos kids)
    return n :: (← buildAll rest)

/-- Applies calls and member accesses to `x` from left to right. -/
def buildSuffixes (x : Node) : List ParseTree → Checked Node
  | [] => pure x
  | .branch .suffix _ [.leaf _, .branch .optionalSuffix _ kids] :: rest => do
    buildSuffixes (← buildSuffix true x kids) rest
  | .branch .suffix _ kids :: rest => do buildSuffixes (← buildSuffix false x kids) rest
  | _ :: rest => buildSuffixes x rest

/-- Applies one call or member access to `x`. -/
def buildSuffix (optional : Bool) (x : Node) : List ParseTree → Checked Node
  | [.branch .callArgs _ args] => do return .call x (← buildAll args) optional
  | [.leaf _, index, .leaf _] => do return .member x (← build index) true optional
  | [.leaf _, name] => do return .member x (← build name) false optional
  | [name] => do return .member x (← build name) false optional
  | _ => pure x

/-- The chunks and expressions of the template at `pos`; `raw` is the chunk read so far. -/
def buildParts (pos : Position) (raw : Text) : List ParseTree → Checked (List Quasi × List Node)
  | [] => do return ([← quasiOf pos raw], [])
  | .branch .templatePart _ [.leaf token] :: rest => buildParts pos (raw ++ token.text) rest
  | .branch .templatePart _ [.leaf _, x, .leaf _] :: rest => do
    let quasi ← quasiOf pos raw
    let x ← build x
    let (quasis, exprs) ← buildParts pos [] rest
    return (quasi :: quasis, x :: exprs)
  | _ :: rest => buildParts pos raw rest

end

end ParseTree

/-- Reads a source file, with a limit on how often a part may be repeated or without one. -/
def parse (file src : Text) (limit : Option Nat := none) : Except ParseError Node :=
  match Lexer.tokens file src with
  | .error failure => .error { pos := failure.pos, cause := .unreadable failure }
  | .ok tokens =>
    match Grammar.derive tokens limit with
    | .error found => .error { pos := found.token.pos, cause := .unexpected found }
    | .ok tree => tree.build.toExcept

end CubeSchema
