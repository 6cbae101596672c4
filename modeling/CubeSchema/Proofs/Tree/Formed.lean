import CubeSchema.Grammar.Match
import CubeSchema.Proofs.Token.Lexeme
import CubeSchema.Proofs.Tree.Chain
import CubeSchema.Text.Escape

/-!
# Trees that have been read

`FormedProgram n` says what the tree of a source looks like: which kinds of node stand where, that
names, numbers and texts are lexemes, and that operators are nested by precedence. Four conditions
come from the order in which the grammar tries its alternatives. A word that is a unary operator stands
as a name only where no operand follows it; a word that starts a declaration is not followed by a
name; an object of a plain index is not such a word; and the arguments of a call of `async` at the
start of an expression are few enough for the search for an arrow behind them to be given up.
-/

namespace CubeSchema

open Lexeme

/-- The unary operators that are words. -/
def operatorWords : List Text := ["typeof", "void", "await"].map lit

/-- The binary operators that an operand could start with. -/
def clashingOperators : List Text := ["+", "-", "in", "instanceof"].map lit

/-- The word that marks a function whose result has to be awaited. -/
def asyncWord : Text := lit "async"

namespace Node

/-- Whether a node is an operand without a unary operator. -/
def isSuffixed (n : Node) : Bool :=
  match n.kind with
  | .identifier | .stringLiteral | .templateLiteral | .numberLiteral | .keywordLiteral | .array
  | .object | .member | .call | .paren => true
  | _ => false

/-- Whether a node is an operand of a binary operator. -/
def isOperand (n : Node) : Bool := n.isSuffixed || n.kind = .unary

/-- Whether a node is an expression other than a function. -/
def isChain (n : Node) : Bool := n.isOperand || n.kind = .binary

/-- Whether a node is a name that is a unary operator in front of an operand. -/
def isOperatorWord : Node → Bool
  | identifier _ name => operatorWords.contains name
  | _ => false

/-- Whether the last operand of a node is a name that an operand behind it would turn into an
operator. -/
def endsBare : Node → Bool
  | identifier _ name => operatorWords.contains name
  | unary _ _ x => x.endsBare
  | binary _ _ right => right.endsBare
  | _ => false

/-- Whether a node is a single word. -/
def isWord : Node → Bool
  | identifier .. | keywordLiteral .. => true
  | _ => false

/-- Whether a node is written with a word in front. -/
def startsWithWord : Node → Bool
  | identifier .. | keywordLiteral .. => true
  | member obj .. => obj.startsWithWord
  | call callee .. => callee.startsWithWord
  | binary left .. => left.startsWithWord
  | unary _ op _ => operatorWords.contains op
  | function _ _ _ async => async
  | _ => false

/-- Whether an object stands in front of a node, inside of accesses, calls and operations. -/
def startsWithBrace : Node → Bool
  | object .. => true
  | member obj .. => obj.startsWithBrace
  | call callee .. => callee.startsWithBrace
  | binary left .. => left.startsWithBrace
  | _ => false

/-- How many tokens of an argument list could belong to a parameter list, its end included. -/
def listReach : List Node → Nat
  | [] => 1
  | [x] => if x.isWord then 2 else if x.startsWithWord then 1 else 0
  | x :: y :: rest =>
    if x.isWord then 2 + listReach (y :: rest) else if x.startsWithWord then 1 else 0

/-- How far the search for the head of an `async` function goes at the start of a node. A list of
names is searched for the arrow behind it, and a list of other arguments breaks off by itself. -/
def arrowReach : Node → Nat
  | call (identifier _ name) args false =>
    if name = asyncWord then (if args.all isWord then 2 else 1) + listReach args else 0
  | call callee _ _ => callee.arrowReach
  | member obj .. => obj.arrowReach
  | binary left .. => left.arrowReach
  | _ => 0

/-- Whether a node is an expression that the search for an arrow does not break. -/
def isEntire (n : Node) : Bool :=
  (n.isChain || n.kind = .function) && n.arrowReach ≤ Reader.lookahead

/-- Whether a node may be an element of an array or an argument of a call. -/
def isElement (n : Node) : Bool := n.isEntire || n.kind = .spread

/-- The name that is the first operand of a node. -/
def headName? (n : Node) : Option Text := n.chainHead.name?

/-- The operator behind the first operand of a node. -/
def headOperator? (n : Node) : Option Text := n.chainLinks.head?.map Prod.fst

/-- Whether a statement may start with a node: it is not read as a declaration. -/
def opensStatement (n : Node) : Bool :=
  !(n.headName?.any (declarationWords.map lit).contains &&
    n.headOperator?.any [lit "in", lit "instanceof"].contains)

end Node

open Node Operator

/-- A chunk of a template is as it was written, with its escapes decoded. -/
def Quasi.IsRead (q : Quasi) : Prop := isChunk q.raw = true ∧ q.raw.unescape = some q.cooked

/-- A key that is not computed. -/
inductive PlainKey : Node → Prop
  | name {pos : Position} {name : Text} (hname : IsName name) : PlainKey (.identifier pos name)
  | string {pos : Position} {value raw : Text} (hraw : IsString raw)
      (hvalue : Text.unescape (raw.drop 1).dropLast = some value) :
      PlainKey (.stringLiteral pos value raw)
  | number {pos : Position} {raw : Text} (hraw : IsNumber raw) : PlainKey (.numberLiteral pos raw)

/-- A parameter of a function. -/
def IsParam (n : Node) : Prop := ∃ pos name, n = .identifier pos name ∧ IsName name

/-- An expression, an element or a member of an object that has been read. -/
inductive Formed : Node → Prop
  | identifier {pos : Position} {name : Text} (hname : IsName name)
      (hvalue : name ∉ keywordValues.map lit) : Formed (.identifier pos name)
  | stringLiteral {pos : Position} {value raw : Text} (hraw : IsString raw)
      (hvalue : Text.unescape (raw.drop 1).dropLast = some value) :
      Formed (.stringLiteral pos value raw)
  | templateLiteral {pos : Position} {quasis : List Quasi} {exprs : List Node}
      (hlength : quasis.length = exprs.length + 1) (hquasis : ∀ q ∈ quasis, q.IsRead)
      (hexprs : ∀ x ∈ exprs, Formed x) (hentire : ∀ x ∈ exprs, x.isEntire = true) :
      Formed (.templateLiteral pos quasis exprs)
  | numberLiteral {pos : Position} {raw : Text} (hraw : IsNumber raw) :
      Formed (.numberLiteral pos raw)
  | keywordLiteral {pos : Position} {value : Text} (hvalue : value ∈ keywordValues.map lit) :
      Formed (.keywordLiteral pos value)
  | array {pos : Position} {elements : List Node} (helements : ∀ x ∈ elements, Formed x)
      (hkind : ∀ x ∈ elements, x.isElement = true) : Formed (.array pos elements)
  | object {pos : Position} {properties : List Node} (hproperties : ∀ p ∈ properties, Formed p)
      (hkind : ∀ p ∈ properties, p.fits .objectMember = true) : Formed (.object pos properties)
  | shorthand {pos kpos vpos : Position} {name : Text} (hname : IsName name) :
      Formed (.property pos (.identifier kpos name) (.identifier vpos name) false true)
  | property {pos : Position} {key value : Node} (hkey : PlainKey key) (hvalue : Formed value)
      (hentire : value.isEntire = true) : Formed (.property pos key value false false)
  | computed {pos : Position} {key value : Node} (hkey : Formed key)
      (hkentire : key.isEntire = true) (hvalue : Formed value) (hentire : value.isEntire = true) :
      Formed (.property pos key value true false)
  | spread {pos : Position} {x : Node} (hx : Formed x) (hentire : x.isEntire = true) :
      Formed (.spread pos x)
  | member {obj : Node} {ppos : Position} {name : Text} {optional : Bool} (hobj : Formed obj)
      (hsuffixed : obj.isSuffixed = true) (hname : IsName name) :
      Formed (.member obj (.identifier ppos name) false optional)
  | index {obj prop : Node} {optional : Bool} (hobj : Formed obj)
      (hsuffixed : obj.isSuffixed = true) (hprop : Formed prop) (hentire : prop.isEntire = true)
      (hword : optional = false → obj.isOperatorWord = false) :
      Formed (.member obj prop true optional)
  | call {callee : Node} {args : List Node} {optional : Bool} (hcallee : Formed callee)
      (hsuffixed : callee.isSuffixed = true) (hargs : ∀ x ∈ args, Formed x)
      (hkind : ∀ x ∈ args, x.isElement = true) : Formed (.call callee args optional)
  | function {pos : Position} {params : List Node} {body : Node} {async : Bool}
      (hparams : ∀ p ∈ params, IsParam p) (hbody : Formed body) (hentire : body.isEntire = true) :
      Formed (.function pos params body async)
  | binary {left right : Node} {op : Text} (hop : op ∈ binaryOperators.map lit)
      (hleft : Formed left) (hright : Formed right) (hlchain : left.isChain = true)
      (hrchain : right.isChain = true) (hladmits : admitsLeft op left = true)
      (hrbinds : bindsAt (rightLevel op) right = true)
      (hclash : left.endsBare = true → op ∉ clashingOperators) : Formed (.binary left op right)
  | unary {pos : Position} {op : Text} {x : Node} (hop : op ∈ unaryOperators.map lit)
      (hx : Formed x) (hoperand : x.isOperand = true) : Formed (.unary pos op x)
  | paren {pos : Position} {x : Node} (hx : Formed x) (hentire : x.isEntire = true) :
      Formed (.paren pos x)

/-- A statement that has been read. -/
inductive FormedStatement : Node → Prop
  | bareDecl {pos npos : Position} {keyword name : Text}
      (hkeyword : keyword ∈ declarationWords.map lit) (hname : IsName name) :
      FormedStatement (.varDecl pos keyword (.identifier npos name) .absent)
  | varDecl {pos npos : Position} {keyword name : Text} {init : Node}
      (hkeyword : keyword ∈ declarationWords.map lit) (hname : IsName name)
      (hinit : Formed init) (hentire : init.isEntire = true) :
      FormedStatement (.varDecl pos keyword (.identifier npos name) init)
  | exprStmt {x : Node} (hx : Formed x) (hentire : x.isEntire = true)
      (hopens : x.opensStatement = true) : FormedStatement (.exprStmt x)

/-- A program that has been read. -/
inductive FormedProgram : Node → Prop
  | program {pos : Position} {body : List Node} (hbody : ∀ s ∈ body, FormedStatement s) :
      FormedProgram (.program pos body)

namespace Formed

/-- The operators of a tree that has been read are nested. -/
theorem nested {n : Node} (h : Formed n) : Nested n := by
  induction h with
  | binary _ _ _ _ _ hladmits hrbinds _ ihl ihr => exact ⟨hladmits, hrbinds, ihl, ihr⟩
  | _ => trivial

end Formed

end CubeSchema
