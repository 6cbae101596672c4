import CubeSchema.Text.Quoted
import CubeSchema.Token

/-!
# The grammar of schema sources

The grammar is a value: every rule has a pattern, and a pattern is built from token texts, token
classes and other rules. The matcher in `CubeSchema.Grammar.Match` runs it, and error messages show
the part of it that was expected, so both always speak of the same grammar.
-/

namespace CubeSchema

/-- The rules of the grammar. -/
inductive Rule where
  | program
  | statement
  | varDecl
  | ident
  | expression
  | arrowFunction
  | binaryChain
  | binaryOp
  | unary
  | suffixed
  | suffix
  | optionalSuffix
  | callArgs
  | element
  | primary
  | templateLiteral
  | templatePart
  | arrayLiteral
  | objectLiteral
  | objectMember
  | property
  | propertyKey
  deriving DecidableEq, Repr

/-- The name of a rule inside an expectation. -/
def Rule.name : Rule → Text
  | .program => lit "Program"
  | .statement => lit "Statement"
  | .varDecl => lit "VarDecl"
  | .ident => lit "Ident"
  | .expression => lit "Expression"
  | .arrowFunction => lit "ArrowFunction"
  | .binaryChain => lit "BinaryChain"
  | .binaryOp => lit "BinaryOp"
  | .unary => lit "Unary"
  | .suffixed => lit "Postfix"
  | .suffix => lit "PostfixOp"
  | .optionalSuffix => lit "OptionalOp"
  | .callArgs => lit "CallArgs"
  | .element => lit "Element"
  | .primary => lit "Primary"
  | .templateLiteral => lit "TemplateLiteral"
  | .templatePart => lit "TemplatePart"
  | .arrayLiteral => lit "ArrayLiteral"
  | .objectLiteral => lit "ObjectLiteral"
  | .objectMember => lit "ObjectMember"
  | .property => lit "Property"
  | .propertyKey => lit "PropertyKey"

/-- What a piece of the token list has to look like. -/
inductive Pattern where
  /-- A token with exactly this text, of whatever class. -/
  | text (t : Text)
  /-- A token of this class. -/
  | token (cls : TokenClass)
  /-- What the rule describes. -/
  | rule (r : Rule)
  /-- All parts in order. -/
  | seq (parts : List Pattern)
  /-- The first alternative that matches. -/
  | alt (choices : List Pattern)
  /-- The inner pattern or nothing. -/
  | opt (inner : Pattern)
  /-- The inner pattern any number of times. -/
  | many (inner : Pattern)
  deriving Repr

namespace Pattern

mutual

/-- Shows a pattern as an expectation. -/
def display : Pattern → Text
  | text t => t.quoted
  | token cls => lit "<" ++ cls.label ++ lit ">"
  | rule r => r.name
  | seq parts => lit "(" ++ Text.join (lit " ") (displayAll parts) ++ lit ")"
  | alt choices => lit "(" ++ Text.join (lit " | ") (displayAll choices) ++ lit ")"
  | opt inner => inner.display ++ lit "?"
  | many inner => inner.display ++ lit "*"

/-- Shows each pattern of a list. -/
def displayAll : List Pattern → List Text
  | [] => []
  | p :: ps => p.display :: displayAll ps

end

/-- Any of several token texts. -/
def oneOf (texts : List String) : Pattern := alt (texts.map fun t => text (lit t))

/-- Items separated by commas, with an optional comma at the end; there may be none. -/
def commaList (item : Pattern) : Pattern :=
  opt (seq [item, many (seq [text (lit ","), item]), opt (text (lit ","))])

end Pattern

/-- The words that start a variable declaration. -/
def declarationWords : List String := ["const", "let", "var"]

/-- The binary operators. -/
def binaryOperators : List String :=
  ["===", "!==", "==", "!=", "<=", ">=", "&&", "||", "??", "**", ">>>", "<<", ">>", "<", ">", "+",
    "-", "*", "/", "%", "&", "|", "^", "instanceof", "in"]

/-- The unary operators. -/
def unaryOperators : List String := ["!", "-", "+", "~", "typeof", "void", "await"]

/-- The words that are values of their own. -/
def keywordValues : List String := ["true", "false", "null", "undefined"]

open Pattern in
/-- The pattern of each rule. -/
def Rule.pattern : Rule → Pattern
  | .program => seq [many (text (lit ";")), many (seq [rule .statement, many (text (lit ";"))])]
  | .statement => alt [rule .varDecl, rule .expression]
  | .varDecl =>
    seq [oneOf declarationWords, rule .ident, opt (seq [text (lit "="), rule .expression])]
  | .ident => token .ident
  | .expression => alt [rule .arrowFunction, rule .binaryChain]
  | .arrowFunction =>
    seq [opt (text (lit "async")),
      alt [seq [text (lit "("), commaList (rule .ident), text (lit ")")], rule .ident],
      text (lit "=>"), rule .expression]
  | .binaryChain => seq [rule .unary, many (rule .binaryOp)]
  | .binaryOp => seq [oneOf binaryOperators, rule .unary]
  | .unary => alt [seq [oneOf unaryOperators, rule .unary], rule .suffixed]
  | .suffixed => seq [rule .primary, many (rule .suffix)]
  | .suffix =>
    alt [rule .callArgs, seq [text (lit "["), rule .expression, text (lit "]")],
      seq [text (lit "."), rule .ident], seq [text (lit "?."), rule .optionalSuffix]]
  | .optionalSuffix =>
    alt [rule .callArgs, seq [text (lit "["), rule .expression, text (lit "]")], rule .ident]
  | .callArgs => seq [text (lit "("), commaList (rule .element), text (lit ")")]
  | .element => seq [opt (text (lit "...")), rule .expression]
  | .primary =>
    alt [oneOf keywordValues, token .number, token .string, rule .templateLiteral,
      rule .arrayLiteral, rule .objectLiteral,
      seq [text (lit "("), rule .expression, text (lit ")")], token .ident]
  | .templateLiteral => seq [token .backtick, many (rule .templatePart), token .templateEnd]
  | .templatePart =>
    alt [alt [token .templateChars, token .dollar],
      seq [token .exprStart, rule .expression, token .exprEnd]]
  | .arrayLiteral => seq [text (lit "["), commaList (rule .element), text (lit "]")]
  | .objectLiteral => seq [text (lit "\x7b"), commaList (rule .objectMember), text (lit "\x7d")]
  | .objectMember => alt [seq [text (lit "..."), rule .expression], rule .property]
  | .property => seq [rule .propertyKey, opt (seq [text (lit ":"), rule .expression])]
  | .propertyKey =>
    alt [seq [text (lit "["), rule .expression, text (lit "]")], token .string, token .number,
      token .ident]

end CubeSchema
