import CubeSchema.Position

/-!
# Tokens of a schema source

A source is cut into tokens of a few classes. Names and keywords are one class, because a keyword is
only a keyword where the grammar asks for its text.
-/

namespace CubeSchema

/-- The class of a token. -/
inductive TokenClass where
  | comment
  | whitespace
  | backtick
  | string
  | number
  | ident
  | lbrace
  | punct
  | rbrace
  | templateEnd
  | exprStart
  | templateChars
  | dollar
  | exprEnd
  | eof
  deriving DecidableEq, Repr

namespace TokenClass

/-- The name of a class inside an expectation. -/
def label : TokenClass → Text
  | comment => lit "comment"
  | whitespace => lit "whitespace"
  | backtick => lit "backtick"
  | string => lit "string"
  | number => lit "number"
  | ident => lit "ident"
  | lbrace => lit "lbrace"
  | punct => lit "punct"
  | rbrace => lit "rbrace"
  | templateEnd => lit "templateend"
  | exprStart => lit "exprstart"
  | templateChars => lit "templatechars"
  | dollar => lit "dollar"
  | exprEnd => lit "exprend"
  | eof => lit "eof"

/-- Comments and whitespace separate tokens and are not part of the grammar. -/
def isDropped : TokenClass → Bool
  | comment | whitespace => true
  | _ => false

end TokenClass

/-- A token: its class, its text and the place of its first byte. -/
structure Token where
  /-- The class of the token. -/
  cls : TokenClass
  /-- The text of the token, empty at the end of the input. -/
  text : Text
  /-- The place of the first byte. -/
  pos : Position
  deriving DecidableEq, Repr

end CubeSchema
