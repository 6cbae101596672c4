import CubeSchema.Grammar.Match

/-!
# Errors in a source

Why a source is rejected, and the one place that words it.
-/

namespace CubeSchema

/-- Why a source is rejected. -/
inductive ParseCause where
  /-- No token starts with this text. -/
  | unreadable (failure : Lexer.Failure)
  /-- A token does not fit the grammar. -/
  | unexpected (found : Unexpected)
  /-- A malformed escape in a quoted text. -/
  | stringEscape
  /-- A malformed escape in a template. -/
  | templateEscape
  /-- A property without a value whose key is no plain name. -/
  | shorthandKey
  deriving Repr

/-- The words for a cause. -/
def ParseCause.message : ParseCause → Text
  | .unreadable failure => failure.message
  | .unexpected found => found.message
  | .stringEscape => lit "invalid escape sequence in string literal"
  | .templateEscape => lit "invalid escape sequence in template literal"
  | .shorthandKey => lit "shorthand property requires an identifier key"

/-- Why and where a source is rejected. -/
structure ParseError where
  /-- The place of the error. -/
  pos : Position
  /-- The reason. -/
  cause : ParseCause
  deriving Repr

namespace ParseError

/-- The full text for a message at a place. -/
def textAt (pos : Position) (message : Text) : Text :=
  (if pos.file.isEmpty then [] else pos.file ++ lit ": ") ++
    lit "parse error at line " ++ Text.ofInt pos.line ++ lit ", column " ++ Text.ofInt pos.column ++
    lit ": " ++ message

/-- The words for the reason alone. -/
def message (e : ParseError) : Text := e.cause.message

/-- The words for the reason with the place in front. -/
def text (e : ParseError) : Text := textAt e.pos e.message

end ParseError

end CubeSchema
