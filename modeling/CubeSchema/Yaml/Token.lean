import CubeSchema.Yaml.Cursor

/-!
# YAML tokens

A stream is first cut into tokens. Indentation shows as tokens that open and close block
collections, so that the grammar of nodes is a plain one. Every token keeps the line it starts on.
-/

namespace CubeSchema.Yaml

/-- What a token is. -/
inductive TokenKind where
  /-- The end of the stream. -/
  | streamEnd
  /-- A directive that names the version of the language. -/
  | version (major minor : Nat)
  /-- A directive that gives a handle for tags. -/
  | tagDirective (handle start : Text)
  /-- The mark before a document. -/
  | documentStart
  /-- The mark behind a document. -/
  | documentEnd
  /-- The start of a sequence by indentation. -/
  | blockSequence
  /-- The start of a mapping by indentation. -/
  | blockMapping
  /-- The end of a collection by indentation. -/
  | blockEnd
  /-- A bracket that opens a sequence. -/
  | sequenceOpen
  /-- A bracket that closes a sequence. -/
  | sequenceClose
  /-- A brace that opens a mapping. -/
  | mappingOpen
  /-- A brace that closes a mapping. -/
  | mappingClose
  /-- A hyphen before an element. -/
  | blockEntry
  /-- A comma between elements. -/
  | flowEntry
  /-- The start of a key. -/
  | key
  /-- The start of a value. -/
  | value
  /-- A reference to an anchored node. -/
  | alias (name : Text)
  /-- A name given to the next node. -/
  | anchor (name : Text)
  /-- A tag given to the next node. -/
  | tag (handle ending : Text)
  /-- A scalar, with or without quotes or block indicators. -/
  | scalar (text : Text) (plain : Bool)
  deriving DecidableEq, Repr

/-- A token with the line it starts on. -/
structure Token where
  /-- What the token is. -/
  kind : TokenKind
  /-- The line it starts on. -/
  line : Nat
  deriving DecidableEq, Repr

end CubeSchema.Yaml
