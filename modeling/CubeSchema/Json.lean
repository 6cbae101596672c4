import CubeSchema.Text.Utf8

/-!
# JSON results

Results for other programs are printed as JSON: two spaces of indentation per level, empty lists and
objects on one line, and a line end behind the whole. Fields stand in the order they are given.
Numbers are kept as they are written, so none is rounded.
-/

namespace CubeSchema

/-- A JSON value. -/
inductive Json where
  /-- No value. -/
  | null
  /-- A truth value. -/
  | bool (b : Bool)
  /-- A number as it is written. -/
  | number (digits : Text)
  /-- A text. -/
  | text (t : Text)
  /-- A list. -/
  | list (items : List Json)
  /-- An object: its fields in order. -/
  | object (fields : List (Text × Json))
  deriving Repr, Inhabited

namespace Json

/-- An integer. -/
def int (n : Int) : Json := .number (Text.ofInt n)

/-- A list of texts. -/
def texts (ts : List Text) : Json := .list (ts.map .text)

/-- An object whose fields have names of this library. -/
def record (fields : List (String × Json)) : Json := .object (fields.map fun f => (lit f.1, f.2))

/-- A text field that is left out when it is empty. -/
def textUnlessEmpty (name : String) (t : Text) : List (String × Json) :=
  if t.isEmpty then [] else [(name, .text t)]

/-- One glyph inside quotes. Signs that mean something in markup are written as escapes, and so are
the two line separators beyond ASCII; a stray byte is written as the replacement character. -/
def escapedGlyph : Text.Glyph → Text
  | .stray _ => lit "\\ufffd"
  | .point v _ =>
    match v with
    | 8 => lit "\\b"
    | 9 => lit "\\t"
    | 10 => lit "\\n"
    | 12 => lit "\\f"
    | 13 => lit "\\r"
    | 34 => [92, 34]
    | 92 => [92, 92]
    | _ =>
      if v < 0x20 || v = 0x3C || v = 0x3E || v = 0x26 || v = 0x2028 || v = 0x2029
      then lit "\\u" ++ Text.hexFixed 4 v
      else Text.encode v

/-- A text in quotes. -/
def quoted (t : Text) : Text := 34 :: t.glyphs.flatMap escapedGlyph ++ [34]

/-- A line end and the indentation of a level. -/
def lineStart (level : Nat) : Text := Text.newline :: Text.spaces (2 * level)

mutual

/-- A value as it stands at a level of indentation, without the indentation of its first line. -/
def printAt (level : Nat) : Json → Text
  | null => lit "null"
  | bool b => if b then lit "true" else lit "false"
  | number digits => digits
  | text t => quoted t
  | list [] => lit "[]"
  | list (item :: items) =>
    lit "[" ++ lineStart (level + 1) ++ printAt (level + 1) item ++ printItems level items
  | object [] => lit "\x7b\x7d"
  | object ((name, value) :: fields) =>
    lit "\x7b" ++ lineStart (level + 1) ++ quoted name ++ lit ": " ++ printAt (level + 1) value ++
      printFields level fields

/-- The further items of a list and its end. -/
def printItems (level : Nat) : List Json → Text
  | [] => lineStart level ++ lit "]"
  | item :: items =>
    lit "," ++ lineStart (level + 1) ++ printAt (level + 1) item ++ printItems level items

/-- The further fields of an object and its end. -/
def printFields (level : Nat) : List (Text × Json) → Text
  | [] => lineStart level ++ lit "\x7d"
  | (name, value) :: fields =>
    lit "," ++ lineStart (level + 1) ++ quoted name ++ lit ": " ++ printAt (level + 1) value ++
      printFields level fields

end

/-- The lines of a value. -/
def print (j : Json) : Text := printAt 0 j ++ [Text.newline]

end Json

end CubeSchema
