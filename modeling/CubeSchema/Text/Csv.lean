import CubeSchema.Text.Space

/-!
# Comma separated fields

The first record of a text: fields between commas, which may stand between double quotes. Between
quotes a comma and a line break are part of the field, and a quote is written twice. `write` gives
the line of a list of fields, and `fields` reads one.
-/

namespace CubeSchema.Csv

/-- Why a text has no record. -/
inductive Fault where
  /-- There is nothing but empty lines. -/
  | empty
  /-- A quote stands in a field that does not start with one. -/
  | bareQuote (start line column : Nat)
  /-- A quoted field does not end where it should. -/
  | openQuote (start line column : Nat)
  deriving DecidableEq, Repr

/-- The double quote. -/
def quote : UInt8 := 34

/-- The comma. -/
def comma : UInt8 := 44

/-- The wording of a fault. -/
def Fault.message (f : Fault) : Text :=
  let located (start line column : Nat) (what : Text) : Text :=
    (if start = line then [] else lit "record on line " ++ Text.ofNat start ++ lit "; ") ++
      lit "parse error on line " ++ Text.ofNat line ++ lit ", column " ++ Text.ofNat column ++
      lit ": " ++ what
  match f with
  | empty => lit "EOF"
  | bareQuote s l c => located s l c (lit "bare " ++ quote :: lit " in non-quoted-field")
  | openQuote s l c =>
    located s l c (lit "extraneous or missing " ++ quote :: lit " in quoted-field")

/-- The lines of a text with their line feeds. A carriage return at the end of a line is dropped, so
that the last line may be empty. -/
def lines (t : Text) : List Text :=
  let trimmed (l : Text) : Text := if l.getLast? = some 13 then l.dropLast else l
  match (Text.splitOn Text.newline t).reverse with
  | [] => []
  | last :: before =>
    (before.reverse.map fun l => trimmed l ++ [Text.newline]) ++
      (if last.isEmpty then [] else [trimmed last])

/-- What is read of a field. -/
inductive Mode where
  /-- Nothing yet. -/
  | start
  /-- A field without quotes. -/
  | plain
  /-- A field behind its opening quote. -/
  | quoted
  /-- A field behind a quote that closes it or is the first of two. -/
  | closing
  deriving DecidableEq, Repr

/-- Reads a record from a place on. The fields before come in reverse, and so do the bytes of the
field that is being read; `first` is the line the record starts on. -/
def readFrom (first : Nat) : Mode → List Text → Text → Nat → Nat → Text → List Text →
    Except Fault (List Text)
  | .quoted, _, _, line, column, [], [] => .error (.openQuote first line column)
  | _, fields, field, _, _, [], _ :: _ => .ok ((field.reverse :: fields).reverse)
  | _, fields, field, _, _, [], [] => .ok ((field.reverse :: fields).reverse)
  | mode, fields, field, line, column, b :: rest, more =>
    match mode with
    | .start =>
      if b = quote then readFrom first .quoted fields [] line (column + 1) rest more
      else if b = comma then readFrom first .start ([] :: fields) [] line (column + 1) rest more
      else if b = Text.newline && rest.isEmpty then .ok (([] :: fields).reverse)
      else readFrom first .plain fields [b] line (column + 1) rest more
    | .plain =>
      if b = comma then
        readFrom first .start (field.reverse :: fields) [] line (column + 1) rest more
      else if b = quote then .error (.bareQuote first line column)
      else if b = Text.newline && rest.isEmpty then .ok ((field.reverse :: fields).reverse)
      else readFrom first .plain fields (b :: field) line (column + 1) rest more
    | .quoted =>
      if b = quote then readFrom first .closing fields field line (column + 1) rest more
      else if rest.isEmpty then
        match more with
        | [] | [] :: _ => .error (.openQuote first line (column + 1))
        | next :: more => readFrom first .quoted fields (b :: field) (line + 1) 1 next more
      else readFrom first .quoted fields (b :: field) line (column + 1) rest more
    | .closing =>
      if b = quote then readFrom first .quoted fields (quote :: field) line (column + 1) rest more
      else if b = comma then
        readFrom first .start (field.reverse :: fields) [] line (column + 1) rest more
      else if b = Text.newline && rest.isEmpty then .ok ((field.reverse :: fields).reverse)
      else .error (.openQuote first line (column - 1))
termination_by _ _ _ _ _ t more => t.length + more.flatten.length + more.length

/-- The fields of the first record of a text. -/
def record (t : Text) : Except Fault (List Text) :=
  let all := lines t
  let skipped := (all.takeWhile fun l => l.isEmpty || l = [Text.newline]).length
  match all.drop skipped with
  | [] => .error .empty
  | l :: more => readFrom (skipped + 1) .start [] [] (skipped + 1) 1 l more

/-- The fields of a text; an empty text has none. -/
def fields (t : Text) : Except Fault (List Text) := if t.isEmpty then .ok [] else record t

/-- Whether a field has to be written between quotes. -/
def needsQuotes (t : Text) : Bool :=
  t = lit "\\." || t.any (fun b => b = quote || b = comma || b = Text.newline || b = 13) ||
    (Text.codePoints t).head?.any Text.isSpace

/-- The written form of a field. -/
def writeField (t : Text) : Text :=
  if needsQuotes t then
    quote :: t.flatMap (fun b => if b = quote then [quote, quote] else [b]) ++ [quote]
  else t

/-- The line of a list of fields. -/
def write (ts : List Text) : Text := [comma].intercalate (ts.map writeField)

end CubeSchema.Csv
