import CubeSchema.Text.Escape
import CubeSchema.Tree.Node

/-!
# Printing syntax trees

A tree is printed in two steps. `Node.pieces` lists texts, line ends and changes of the indentation;
`layout` turns that list into a text. Objects take one line per member with a comma behind each,
statements end with a semicolon and have a blank line between them, and parentheses are added only
where the text would otherwise be read as something else.
-/

namespace CubeSchema

/-- A step of printing. -/
inductive Piece where
  /-- Writes a text. -/
  | text (t : Text)
  /-- Ends the line. -/
  | newline
  /-- Indents the following lines by one more level. -/
  | indent
  /-- Indents the following lines by one level less. -/
  | dedent
  deriving DecidableEq, Repr

namespace Layout

/-- The number of spaces of one level. -/
def indentSize : Nat := 2

/-- The text printed for a list of pieces, at a level and either at the start of a line or not. The
spaces of a line are written with its first text; an empty text, or one that starts with a line
feed, takes the place of that first text and goes without them. -/
def text : Nat → Bool → List Piece → Text
  | _, _, [] => []
  | level, atStart, .text t :: rest =>
    let spaces :=
      if atStart && !t.isEmpty && t.head? ≠ some Text.newline then Text.spaces (level * indentSize)
      else []
    spaces ++ t ++ text level false rest
  | level, _, .newline :: rest => Text.newline :: text level true rest
  | level, atStart, .indent :: rest => text (level + 1) atStart rest
  | level, atStart, .dedent :: rest => text (level - 1) atStart rest

end Layout

/-- Lays out pieces as a text that ends with exactly one line feed. -/
def layout (pieces : List Piece) : Text :=
  Text.trimRightBy (· = Text.newline) (Layout.text 0 true pieces) ++ [Text.newline]

namespace Node

/-- A literal piece. -/
def word (s : String) : Piece := .text (lit s)

/-- Operators that are words and need a space behind them. -/
def isWordOperator (op : Text) : Bool :=
  [lit "typeof", lit "void", lit "await", lit "delete"].contains op

/-- Whether a property can be written as its key alone. -/
def isShorthand : Node → Bool
  | property _ (identifier _ key) (identifier _ value) false true => key = value
  | _ => false

/-- Whether a node has to be put in parentheses as the object of an access or a call. -/
def isLoose (n : Node) : Bool := n.kind = .function || n.kind = .binary || n.kind = .unary

/-- Puts pieces in parentheses when asked to. -/
def parenthesized (needed : Bool) (pieces : List Piece) : List Piece :=
  if needed then word "(" :: pieces ++ [word ")"] else pieces

/-- The name that a node has as a declared variable or a parameter. -/
def declaredName (n : Node) : Text := n.name?.getD []

/-- The mark between an object and its member. -/
def accessMark : Bool → Bool → Piece
  | true, true => word "?.["
  | true, false => word "["
  | false, true => word "?."
  | false, false => word "."

/-- Pieces with a separator between each two of them. -/
def separated (sep : Piece) : List (List Piece) → List Piece
  | [] => []
  | [p] => p
  | p :: rest => p ++ sep :: separated sep rest

/-- The chunks of a template with the expressions between them; an expression without a chunk before
it is left out. -/
def interleaved : List Quasi → List (List Piece) → List Piece
  | [], _ => []
  | q :: quasis, [] => .text q.raw :: interleaved quasis []
  | q :: quasis, x :: xs =>
    .text q.raw :: word "$\x7b" :: x ++ word "\x7d" :: interleaved quasis xs

/-- The lines of an object's members. -/
def memberLines : List (List Piece) → List Piece
  | [] => []
  | m :: rest => m ++ word "," :: .newline :: memberLines rest

/-- The statements of a program, with a blank line between each two of them. -/
def statementLines : List (List Piece) → List Piece
  | [] => []
  | [s] => s ++ [.newline]
  | s :: rest => s ++ .newline :: .newline :: statementLines rest

mutual

/-- The pieces of a node. -/
def pieces : Node → List Piece
  | absent => []
  | program _ body => statementLines (piecesAll body)
  | varDecl _ keyword name init =>
    .text (keyword ++ lit " " ++ name.declaredName) ::
      (if init.isAbsent then [] else word " = " :: init.pieces) ++ [word ";"]
  | exprStmt x =>
    -- A leading brace or function would start a block or a declaration.
    parenthesized (x.kind = .object || x.kind = .function) x.pieces ++ [word ";"]
  | identifier _ name => [.text name]
  | stringLiteral _ value raw => [.text (if raw.isEmpty then value.singleQuoted else raw)]
  | templateLiteral _ quasis exprs => word "`" :: interleaved quasis (piecesAll exprs) ++ [word "`"]
  | numberLiteral _ raw => [.text raw]
  | keywordLiteral _ value => [.text value]
  | array _ elements =>
    -- A hole at the end needs a comma of its own.
    word "[" :: separated (word ", ") (piecesAll elements) ++
      (if (elements.getLast?.map isAbsent).getD false then [word ","] else []) ++ [word "]"]
  | object _ properties =>
    if properties.isEmpty then [word "\x7b\x7d"]
    else
      word "\x7b" :: .newline :: .indent :: memberLines (piecesAll properties) ++
        [.dedent, word "\x7d"]
  | property pos key value computed shorthand =>
    if isShorthand (property pos key value computed shorthand) then key.pieces
    else
      (if computed then word "[" :: key.pieces ++ [word "]"] else key.pieces) ++
        word ": " :: value.pieces
  | spread _ x => word "..." :: x.pieces
  | member obj prop computed optional =>
    parenthesized obj.isLoose obj.pieces ++
      accessMark computed optional :: prop.pieces ++ (if computed then [word "]"] else [])
  | call callee args optional =>
    parenthesized callee.isLoose callee.pieces ++ (if optional then [word "?."] else []) ++
      word "(" :: separated (word ", ") (piecesAll args) ++ [word ")"]
  | function _ params body async =>
    (if async then [word "async "] else []) ++
      word "(" :: separated (word ", ") (params.map fun p => [.text p.declaredName]) ++
      word ") => " :: parenthesized (body.kind = .object) body.pieces
  | binary left op right => left.pieces ++ .text (lit " " ++ op ++ lit " ") :: right.pieces
  | unary _ op x => .text op :: (if isWordOperator op then [word " "] else []) ++ x.pieces
  | paren _ x => word "(" :: x.pieces ++ [word ")"]

/-- The pieces of each node of a list. -/
def piecesAll : List Node → List (List Piece)
  | [] => []
  | n :: rest => n.pieces :: piecesAll rest

end

/-- The printed form of a node. -/
def print (n : Node) : Text := layout n.pieces

end Node

end CubeSchema
