import CubeSchema.Token

/-!
# Lexemes

How far each token class reaches at the front of a text. A lexeme function gives the number of bytes
it takes, and zero when the class does not match. All tests look at single bytes: every byte that a
class names is ASCII, so a code point of several bytes is taken or left as a whole.
-/

namespace CubeSchema.Lexeme

/-- A lexeme function: the length of the match at the front of a text, zero for no match. -/
abbrev Matcher := Text → Nat

/-- The length of the longest front whose bytes all satisfy `p`. -/
def run (p : UInt8 → Bool) (t : Text) : Nat := (t.takeWhile p).length

/-- A nonempty fixed text. -/
def exactly (p : Text) : Matcher := fun t => if t.startsWith p then p.length else 0

/-- The first of several fixed texts that matches. -/
def firstOf : List Text → Matcher
  | [], _ => 0
  | p :: ps, t => if t.startsWith p then p.length else firstOf ps t

/-- Blank bytes: tab, line feed, form feed, carriage return and space. -/
def isBlank (b : UInt8) : Bool := b = 9 || b = 10 || b = 12 || b = 13 || b = 32

/-- A run of blanks. -/
def blanks : Matcher := run isBlank

/-- The length of a text up to and including the first `*/`, if it has one. -/
def blockEnd? : Text → Option Nat
  | 42 :: 47 :: _ => some 2
  | _ :: rest => (blockEnd? rest).map (· + 1)
  | [] => none

/-- A line comment up to the line feed, or a block comment up to its first end mark. -/
def comment : Matcher
  | 47 :: 47 :: rest => 2 + run (· ≠ Text.newline) rest
  | 47 :: 42 :: rest => ((blockEnd? rest).map (· + 2)).getD 0
  | _ => 0

/-- The length of a quoted text behind its opening quote, the closing quote included. A backslash
hides the byte behind it, and an unhidden line feed ends the search. -/
def quoteEnd? (quote : UInt8) : Text → Option Nat
  | [] => none
  | [b] => if b = quote then some 1 else none
  | b :: c :: rest =>
    if b = quote then some 1
    else if b = 92 then (quoteEnd? quote rest).map (· + 2)
    else if b = Text.newline then none
    else (quoteEnd? quote (c :: rest)).map (· + 1)

/-- A text in double or single quotes. -/
def string : Matcher
  | b :: rest => if b = 34 || b = 39 then ((quoteEnd? b rest).map (· + 1)).getD 0 else 0
  | [] => 0

/-- A byte of a hexadecimal number. -/
def isHexPart (b : UInt8) : Bool := (Text.hexValue? b).isSome || b = 95

/-- A byte of a binary number. -/
def isBinaryPart (b : UInt8) : Bool := b = 48 || b = 49 || b = 95

/-- A byte of an octal number. -/
def isOctalPart (b : UInt8) : Bool := (48 ≤ b && b ≤ 55) || b = 95

/-- A byte of a decimal number behind its first digit. -/
def isDecimalPart (b : UInt8) : Bool := Text.isDigit b || b = 95

/-- A number with a base mark: `0`, the mark in either case and at least one part byte. -/
def based (mark : Char) (isPart : UInt8 → Bool) : Matcher
  | 48 :: m :: rest =>
    if m = ascii mark || m = ascii mark - 32 then
      let n := run isPart rest
      if n = 0 then 0 else n + 2
    else 0
  | _ => 0

/-- Digits with an optional fraction, or a fraction alone. -/
def decimal : Matcher
  | [] => 0
  | b :: rest =>
    if Text.isDigit b then
      let whole := 1 + run isDecimalPart rest
      match (b :: rest).drop whole with
      | 46 :: fraction => whole + 1 + run Text.isDigit fraction
      | _ => whole
    else if b = 46 then
      let n := run Text.isDigit rest
      if n = 0 then 0 else n + 1
    else 0

/-- An exponent: the mark, an optional sign and at least one digit. -/
def exponent : Matcher
  | m :: rest =>
    if m = ascii 'e' || m = ascii 'E' then
      match rest with
      | s :: digits =>
        if s = ascii '+' || s = ascii '-' then
          let n := run Text.isDigit digits
          if n = 0 then 0 else n + 2
        else
          let n := run Text.isDigit (s :: digits)
          if n = 0 then 0 else n + 1
      | [] => 0
    else 0
  | [] => 0

/-- A decimal number with its optional exponent. -/
def scientific : Matcher := fun t =>
  let n := decimal t
  if n = 0 then 0 else n + exponent (t.drop n)

/-- The first matcher of a list that matches. -/
def firstMatch : List Matcher → Matcher
  | [], _ => 0
  | m :: ms, t => if m t = 0 then firstMatch ms t else m t

/-- A number: hexadecimal, binary, octal or decimal, with an optional `n` behind it. -/
def number : Matcher := fun t =>
  let n := firstMatch [based 'x' isHexPart, based 'b' isBinaryPart, based 'o' isOctalPart,
    scientific] t
  if n = 0 then 0 else n + exactly (lit "n") (t.drop n)

/-- A byte that may start a name. -/
def isNameStart (b : UInt8) : Bool := Text.isLetter b || b = 95 || b = 36

/-- A byte that may continue a name. -/
def isNamePart (b : UInt8) : Bool := isNameStart b || Text.isDigit b

/-- A name or a keyword. -/
def ident : Matcher
  | b :: rest => if isNameStart b then 1 + run isNamePart rest else 0
  | [] => 0

/-- The punctuation marks, each before the marks it starts with. -/
def marks : List Text :=
  ["...", "?.", "=>", "===", "!==", "==", "!=", "<=", ">=", "&&", "||", "??", "**", ">>>", "<<",
    ">>", "-", "+", "*", "/", "%", "<", ">", "!", "~", "&", "|", "^", "?", ":", "=", ".", ",", ";",
    "(", ")", "[", "]", "\x7d"].map lit

/-- A punctuation mark. -/
def punct : Matcher := firstOf marks

/-- The characters of a template: a backslash hides the byte behind it, a backtick ends the run, and
so does a dollar sign unless a byte other than a brace, a backtick, a backslash or a dollar sign
follows it. -/
def templateChars : Matcher
  | [] => 0
  | [b] => if b = 96 || b = 92 || b = 36 then 0 else 1
  | b :: c :: rest =>
    if b = 96 then 0
    else if b = 92 then 2 + templateChars rest
    else if b = 36 then
      if c = 123 || c = 96 || c = 92 || c = 36 then 0 else 2 + templateChars rest
    else 1 + templateChars (c :: rest)

end CubeSchema.Lexeme
