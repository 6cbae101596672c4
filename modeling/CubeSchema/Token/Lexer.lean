import CubeSchema.Text.Quoted
import CubeSchema.Token.Lexeme

/-!
# The lexer

The lexer keeps a stack of modes. A backtick enters a template, `$` with a brace enters an
interpolation inside it, and an opening brace enters a block, so that a closing brace always ends
what was opened last. In every mode the rules are tried in order and the first one that matches
gives the token.
-/

namespace CubeSchema

/-- What the lexer is inside of. -/
inductive Mode where
  | block
  | template
  | interpolation
  deriving DecidableEq, Repr

/-- What a token does to the stack of modes. -/
inductive StackEffect where
  | keep
  | enter (mode : Mode)
  | leave
  deriving DecidableEq, Repr

/-- A lexer rule: which class it yields, how far it reaches and what it does to the stack. -/
structure LexRule where
  /-- The class of the tokens the rule yields. -/
  cls : TokenClass
  /-- How many bytes the rule takes. -/
  reach : Lexeme.Matcher
  /-- What the token does to the stack of modes. -/
  effect : StackEffect := .keep

namespace Lexer

/-- The rules outside of templates. -/
def codeRules : List LexRule :=
  [{ cls := .comment, reach := Lexeme.comment },
   { cls := .whitespace, reach := Lexeme.blanks },
   { cls := .backtick, reach := Lexeme.exactly (lit "`"), effect := .enter .template },
   { cls := .string, reach := Lexeme.string },
   { cls := .number, reach := Lexeme.number },
   { cls := .ident, reach := Lexeme.ident },
   { cls := .lbrace, reach := Lexeme.exactly (lit "\x7b"), effect := .enter .block },
   { cls := .punct, reach := Lexeme.punct }]

/-- The rules inside a block: its closing brace first. -/
def blockRules : List LexRule :=
  { cls := .rbrace, reach := Lexeme.exactly (lit "\x7d"), effect := .leave } :: codeRules

/-- The rules inside an interpolation: its closing brace first. -/
def interpolationRules : List LexRule :=
  { cls := .exprEnd, reach := Lexeme.exactly (lit "\x7d"), effect := .leave } :: codeRules

/-- The rules inside a template. -/
def templateRules : List LexRule :=
  [{ cls := .templateEnd, reach := Lexeme.exactly (lit "`"), effect := .leave },
   { cls := .exprStart, reach := Lexeme.exactly (lit "$\x7b"), effect := .enter .interpolation },
   { cls := .templateChars, reach := Lexeme.templateChars },
   { cls := .dollar, reach := Lexeme.exactly (lit "$") }]

/-- The rules of the innermost mode. -/
def rulesAt : List Mode → List LexRule
  | [] => codeRules
  | .block :: _ => blockRules
  | .template :: _ => templateRules
  | .interpolation :: _ => interpolationRules

/-- The stack after a token. -/
def StackEffect.apply : StackEffect → List Mode → List Mode
  | .keep, stack => stack
  | .enter mode, stack => mode :: stack
  | .leave, stack => stack.tail

/-- The first rule that matches at the front of a text. -/
def firstRule? (rules : List LexRule) (t : Text) : Option LexRule :=
  rules.find? fun r => r.reach t ≠ 0

/-- The place and the rest of an input at which no rule matches. -/
structure Failure where
  /-- Where the rest starts. -/
  pos : Position
  /-- The input from there on. -/
  rest : Text
  deriving DecidableEq, Repr

/-- All tokens of `t` from position `pos` on, dropped ones included, ending with the end token.
Every token takes at least one byte, so `fuel` never needs to exceed the length of `t`. -/
def tokensFrom : Nat → List Mode → Position → Text → Except Failure (List Token)
  | _, _, pos, [] => .ok [{ cls := .eof, text := [], pos }]
  | 0, _, pos, rest => .error { pos, rest }
  | fuel + 1, stack, pos, rest =>
    match firstRule? (rulesAt stack) rest with
    | none => .error { pos, rest }
    | some rule =>
      let n := rule.reach rest
      let text := rest.take n
      let token : Token := { cls := rule.cls, text, pos }
      (tokensFrom fuel (StackEffect.apply rule.effect stack) (pos.advance text) (rest.drop n)).map
        (token :: ·)

/-- All tokens of a source, dropped ones included, ending with the end token. -/
def allTokens (file src : Text) : Except Failure (List Token) :=
  tokensFrom src.length [] (.start file) src

/-- The tokens of a source that the grammar sees. -/
def tokens (file src : Text) : Except Failure (List Token) :=
  (allTokens file src).map (List.filter fun t => !t.cls.isDropped)

/-- Shows the start of an input that no rule matches: at most sixteen glyphs. -/
def Failure.message (f : Failure) : Text :=
  let points := f.rest.codePoints
  let shown := Text.ofCodePoints (points.take 16)
  lit "invalid input text " ++
    Text.quoted (if 16 < points.length then shown ++ lit "..." else shown)

end Lexer

end CubeSchema
