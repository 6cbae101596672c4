import CubeSchema.Grammar
import CubeSchema.Token.Lexer

/-!
# Matching a token list against the grammar

Alternatives are tried in order and the first match is kept. A sequence that fails behind its first
part is a failure and not a plain mismatch; an optional or repeated part that fails ends there and
lets the rest go on. The failure that reached furthest is remembered, because it is the one worth
reporting when the whole source does not match.

A repetition may be limited: one that has gone through that many rounds is a failure, whatever comes
behind it.
-/

namespace CubeSchema

/-- What a match yields: the tokens and rules it went through. -/
inductive ParseTree where
  | leaf (token : Token)
  | branch (rule : Rule) (pos : Position) (kids : List ParseTree)
  deriving Repr

/-- A token that does not fit, and the patterns that were expected in its place. -/
structure Unexpected where
  /-- The token found. -/
  token : Token
  /-- The patterns expected there, in order; none when nothing more was expected. -/
  expected : List Pattern := []
  /-- The repetition that has come to its limit in front of the token, with the limit, if it is not
  the token that is wrong. -/
  overrun : Option (Pattern × Nat) := none
  deriving Repr

/-- Shows the repetition and its limit, or the token found and, if there is one, the expectation. -/
def Unexpected.message (u : Unexpected) : Text :=
  match u.overrun with
  | some (p, limit) =>
    lit "too many iterations of " ++ p.display ++ lit " (> " ++ Text.ofNat limit ++ lit ")"
  | none =>
    let found := if u.token.cls = .eof then lit "<EOF>" else u.token.text
    lit "unexpected token " ++ found.quoted ++
      (if u.expected.isEmpty then []
       else lit " (expected " ++ Text.join (lit " ") (Pattern.displayAll u.expected) ++ lit ")")

/-- A place in the token list, with the failure that reached furthest so far. -/
structure Reader where
  /-- The number of tokens before this place. -/
  index : Nat
  /-- The tokens from this place on. -/
  rest : List Token
  /-- The failure that reached furthest. -/
  deepest : Option Unexpected := none
  /-- How far that failure reached. -/
  depth : Nat := 0
  deriving Repr

namespace Reader

/-- How many tokens a failing branch may be ahead before its failure is final. -/
def lookahead : Nat := 1024

/-- The token at this place. -/
def current (r : Reader) : Token :=
  r.rest.headD { cls := .eof, text := [], pos := .unknown }

/-- Where a rule that starts here begins. -/
def pos (r : Reader) : Position := r.current.pos

/-- The place behind the current token. -/
def advance (r : Reader) : Reader := { r with index := r.index + 1, rest := r.rest.tail }

/-- Remembers a failure unless one that reached further is known. -/
def note (r : Reader) (e : Unexpected) : Reader :=
  if r.depth ≤ r.index then { r with deepest := some e, depth := r.index } else r

/-- Moves to the place of a branch and takes over what it remembers. -/
def accept (r b : Reader) : Reader :=
  if r.depth ≤ b.depth then b else { b with deepest := r.deepest, depth := r.depth }

/-- Takes over what a failed branch remembers. -/
def learn (r b : Reader) (e : Unexpected) : Reader :=
  if r.depth < b.depth then { r with deepest := b.deepest, depth := b.depth }
  else if r.depth ≤ b.index then { r with deepest := some e, depth := max b.index b.depth }
  else r

/-- Whether a failed branch is so far ahead that its failure is final. -/
def isFinal (r b : Reader) : Bool := r.index + lookahead < b.index

end Reader

/-- The result of matching one pattern. -/
inductive Outcome where
  /-- The pattern does not start here. -/
  | mismatch
  /-- The pattern matches and yields these trees. -/
  | matched (trees : List ParseTree)
  /-- The pattern starts here and then breaks off. -/
  | failed (e : Unexpected)
  deriving Repr

namespace Grammar

/-- Matching one pattern at one place; `none` when the fuel ran out. -/
abbrev Step := Pattern → Reader → Option (Outcome × Reader)

/-- Matches one token. -/
def matchToken (p : Token → Bool) (r : Reader) : Outcome × Reader :=
  if p r.current then (.matched [.leaf r.current], r.advance) else (.mismatch, r)

/-- Matches the parts of a sequence in order; `first` says that none has matched yet. -/
def matchSeq (step : Step) : Bool → List Pattern → Reader → Option (Outcome × Reader)
  | _, [], r => some (.matched [], r)
  | first, p :: ps, r => do
    match ← step p r with
    | (.failed e, r') => return (.failed e, r')
    | (.mismatch, r') =>
      if first then return (.mismatch, r')
      else return (.failed { token := r'.current, expected := p :: ps }, r')
    | (.matched trees, r') =>
      match ← matchSeq step false ps r' with
      | (.matched more, r'') => return (.matched (trees ++ more), r'')
      | other => return other

/-- Tries alternatives in order. `best` is the failure that reached furthest among them, the later
one of two that reached equally far, and `reach` is how far it reached. -/
def matchAlt (step : Step) : List Pattern → Option Unexpected → Nat → Reader →
    Option (Outcome × Reader)
  | [], none, _, r => some (.mismatch, r)
  | [], some e, _, r => some (.failed e, r.note e)
  | p :: ps, best, reach, r => do
    match ← step p r with
    | (.matched trees, b) => return (.matched trees, r.accept b)
    | (.mismatch, _) => matchAlt step ps best reach r
    | (.failed e, b) =>
      let r' := r.learn b e
      if r.isFinal b then return (.failed e, r'.accept b)
      else if reach ≤ b.index then matchAlt step ps (some e) b.index r'
      else matchAlt step ps best reach r'

/-- Matches a pattern for some rounds. A failure ends the repetition and keeps what came before it,
unless it is final. Behind the last round the repetition ends, or has failed if it is the one in
`cap`. -/
def matchMany (step : Step) (p : Pattern) (cap : Option (Pattern × Nat)) :
    Nat → Reader → Option (Outcome × Reader)
  | 0, r =>
    if cap.isSome then some (.failed { token := r.current, overrun := cap }, r)
    else some (.matched [], r)
  | rounds + 1, r => do
    match ← step p r with
    | (.mismatch, b) => return (.matched [], r.accept b)
    | (.failed e, b) =>
      let r' := (r.note e).learn b e
      if r.isFinal b then return (.failed e, r'.accept b) else return (.matched [], r')
    | (.matched trees, b) =>
      match ← matchMany step p cap rounds (r.accept b) with
      | (.matched more, r') => return (.matched (trees ++ more), r')
      | other => return other

/-- How often a repetition is taken at most. -/
def maxRounds : Nat := 1000000

/-- Matches a pattern; `fuel` bounds how deep patterns nest. A repetition fails behind `limit`
rounds. Where there is no limit, one of what takes at least one token each time ends within the
number of tokens left. -/
def run (limit : Option Nat) : Nat → Step
  | 0, _, _ => none
  | fuel + 1, pattern, r =>
    match pattern with
    | .text t => some (matchToken (fun token => token.cls ≠ .eof && token.text = t) r)
    | .token cls => some (matchToken (fun token => token.cls = cls) r)
    | .seq parts => matchSeq (run limit fuel) true parts r
    | .alt choices => matchAlt (run limit fuel) choices none 0 r
    | .opt inner => matchMany (run limit fuel) inner none 1 r
    | .many inner =>
      matchMany (run limit fuel) inner (limit.map (Prod.mk pattern))
        (limit.getD (r.rest.length + 1)) r
    | .rule name => do
      match ← run limit fuel name.pattern r with
      | (.matched trees, r') => return (.matched [.branch name r.pos trees], r')
      | (.mismatch, r') => return (.mismatch, r')
      | (.failed e, r') => return (.failed e, r'.note e)

/-- More nesting than a list of `n` tokens can make: between two tokens, fewer than 64 patterns are
entered. -/
def fuelFor (n : Nat) : Nat := 64 * (n + 1)

/-- Matches a whole token list against the grammar, with a limit on repetitions or without one. When
some tokens are left over, the failure that reached furthest is reported if it lies ahead of them.
-/
def derive (tokens : List Token) (limit : Option Nat := none) : Except Unexpected ParseTree :=
  match run limit (fuelFor tokens.length) (.rule .program) { index := 0, rest := tokens } with
  | some (.matched [tree], r) =>
    if r.current.cls = .eof then .ok tree
    else
      match r.deepest with
      | some e => if r.index < r.depth then .error e else .error { token := r.current }
      | none => .error { token := r.current }
  | some (.failed e, _) => .error e
  | some (_, r) => .error { token := r.current }
  | none => .error { token := Reader.current { index := 0, rest := tokens } }

end Grammar

end CubeSchema
