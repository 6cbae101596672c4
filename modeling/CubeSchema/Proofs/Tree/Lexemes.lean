import CubeSchema.Proofs.Token.Cutting
import CubeSchema.Proofs.Tree.Formed
import CubeSchema.Proofs.Tree.Shape
import CubeSchema.Tree.Print

/-!
# The tokens of a printed tree

`Node.lexemes` lists the tokens that a tree is meant to be printed as, and `FormedProgram.lexes`
says that the printed text of a tree that has been read is cut into exactly these tokens. The one
way in which two printed tokens can run together is a plain member of a whole number: there the
point is read as part of the number.
-/

namespace CubeSchema

open Lexeme Lexer

namespace Node

/-- The token of a punctuation mark. -/
def mark (s : String) : BareToken := ⟨.punct, lit s⟩

/-- Tokens in parentheses, when asked for. -/
def bracketed (needed : Bool) (ts : List BareToken) : List BareToken :=
  if needed then mark "(" :: ts ++ [mark ")"] else ts

/-- Tokens with a comma between each two parts. -/
def commaTokens : List (List BareToken) → List BareToken
  | [] => []
  | [p] => p
  | p :: rest => p ++ mark "," :: commaTokens rest

/-- The tokens of the members of an object, with a comma behind each. -/
def memberTokens : List (List BareToken) → List BareToken
  | [] => []
  | m :: rest => m ++ mark "," :: memberTokens rest

/-- The tokens of the chunks of a template with those of the expressions between them. -/
def templateTokens : List Quasi → List (List BareToken) → List BareToken
  | [], _ => []
  | q :: quasis, [] => chunkTokens q.raw ++ templateTokens quasis []
  | q :: quasis, x :: xs =>
    chunkTokens q.raw ++ ⟨.exprStart, [36, 123]⟩ :: x ++ ⟨.exprEnd, [125]⟩ ::
      templateTokens quasis xs

/-- The tokens between an object and its member. -/
def accessTokens : Bool → Bool → List BareToken
  | true, true => [mark "?.", mark "["]
  | true, false => [mark "["]
  | false, true => [mark "?."]
  | false, false => [mark "."]

mutual

/-- The tokens that a node is meant to be printed as. -/
@[grind =]
def lexemes : Node → List BareToken
  | absent => []
  | program _ body => (lexemesAll body).flatten
  | varDecl _ keyword name init =>
    ⟨.ident, keyword⟩ :: ⟨.ident, name.declaredName⟩ ::
      (if init.isAbsent then [] else mark "=" :: init.lexemes) ++ [mark ";"]
  | exprStmt x => bracketed (x.kind = .object || x.kind = .function) x.lexemes ++ [mark ";"]
  | identifier _ name => [⟨.ident, name⟩]
  | stringLiteral _ _ raw => [⟨.string, raw⟩]
  | templateLiteral _ quasis exprs =>
    ⟨.backtick, [96]⟩ :: templateTokens quasis (lexemesAll exprs) ++ [⟨.templateEnd, [96]⟩]
  | numberLiteral _ raw => [⟨.number, raw⟩]
  | keywordLiteral _ value => [⟨.ident, value⟩]
  | array _ elements => mark "[" :: commaTokens (lexemesAll elements) ++ [mark "]"]
  | object _ properties =>
    ⟨.lbrace, [123]⟩ :: memberTokens (lexemesAll properties) ++ [⟨.rbrace, [125]⟩]
  | property pos key value computed shorthand =>
    if isShorthand (property pos key value computed shorthand) then key.lexemes
    else
      (if computed then mark "[" :: key.lexemes ++ [mark "]"] else key.lexemes) ++
        mark ":" :: value.lexemes
  | spread _ x => mark "..." :: x.lexemes
  | member obj prop computed optional =>
    obj.lexemes ++ accessTokens computed optional ++ prop.lexemes ++
      (if computed then [mark "]"] else [])
  | call callee args optional =>
    callee.lexemes ++ (if optional then [mark "?."] else []) ++
      mark "(" :: commaTokens (lexemesAll args) ++ [mark ")"]
  | function _ params body async =>
    (if async then [⟨.ident, asyncWord⟩] else []) ++
      mark "(" :: commaTokens (params.map fun p => [⟨.ident, p.declaredName⟩]) ++
      mark ")" :: mark "=>" :: bracketed (body.kind = .object) body.lexemes
  | binary left op right => left.lexemes ++ sign op :: right.lexemes
  | unary _ op x => sign op :: x.lexemes
  | paren _ x => mark "(" :: x.lexemes ++ [mark ")"]

/-- The tokens of each node of a list. -/
@[grind =]
def lexemesAll : List Node → List (List BareToken)
  | [] => []
  | n :: rest => n.lexemes :: lexemesAll rest

end

theorem commaTokens_cons (n : Node) (ns : List Node) : commaTokens (lexemesAll (n :: ns)) =
    n.lexemes ++ ns.flatMap fun m => mark "," :: m.lexemes := by
  induction ns generalizing n with
  | nil => simp [lexemesAll, commaTokens]
  | cons m ns ih =>
    rw [lexemesAll, lexemesAll, commaTokens, ← lexemesAll, ih, List.flatMap_cons, List.cons_append]
    simp

/-- Whether a point behind a node is a mark of its own. -/
def takesPoint : Node → Bool
  | numberLiteral _ raw => !isWhole raw
  | n => n.isSuffixed

/-- Whether the point of a member access would be read as part of the number in front of it. -/
def runsTogether : Node → Bool
  | member (numberLiteral _ raw) _ false false => isWhole raw
  | _ => false

end Node

open Node

/-! ## Pieces -/

/-- The spaces in front of a line's first text do not matter in code. -/
theorem Lexer.Lexes.piece {stack : List Mode} (hstack : InCode stack) {level : Nat} {b : Bool}
    {t : Text} {rest : List Piece} {bs : List BareToken}
    (h : Lexes stack (t ++ Layout.text level false rest) bs) :
    Lexes stack (Layout.text level b (.text t :: rest)) bs := by
  rw [Layout.text, List.append_assoc]
  split
  · exact Lexes.spaces hstack _ h
  · exact h

theorem Layout.text_cons (level : Nat) (t : Text) (rest : List Piece) :
    Layout.text level false (.text t :: rest) = t ++ Layout.text level false rest := by
  simp [Layout.text]

/-- A mark of one byte that no other mark starts with. -/
theorem Lexer.Lexes.bracket {stack : List Mode} (hstack : InCode stack) {b : UInt8} {t : Text}
    {bs : List BareToken} (hb : b ∈ ([40, 41, 44, 58, 59, 91, 93] : Text))
    (h : Lexes stack t bs) : Lexes stack (b :: t) (⟨.punct, [b]⟩ :: bs) := by
  simp only [List.mem_cons, List.not_mem_nil, or_false] at hb
  rcases hb with rfl | rfl | rfl | rfl | rfl | rfl | rfl <;>
    exact Lexes.mark hstack (t := []) (by decide) rfl rfl h

/-- A text in front of which every expression ends. -/
def Closes (t : Text) : Prop := Stopped t ∧ t.head? ≠ some 46

/-- A node is printed as its tokens in front of every text that does not run into it. -/
def Cuts (n : Node) : Prop :=
  ∀ stack : List Mode, InCode stack → ∀ (level : Nat) (b : Bool) (more : List Piece)
    (bs : List BareToken), Lexes stack (Layout.text level false more) bs →
    Stopped (Layout.text level false more) →
    ((Layout.text level false more).head? = some 46 → n.takesPoint = true) →
    Lexes stack (Layout.text level b (n.pieces ++ more)) (n.lexemes ++ bs)

theorem stopped_cons {b : UInt8} (hb : isNumberStop b = true) (t : Text) : Stopped (b :: t) := by
  intro c hc
  obtain rfl := Option.some.inj hc
  exact hb

theorem closes_cons (b : UInt8) {t u : Text} (ht : t = b :: u) (hb : isNumberStop b = true)
    (h46 : b ≠ 46) : Closes t := by
  rw [ht]
  exact ⟨stopped_cons hb u, by simpa using h46⟩

/-- A node is printed as its tokens in front of a text that closes it. -/
theorem Cuts.closed {n : Node} (hn : Cuts n) {stack : List Mode} (hstack : InCode stack)
    {level : Nat} {b : Bool} {more : List Piece} {bs : List BareToken}
    (h : Lexes stack (Layout.text level false more) bs)
    (hmore : Closes (Layout.text level false more)) :
    Lexes stack (Layout.text level b (n.pieces ++ more)) (n.lexemes ++ bs) :=
  hn stack hstack level b more bs h hmore.1 fun hhead => absurd hhead hmore.2

/-- What may follow a node that no point can follow closes it. -/
theorem closes_of_stopped {n : Node} (hn : n.takesPoint = false) {t : Text} (hstop : Stopped t)
    (hpoint : t.head? = some 46 → n.takesPoint = true) : Closes t := by
  refine ⟨hstop, fun hhead => ?_⟩
  rw [hpoint hhead] at hn
  cases hn

/-- A space ends a name. -/
theorem headNot_space (t : Text) : HeadNot isNamePart (32 :: t) := by
  intro c hc
  obtain rfl : (32 : UInt8) = c := Option.some.inj hc
  rfl

/-! ## Lists -/

/-- Nodes between commas. -/
theorem lexes_separated {ns : List Node} (hns : ∀ n ∈ ns, Cuts n) {stack : List Mode}
    (hstack : InCode stack) {level : Nat} {more : List Piece} {bs : List BareToken}
    (h : Lexes stack (Layout.text level false more) bs)
    (hmore : Closes (Layout.text level false more)) :
    Lexes stack (Layout.text level false (separated (word ", ") (piecesAll ns) ++ more))
      (commaTokens (lexemesAll ns) ++ bs) := by
  induction ns with
  | nil => exact h
  | cons n ns ih =>
    have hn := hns n (List.mem_cons_self ..)
    cases ns with
    | nil => exact hn.closed hstack h hmore
    | cons m ns =>
      have hrest := ih fun k hk => hns k (List.mem_cons_of_mem _ hk)
      rw [piecesAll, lexemesAll]
      show Lexes stack (Layout.text level false
        (n.pieces ++ word ", " :: separated (word ", ") (piecesAll (m :: ns)) ++ more))
        (n.lexemes ++ mark "," :: commaTokens (lexemesAll (m :: ns)) ++ bs)
      rw [List.append_assoc, List.append_assoc, List.cons_append]
      refine hn.closed hstack (.piece hstack ?_) (closes_cons 44 rfl (by decide) (by decide))
      exact .bracket hstack (by decide) (.blank hstack rfl hrest)

/-- The members of an object, each on a line of its own. -/
theorem lexes_memberLines {ns : List Node} (hns : ∀ n ∈ ns, Cuts n) {stack : List Mode}
    (hstack : InCode stack) {level : Nat} {more : List Piece} {bs : List BareToken}
    (h : Lexes stack (Layout.text level true more) bs) :
    Lexes stack (Layout.text level true (memberLines (piecesAll ns) ++ more))
      (memberTokens (lexemesAll ns) ++ bs) := by
  induction ns with
  | nil => exact h
  | cons n ns ih =>
    have hn := hns n (List.mem_cons_self ..)
    have hrest := ih fun k hk => hns k (List.mem_cons_of_mem _ hk)
    rw [piecesAll, lexemesAll, memberLines, memberTokens, List.append_assoc, List.append_assoc,
      List.cons_append, List.cons_append]
    refine hn.closed hstack (.piece hstack ?_) (closes_cons 44 rfl (by decide) (by decide))
    exact .bracket hstack (by decide) (.blank hstack rfl hrest)

/-- The chunks of a template with the expressions between them, up to the closing backtick. -/
theorem lexes_interleaved {quasis : List Quasi} {exprs : List Node}
    (hlength : quasis.length = exprs.length + 1) (hquasis : ∀ q ∈ quasis, q.IsRead)
    (hexprs : ∀ x ∈ exprs, Cuts x) {stack : List Mode} {level : Nat} {more : List Piece}
    {bs : List BareToken} (h : Lexes stack (Layout.text level false more) bs) :
    Lexes (.template :: stack)
      (Layout.text level false (interleaved quasis (piecesAll exprs) ++ word "`" :: more))
      (templateTokens quasis (lexemesAll exprs) ++ ⟨.templateEnd, [96]⟩ :: bs) := by
  induction quasis generalizing exprs with
  | nil => simp at hlength
  | cons q quasis ih =>
    have hraw := (hquasis q (List.mem_cons_self ..)).1
    -- There is one chunk more than there are expressions, so the last chunk stands alone.
    cases exprs with
    | nil =>
      obtain rfl : quasis = [] := List.eq_nil_of_length_eq_zero (by simpa using hlength)
      simp only [piecesAll, lexemesAll, interleaved, templateTokens, List.append_nil,
        List.cons_append, List.nil_append, Layout.text_cons]
      exact .chunk hraw (.inl ⟨_, rfl⟩) (.closeTemplate h)
    | cons x exprs =>
      have hx := hexprs x (List.mem_cons_self ..)
      have hrest := ih (by simpa using hlength) (fun r hr => hquasis r (List.mem_cons_of_mem _ hr))
        (fun y hy => hexprs y (List.mem_cons_of_mem _ hy))
      simp only [piecesAll, lexemesAll, interleaved, templateTokens, List.append_assoc,
        List.cons_append, Layout.text_cons]
      refine .chunk hraw (.inr ⟨_, rfl⟩) (.openInterpolation ?_)
      refine hx.closed (inCode_interpolation _) (.piece (inCode_interpolation _) ?_)
        (closes_cons 125 rfl (by decide) (by decide))
      exact .closeInterpolation hrest

/-! ## Nodes -/

/-- A node that stands for one name. -/
theorem cuts_word {n : Node} {t : Text} (ht : IsName t) (hpieces : n.pieces = [.text t])
    (hlexemes : n.lexemes = [⟨.ident, t⟩]) : Cuts n := by
  intro stack hstack level b more bs h hstop _
  rw [hpieces, hlexemes]
  exact .piece hstack (.name hstack ht (hstop.headNot (by decide)) h)

theorem isName_of_mem_keywordValues {t : Text} (h : t ∈ keywordValues.map lit) : IsName t := by
  have hall : ∀ t ∈ keywordValues.map lit, t ≠ [] ∧ ident t = t.length := by decide
  exact hall t h

theorem isName_of_mem_declarationWords {t : Text} (h : t ∈ declarationWords.map lit) :
    IsName t := by
  have hall : ∀ t ∈ declarationWords.map lit, t ≠ [] ∧ ident t = t.length := by decide
  exact hall t h

theorem isName_of_mem_operatorWords {t : Text} (h : t ∈ operatorWords) : IsName t := by
  have hall : ∀ t ∈ operatorWords, t ≠ [] ∧ ident t = t.length := by decide
  exact hall t h

/-- A unary operator is a mark or a word. -/
theorem mem_unaryOperators {op : Text} (h : op ∈ unaryOperators.map lit) :
    op ∈ ["!", "-", "+", "~"].map lit ∨ op ∈ operatorWords := by
  have hsplit : unaryOperators.map lit = ["!", "-", "+", "~"].map lit ++ operatorWords := rfl
  rw [hsplit] at h
  exact List.mem_append.1 h

theorem isWordOperator_of_mark {op : Text} (h : op ∈ ["!", "-", "+", "~"].map lit) :
    isWordOperator op = false := by
  have hall : ∀ op ∈ ["!", "-", "+", "~"].map lit, isWordOperator op = false := by decide
  exact hall op h

theorem isWordOperator_of_word {op : Text} (h : op ∈ operatorWords) :
    isWordOperator op = true := by
  have hall : ∀ op ∈ operatorWords, isWordOperator op = true := by decide
  exact hall op h

/-- A node in parentheses, when they are needed. -/
theorem Cuts.parenthesized {n : Node} (hn : Cuts n) (needed : Bool) {stack : List Mode}
    (hstack : InCode stack) {level : Nat} {b : Bool} {more : List Piece} {bs : List BareToken}
    (h : Lexes stack (Layout.text level false more) bs)
    (hmore : Closes (Layout.text level false more)) :
    Lexes stack (Layout.text level b (Node.parenthesized needed n.pieces ++ more))
      (bracketed needed n.lexemes ++ bs) := by
  cases needed with
  | false => exact hn.closed hstack h hmore
  | true =>
    simp only [Node.parenthesized, bracketed, if_true, List.append_assoc, List.cons_append,
      List.nil_append]
    refine .piece hstack (.bracket hstack (by decide) ?_)
    refine hn.closed hstack (.piece hstack ?_) (closes_cons 41 rfl (by decide) (by decide))
    exact .bracket hstack (by decide) h

theorem Formed.isAbsent_eq_false {n : Node} (h : Formed n) : n.isAbsent = false := by
  cases h <;> rfl

theorem isLoose_eq_false {n : Node} (h : n.isSuffixed = true) : n.isLoose = false := by
  cases n <;> simp [isSuffixed, kind] at h <;> rfl

theorem parenthesized_of_isSuffixed {n : Node} (h : n.isSuffixed = true) (ps : List Piece) :
    Node.parenthesized n.isLoose ps = ps := by
  rw [isLoose_eq_false h]
  rfl

/-- What an expression is written with in front is no equals sign, and it is an opening brace for the
expressions that an object stands in front of. -/
theorem Formed.pieces_head {n : Node} (h : Formed n)
    (hn : (n.isChain || n.kind = .function) = true) :
    ∃ c u rest, n.pieces = .text (c :: u) :: rest ∧ c ≠ 61 ∧
      (c = 123 ↔ n.startsWithBrace = true) := by
  -- A name starts with a letter or the like: with neither an equals sign nor a brace.
  have hword : ∀ {t : Text}, IsName t → ∃ c u, t = c :: u ∧ c ≠ 61 ∧ c ≠ 123 := by
    intro t ht
    obtain ⟨c, u, rfl, hc⟩ := ht.head
    exact ⟨c, u, rfl, by rintro rfl; exact absurd hc (by decide),
      by rintro rfl; exact absurd hc (by decide)⟩
  induction h with
  | identifier hname _ =>
    obtain ⟨c, u, rfl, hc, hbrace⟩ := hword hname
    exact ⟨c, u, [], rfl, hc, by simp [hbrace, startsWithBrace]⟩
  | stringLiteral hraw _ =>
    obtain ⟨c, u, rfl, hc⟩ := hraw.head
    exact ⟨c, u, [], by simp [pieces], by rintro rfl; simp at hc,
      iff_of_false (by rintro rfl; simp at hc) (by simp [startsWithBrace])⟩
  | templateLiteral => exact ⟨96, [], _, rfl, by decide, by simp [startsWithBrace]⟩
  | numberLiteral hraw =>
    obtain ⟨c, u, rfl, hc⟩ := hraw.head
    refine ⟨c, u, [], rfl, ?_, iff_of_false ?_ (by simp [startsWithBrace])⟩ <;>
      · rintro rfl
        rcases hc with hc | hc <;> simp [Text.isDigit, ascii] at hc
  | keywordLiteral hvalue =>
    obtain ⟨c, u, rfl, hc, hbrace⟩ := hword (isName_of_mem_keywordValues hvalue)
    exact ⟨c, u, [], rfl, hc, by simp [hbrace, startsWithBrace]⟩
  | array => exact ⟨91, [], _, rfl, by decide, by simp [startsWithBrace]⟩
  | @object pos properties =>
    cases properties with
    | nil => exact ⟨123, [125], [], rfl, by decide, by simp [startsWithBrace]⟩
    | cons p ps => exact ⟨123, [], _, rfl, by decide, by simp [startsWithBrace]⟩
  -- A suffix stands behind its object, and a binary operator behind its left side, so that the
  -- whole starts as the part in front does.
  | member hobj hsuffixed _ ih =>
    obtain ⟨c, u, rest, heq, hc⟩ := ih (by simp [isChain, isOperand, hsuffixed])
    exact ⟨c, u, _, by rw [pieces, parenthesized_of_isSuffixed hsuffixed, heq]; rfl, hc⟩
  | index hobj hsuffixed _ _ _ ih _ =>
    obtain ⟨c, u, rest, heq, hc⟩ := ih (by simp [isChain, isOperand, hsuffixed])
    exact ⟨c, u, _, by rw [pieces, parenthesized_of_isSuffixed hsuffixed, heq]; rfl, hc⟩
  | call hcallee hsuffixed _ _ ih _ =>
    obtain ⟨c, u, rest, heq, hc⟩ := ih (by simp [isChain, isOperand, hsuffixed])
    exact ⟨c, u, _, by rw [pieces, parenthesized_of_isSuffixed hsuffixed, heq]; rfl, hc⟩
  | @function pos params body async =>
    cases async with
    | false => exact ⟨40, [], _, rfl, by decide, by simp [startsWithBrace]⟩
    | true => exact ⟨97, _, _, rfl, by decide, by simp [startsWithBrace]⟩
  | binary _ _ _ hlchain _ _ _ _ ih _ =>
    obtain ⟨c, u, rest, heq, hc⟩ := ih (by simp [hlchain])
    exact ⟨c, u, _, by rw [pieces, heq]; rfl, hc⟩
  | @unary pos op x hop =>
    have hall : ∀ op ∈ unaryOperators.map lit, ∃ c u, op = c :: u ∧ c ≠ 61 ∧ c ≠ 123 := by
      simp only [unaryOperators, List.map_cons, List.map_nil, List.forall_mem_cons]
      exact ⟨⟨_, _, rfl, by decide⟩, ⟨_, _, rfl, by decide⟩, ⟨_, _, rfl, by decide⟩,
        ⟨_, _, rfl, by decide⟩, ⟨_, _, rfl, by decide⟩, ⟨_, _, rfl, by decide⟩,
        ⟨_, _, rfl, by decide⟩, by simp⟩
    obtain ⟨c, u, rfl, hc, hbrace⟩ := hall op hop
    exact ⟨c, u, _, rfl, hc, by simp [hbrace, startsWithBrace]⟩
  | paren => exact ⟨40, [], _, rfl, by decide, by simp [startsWithBrace]⟩
  -- What is left stands only inside of an object or a list.
  | _ => simp [isChain, isOperand, isSuffixed, kind] at hn

/-- A text in quotes. -/
theorem cuts_string {raw : Text} (hraw : IsString raw) (pos : Position) (value : Text) :
    Cuts (.stringLiteral pos value raw) := by
  intro stack hstack level b more bs h _ _
  have hpieces : (stringLiteral pos value raw).pieces = [.text raw] := by
    simp only [pieces, List.isEmpty_iff, if_neg hraw.1]
  rw [hpieces]
  exact .piece hstack (.string hstack hraw h)

/-- A number. -/
theorem cuts_number {raw : Text} (hraw : IsNumber raw) (pos : Position) :
    Cuts (.numberLiteral pos raw) := by
  intro stack hstack level b more bs h hstop hpoint
  exact .piece hstack (.number hstack hraw hstop (by simpa [takesPoint] using hpoint) h)

/-- A key that is not computed. -/
theorem PlainKey.cuts {n : Node} (h : PlainKey n) : Cuts n := by
  cases h with
  | name hname => exact cuts_word hname rfl rfl
  | string hraw _ => exact cuts_string hraw _ _
  | number hraw => exact cuts_number hraw _

/-- The mark between an object and its member, and the member. -/
theorem lexes_access {obj prop : Node} {computed optional : Bool}
    (hobj : Cuts obj) (hsuffixed : obj.isSuffixed = true)
    (hpoint : computed = false → optional = false → obj.takesPoint = true)
    {stack : List Mode} (hstack : InCode stack) {level : Nat} {b : Bool} {more : List Piece}
    {bs : List BareToken}
    (h : Lexes stack (Layout.text level false (prop.pieces ++ more)) bs)
    (hname : computed = false → optional = false →
      ∃ c u, Layout.text level false (prop.pieces ++ more) = c :: u ∧ isNameStart c = true) :
    Lexes stack (Layout.text level b (Node.parenthesized obj.isLoose obj.pieces ++
      accessMark computed optional :: (prop.pieces ++ more)))
      (obj.lexemes ++ (accessTokens computed optional ++ bs)) := by
  rw [parenthesized_of_isSuffixed hsuffixed]
  have hclosed : ∀ {t : Text} {ts : List BareToken},
      Closes (Layout.text level false (.text t :: (prop.pieces ++ more))) →
      Lexes stack (t ++ Layout.text level false (prop.pieces ++ more)) ts →
      Lexes stack (Layout.text level b (obj.pieces ++ .text t :: (prop.pieces ++ more)))
        (obj.lexemes ++ ts) :=
    fun hcloses hts => hobj.closed hstack (.piece hstack hts) hcloses
  match computed, optional with
  | true, true =>
    refine hclosed (closes_cons 63 rfl (by decide) (by decide)) ?_
    exact .mark hstack (t := [46]) (by decide) rfl rfl (.bracket hstack (by decide) h)
  | true, false =>
    refine hclosed (closes_cons 91 rfl (by decide) (by decide)) ?_
    exact .bracket hstack (by decide) h
  | false, true =>
    refine hclosed (closes_cons 63 rfl (by decide) (by decide)) ?_
    exact .mark hstack (t := [46]) (by decide) rfl rfl h
  | false, false =>
    -- Only a bare point needs to know what it stands between: behind a number it would belong to
    -- it.
    obtain ⟨c, u, heq, hc⟩ := hname rfl rfl
    rw [heq] at h
    refine hobj stack hstack level b _ _ (.piece hstack ?_) ?_ fun _ => hpoint rfl rfl
    · rw [heq]
      exact .point hstack hc h
    · rw [accessMark, word, Layout.text_cons]
      exact stopped_cons (by decide) _

/-- The parameters of a function are printed as the nodes they are. -/
theorem pieces_params {params : List Node} (h : ∀ p ∈ params, IsParam p) :
    (params.map fun p => [Piece.text p.declaredName]) = piecesAll params := by
  induction params with
  | nil => rfl
  | cons p ps ih =>
    obtain ⟨pos, name, rfl, -⟩ := h p (List.mem_cons_self ..)
    rw [List.map_cons, ih fun q hq => h q (List.mem_cons_of_mem _ hq)]
    rfl

theorem lexemes_params {params : List Node} (h : ∀ p ∈ params, IsParam p) :
    (params.map fun p => [(⟨.ident, p.declaredName⟩ : BareToken)]) = lexemesAll params := by
  induction params with
  | nil => rfl
  | cons p ps ih =>
    obtain ⟨pos, name, rfl, -⟩ := h p (List.mem_cons_self ..)
    rw [List.map_cons, ih fun q hq => h q (List.mem_cons_of_mem _ hq)]
    rfl

/-- A template with its expressions. -/
theorem cuts_template {quasis : List Quasi} {exprs : List Node}
    (hlength : quasis.length = exprs.length + 1) (hquasis : ∀ q ∈ quasis, q.IsRead)
    (hexprs : ∀ x ∈ exprs, Cuts x) (pos : Position) : Cuts (.templateLiteral pos quasis exprs) := by
  intro stack hstack level b more bs h _ _
  simp only [pieces, lexemes, List.append_assoc, List.cons_append, List.nil_append]
  refine .piece hstack (.openTemplate hstack ?_)
  exact lexes_interleaved hlength hquasis hexprs h

/-- An array that does not end with a hole. -/
theorem cuts_array {elements : List Node} (helements : ∀ x ∈ elements, Cuts x)
    (hpresent : ∀ x ∈ elements, x.isAbsent = false) (pos : Position) :
    Cuts (.array pos elements) := by
  intro stack hstack level b more bs h _ _
  have hlast : (elements.getLast?.map isAbsent).getD false = false := by
    cases hl : elements.getLast? with
    | none => rfl
    | some x => exact hpresent x (List.mem_of_getLast? hl)
  simp only [pieces, lexemes, hlast, Bool.false_eq_true, if_false, List.append_assoc,
    List.cons_append, List.nil_append]
  refine .piece hstack (.bracket hstack (by decide) ?_)
  refine lexes_separated helements hstack (.piece hstack ?_)
    (closes_cons 93 rfl (by decide) (by decide))
  exact .bracket hstack (by decide) h

/-- An object, on one line when it is empty. -/
theorem cuts_object {properties : List Node} (hproperties : ∀ x ∈ properties, Cuts x)
    (pos : Position) : Cuts (.object pos properties) := by
  intro stack hstack level b more bs h _ _
  cases properties with
  | nil => exact .piece hstack (.openBrace hstack (.closeBrace h))
  | cons p ps =>
    have hpieces : (Node.object pos (p :: ps)).pieces = word "\x7b" :: .newline :: .indent ::
        memberLines (piecesAll (p :: ps)) ++ [.dedent, word "\x7d"] := rfl
    rw [hpieces, lexemes]
    simp only [List.append_assoc, List.cons_append, List.nil_append]
    refine .piece hstack (.openBrace hstack (.blank (inCode_block _) rfl ?_))
    refine lexes_memberLines hproperties (inCode_block _) ?_
    exact .piece (inCode_block _) (.closeBrace h)

theorem isShorthand_eq_false {pos : Position} {key value : Node} {computed : Bool} :
    isShorthand (.property pos key value computed false) = false := by
  cases key <;> cases value <;> cases computed <;> rfl

/-- A member of an object with its key written out. -/
theorem cuts_property {key value : Node} (hkey : Cuts key) (hvalue : Cuts value)
    (pos : Position) : Cuts (.property pos key value false false) := by
  intro stack hstack level b more bs h hstop hpoint
  simp only [pieces, lexemes, isShorthand_eq_false, Bool.false_eq_true, if_false, List.append_assoc,
    List.cons_append]
  refine hkey.closed hstack (.piece hstack ?_) (closes_cons 58 rfl (by decide) (by decide))
  refine .bracket hstack (by decide) (.blank hstack rfl ?_)
  exact hvalue.closed hstack h (closes_of_stopped rfl hstop hpoint)

/-- A member of an object with its key in brackets. -/
theorem cuts_computed {key value : Node} (hkey : Cuts key) (hvalue : Cuts value)
    (pos : Position) : Cuts (.property pos key value true false) := by
  intro stack hstack level b more bs h hstop hpoint
  simp only [pieces, lexemes, isShorthand_eq_false, Bool.false_eq_true, if_false, if_true,
    List.append_assoc, List.cons_append, List.nil_append]
  refine .piece hstack (.bracket hstack (by decide) ?_)
  refine hkey.closed hstack (.piece hstack ?_) (closes_cons 93 rfl (by decide) (by decide))
  refine .bracket hstack (by decide) (.piece hstack ?_)
  refine .bracket hstack (by decide) (.blank hstack rfl ?_)
  exact hvalue.closed hstack h (closes_of_stopped rfl hstop hpoint)

/-- A member behind a point. -/
theorem cuts_member {obj : Node} (hobj : Cuts obj) (hsuffixed : obj.isSuffixed = true)
    {name : Text} (hname : IsName name) {ppos : Position} {optional : Bool}
    (happart : (member obj (.identifier ppos name) false optional).runsTogether = false) :
    Cuts (.member obj (.identifier ppos name) false optional) := by
  intro stack hstack level b more bs h hstop _
  have hprop : Lexes stack (Layout.text level false ((Node.identifier ppos name).pieces ++ more))
      (⟨.ident, name⟩ :: bs) := .piece hstack (.name hstack hname (hstop.headNot (by decide)) h)
  simp only [pieces, lexemes, Bool.false_eq_true, if_false, List.append_assoc,
    List.cons_append, List.nil_append]
  refine lexes_access hobj hsuffixed ?_ hstack hprop ?_
  · -- Only a whole number swallows the point, which is the case ruled out.
    rintro - rfl
    cases obj <;> first | exact hsuffixed | simpa [runsTogether, takesPoint] using happart
  · intro _ _
    obtain ⟨c, u, rfl, hc⟩ := hname.head
    exact ⟨c, _, Layout.text_cons .., hc⟩

/-- A member in brackets. -/
theorem cuts_index {obj prop : Node} (hobj : Cuts obj) (hsuffixed : obj.isSuffixed = true)
    (hprop : Cuts prop) (optional : Bool) : Cuts (.member obj prop true optional) := by
  intro stack hstack level b more bs h _ _
  simp only [pieces, lexemes, if_true, List.append_assoc, List.cons_append, List.nil_append]
  refine lexes_access hobj hsuffixed (by simp) hstack ?_ (by simp)
  refine hprop.closed hstack (.piece hstack ?_) (closes_cons 93 rfl (by decide) (by decide))
  exact .bracket hstack (by decide) h

/-- A call with its arguments. -/
theorem cuts_call {callee : Node} {args : List Node} (hcallee : Cuts callee)
    (hsuffixed : callee.isSuffixed = true) (hargs : ∀ x ∈ args, Cuts x) (optional : Bool) :
    Cuts (.call callee args optional) := by
  intro stack hstack level b more bs h _ _
  have hlist : Lexes stack (Layout.text level false (word "(" ::
      (separated (word ", ") (piecesAll args) ++ word ")" :: more)))
      (mark "(" :: (commaTokens (lexemesAll args) ++ mark ")" :: bs)) := by
    refine .piece hstack (.bracket hstack (by decide) ?_)
    refine lexes_separated hargs hstack (.piece hstack ?_)
      (closes_cons 41 rfl (by decide) (by decide))
    exact .bracket hstack (by decide) h
  simp only [pieces, lexemes, parenthesized_of_isSuffixed hsuffixed, List.append_assoc,
    List.cons_append, List.nil_append]
  cases optional with
  | false => exact hcallee.closed hstack hlist (closes_cons 40 rfl (by decide) (by decide))
  | true =>
    refine hcallee.closed hstack (.piece hstack ?_) (closes_cons 63 rfl (by decide) (by decide))
    exact .mark hstack (t := [46]) (by decide) rfl rfl hlist

/-- A function with its parameters in parentheses, and its body in parentheses when it is an
object. -/
theorem cuts_function {params : List Node} {body : Node} (hparams : ∀ p ∈ params, IsParam p)
    (hbody : Cuts body) (pos : Position) (async : Bool) :
    Cuts (.function pos params body async) := by
  intro stack hstack level b more bs h hstop hpoint
  have hclose : Closes (Layout.text level false more) := closes_of_stopped rfl hstop hpoint
  have hbody := hbody.parenthesized (body.kind = .object) hstack (b := false) h hclose
  have hnames : ∀ p ∈ params, Cuts p := by
    intro p hp
    obtain ⟨ppos, name, rfl, hname⟩ := hparams p hp
    exact cuts_word hname rfl rfl
  have hlist : ∀ c, Lexes stack (Layout.text level c (word "(" ::
      (separated (word ", ") (piecesAll params) ++ word ") => " ::
        (Node.parenthesized (body.kind = .object) body.pieces ++ more))))
      (mark "(" :: (commaTokens (lexemesAll params) ++ mark ")" :: mark "=>" ::
        (bracketed (body.kind = .object) body.lexemes ++ bs))) := by
    intro c
    refine .piece hstack (.bracket hstack (by decide) ?_)
    refine lexes_separated hnames hstack (.piece hstack ?_)
      (closes_cons 41 rfl (by decide) (by decide))
    refine .bracket hstack (by decide) (.blank hstack rfl ?_)
    exact .mark hstack (t := [62]) (by decide) rfl rfl (.blank hstack rfl hbody)
  simp only [pieces, lexemes, pieces_params hparams, lexemes_params hparams, List.append_assoc,
    List.cons_append]
  cases async with
  | false => exact hlist b
  | true =>
    -- The word in front is one piece with the space behind it.
    have hasync : IsName asyncWord := ⟨by decide, by decide⟩
    refine .piece hstack (t := asyncWord ++ [32]) ?_
    rw [List.append_assoc]
    exact .name hstack hasync (headNot_space _) (.blank hstack rfl (hlist false))

/-- Two operands with their operator between spaces. -/
theorem cuts_binary {left right : Node} {op : Text} (hop : op ∈ binaryOperators.map lit)
    (hleft : Cuts left) (hright : Cuts right) : Cuts (.binary left op right) := by
  intro stack hstack level b more bs h hstop hpoint
  simp only [pieces, lexemes, List.append_assoc, List.cons_append]
  refine hleft.closed hstack (.piece hstack ?_) (closes_cons 32 rfl (by decide) (by decide))
  rw [← List.append_assoc]
  refine .binary hstack hop ?_
  exact hright.closed hstack h (closes_of_stopped rfl hstop hpoint)

/-- An operand behind its operator, with a space between them when the operator is a word. -/
theorem cuts_unary {op : Text} {x : Node} (hop : op ∈ unaryOperators.map lit) (hx : Formed x)
    (hoperand : x.isOperand = true) (hcuts : Cuts x) (pos : Position) : Cuts (.unary pos op x) := by
  intro stack hstack level b more bs h hstop hpoint
  have hrest : Lexes stack (Layout.text level false (x.pieces ++ more)) (x.lexemes ++ bs) :=
    hcuts.closed hstack h (closes_of_stopped rfl hstop hpoint)
  simp only [pieces, lexemes, List.append_assoc, List.cons_append]
  rcases mem_unaryOperators hop with hop | hop
  · -- A mark grows only by an equals sign, and no operand starts with one.
    rw [isWordOperator_of_mark hop]
    refine .piece hstack (.unaryMark hstack hop ?_ hrest)
    obtain ⟨c, u, rest, hpieces, hc, -⟩ := hx.pieces_head (by simp [isChain, hoperand])
    rw [if_neg Bool.false_ne_true, List.nil_append, hpieces, List.cons_append, Layout.text_cons]
    simpa using hc
  · have hname := isName_of_mem_operatorWords hop
    have hsign : sign op = ⟨.ident, op⟩ := by
      obtain ⟨c, u, rfl, hc⟩ := hname.head
      simp [sign, hc]
    rw [isWordOperator_of_word hop, hsign]
    refine .piece hstack (.name hstack hname (headNot_space _) (.piece hstack ?_))
    exact .blank hstack rfl hrest

/-- An expression in parentheses. -/
theorem cuts_paren {x : Node} (hx : Cuts x) (pos : Position) : Cuts (.paren pos x) := by
  intro stack hstack level b more bs h _ _
  simp only [pieces, lexemes, List.append_assoc, List.cons_append, List.nil_append]
  refine .piece hstack (.bracket hstack (by decide) ?_)
  refine hx.closed hstack (.piece hstack ?_) (closes_cons 41 rfl (by decide) (by decide))
  exact .bracket hstack (by decide) h

/-- An expression, element or member that has been read is printed as its tokens, unless the point
of a member access runs together with a number. -/
theorem Formed.cuts {n : Node} (h : Formed n)
    (hall : n.all (fun m => !m.runsTogether) = true) : Cuts n := by
  induction h with
  | identifier hname _ => exact cuts_word hname rfl rfl
  | stringLiteral hraw _ => exact cuts_string hraw _ _
  | numberLiteral hraw => exact cuts_number hraw _
  | keywordLiteral hvalue => exact cuts_word (isName_of_mem_keywordValues hvalue) rfl rfl
  | templateLiteral hlength hquasis _ _ ih =>
    simp only [all, Bool.and_eq_true, allOf_eq_true] at hall
    exact cuts_template hlength hquasis (fun x hx => ih x hx (hall.2 x hx)) _
  | array helements _ ih =>
    simp only [all, Bool.and_eq_true, allOf_eq_true] at hall
    exact cuts_array (fun x hx => ih x hx (hall.2 x hx))
      (fun x hx => (helements x hx).isAbsent_eq_false) _
  | object _ _ ih =>
    simp only [all, Bool.and_eq_true, allOf_eq_true] at hall
    exact cuts_object (fun x hx => ih x hx (hall.2 x hx)) _
  | @shorthand pos kpos vpos name hname =>
    -- Such a member is printed as its key alone.
    refine cuts_word hname ?_ ?_
    · simp [pieces, isShorthand]
    · simp [lexemes, isShorthand]
  | property hkey _ _ ih =>
    simp only [all, Bool.and_eq_true] at hall
    exact cuts_property hkey.cuts (ih hall.2) _
  | computed _ _ _ _ ihk ihv =>
    simp only [all, Bool.and_eq_true] at hall
    exact cuts_computed (ihk hall.1.2) (ihv hall.2) _
  | spread _ _ ih =>
    simp only [all, Bool.and_eq_true] at hall
    intro stack hstack level b more bs h hstop hpoint
    refine .piece hstack (.mark hstack (t := [46, 46]) (by decide) rfl rfl ?_)
    exact (ih hall.2).closed hstack h (closes_of_stopped rfl hstop hpoint)
  | member _ hsuffixed hname ih =>
    simp only [all, Bool.and_eq_true] at hall
    exact cuts_member (ih hall.1.2) hsuffixed hname (by simpa using hall.1.1)
  | index _ hsuffixed _ _ _ iho ihp =>
    simp only [all, Bool.and_eq_true] at hall
    exact cuts_index (iho hall.1.2) hsuffixed (ihp hall.2) _
  | call _ hsuffixed _ _ ihc iha =>
    simp only [all, Bool.and_eq_true, allOf_eq_true] at hall
    exact cuts_call (ihc hall.1.2) hsuffixed (fun x hx => iha x hx (hall.2 x hx)) _
  | function hparams _ _ ih =>
    simp only [all, Bool.and_eq_true] at hall
    exact cuts_function hparams (ih hall.2) _ _
  | binary hop _ _ _ _ _ _ _ ihl ihr =>
    simp only [all, Bool.and_eq_true] at hall
    exact cuts_binary hop (ihl hall.1.2) (ihr hall.2)
  | unary hop hx hoperand ih =>
    simp only [all, Bool.and_eq_true] at hall
    exact cuts_unary hop hx hoperand (ih hall.2) _
  | paren _ _ ih =>
    simp only [all, Bool.and_eq_true] at hall
    exact cuts_paren (ih hall.2) _

/-! ## Statements and programs -/

/-- A statement is printed as its tokens in front of every text. -/
theorem FormedStatement.lexes {n : Node} (h : FormedStatement n)
    (hall : n.all (fun m => !m.runsTogether) = true) {stack : List Mode} (hstack : InCode stack)
    {level : Nat} {b : Bool} {more : List Piece} {bs : List BareToken}
    (hmore : Lexes stack (Layout.text level false more) bs) :
    Lexes stack (Layout.text level b (n.pieces ++ more)) (n.lexemes ++ bs) := by
  have hend : Lexes stack (Layout.text level false (word ";" :: more)) (mark ";" :: bs) :=
    .piece hstack (.bracket hstack (by decide) hmore)
  have hcloses : Closes (Layout.text level false (word ";" :: more)) :=
    closes_cons 59 rfl (by decide) (by decide)
  -- The keyword and the name are one piece, with a space between them.
  have hdecl : ∀ {keyword name : Text} {rest : List Piece} {ts : List BareToken},
      keyword ∈ declarationWords.map lit → IsName name →
      HeadNot isNamePart (Layout.text level false rest) →
      Lexes stack (Layout.text level false rest) ts →
      Lexes stack (Layout.text level b (.text (keyword ++ lit " " ++ name) :: rest))
        (⟨.ident, keyword⟩ :: ⟨.ident, name⟩ :: ts) := by
    intro keyword name rest ts hkeyword hname hrest hts
    refine .piece hstack ?_
    rw [List.append_assoc, List.append_assoc]
    refine .name hstack (isName_of_mem_declarationWords hkeyword) (headNot_space _) ?_
    exact .blank hstack rfl (.name hstack hname hrest hts)
  cases h with
  | bareDecl hkeyword hname =>
    exact hdecl hkeyword hname (hcloses.1.headNot (by decide)) hend
  | @varDecl pos npos keyword name init hkeyword hname hinit _ =>
    simp only [all, Bool.and_eq_true] at hall
    simp only [pieces, lexemes, hinit.isAbsent_eq_false, Bool.false_eq_true, if_false,
      List.append_assoc init.pieces, List.append_assoc init.lexemes, List.cons_append,
      List.nil_append]
    refine hdecl hkeyword hname (headNot_space _) (.piece hstack (.blank hstack rfl ?_))
    refine .mark hstack (t := []) (by decide) rfl rfl (.blank hstack rfl ?_)
    exact (hinit.cuts hall.2).closed hstack hend hcloses
  | exprStmt hx =>
    simp only [all, Bool.and_eq_true] at hall
    simp only [pieces, lexemes, List.append_assoc, List.cons_append, List.nil_append]
    exact (hx.cuts hall.2).parenthesized _ hstack hend hcloses

/-- The statements of a program, with blank lines between them. -/
theorem lexes_statementLines {body : List Node} (hbody : ∀ s ∈ body, FormedStatement s)
    (hall : ∀ s ∈ body, s.all (fun m => !m.runsTogether) = true) (b : Bool) :
    Lexes [] (Layout.text 0 b (statementLines (piecesAll body))) (lexemesAll body).flatten := by
  induction body generalizing b with
  | nil => exact .done
  | cons s body ih =>
    have hs := hbody s (List.mem_cons_self ..)
    have hsall := hall s (List.mem_cons_self ..)
    have hrest := ih (fun r hr => hbody r (List.mem_cons_of_mem _ hr))
      (fun r hr => hall r (List.mem_cons_of_mem _ hr)) true
    cases body with
    | nil => exact hs.lexes hsall inCode_nil (.blank inCode_nil rfl .done)
    | cons r body =>
      exact hs.lexes hsall inCode_nil (.blank inCode_nil rfl (.blank inCode_nil rfl hrest))

/-- What is printed for the end of a list of pieces depends on the front only by the level and by
whether a line has been started. -/
theorem Layout.text_append (ps : List Piece) (level : Nat) (b : Bool) :
    ∃ level' b', ∀ qs, Layout.text level b (ps ++ qs) =
      Layout.text level b ps ++ Layout.text level' b' qs := by
  induction ps generalizing level b with
  | nil => exact ⟨level, b, fun _ => rfl⟩
  | cons p ps ih =>
    cases p with
    | text t =>
      obtain ⟨level', b', h⟩ := ih level false
      refine ⟨level', b', fun qs => ?_⟩
      rw [List.cons_append, Layout.text, Layout.text, h]
      exact (List.append_assoc ..).symm
    | newline =>
      obtain ⟨level', b', h⟩ := ih level true
      refine ⟨level', b', fun qs => ?_⟩
      rw [List.cons_append, Layout.text, Layout.text, h, List.cons_append]
    | indent =>
      obtain ⟨level', b', h⟩ := ih (level + 1) b
      exact ⟨level', b', h⟩
    | dedent =>
      obtain ⟨level', b', h⟩ := ih (level - 1) b
      exact ⟨level', b', h⟩

/-- The lines of at least one statement end with a semicolon and a line feed. -/
theorem statementLines_end {body : List Node} (hbody : ∀ s ∈ body, FormedStatement s)
    (hne : body ≠ []) : ∃ ps, statementLines (piecesAll body) = ps ++ [word ";", .newline] := by
  have hstmt : ∀ {s : Node}, FormedStatement s → ∃ ps, s.pieces = ps ++ [word ";"] := by
    intro s hs
    cases hs <;> exact ⟨_, rfl⟩
  induction body with
  | nil => exact absurd rfl hne
  | cons s body ih =>
    cases body with
    | nil =>
      obtain ⟨ps, hps⟩ := hstmt (hbody s (List.mem_cons_self ..))
      exact ⟨ps, by simp [piecesAll, statementLines, hps]⟩
    | cons r body =>
      obtain ⟨ps, hps⟩ := ih (fun q hq => hbody q (List.mem_cons_of_mem _ hq)) (by simp)
      refine ⟨s.pieces ++ .newline :: .newline :: ps, ?_⟩
      rw [piecesAll] at hps ⊢
      rw [piecesAll, statementLines, hps]
      · simp
      · simp

/-- What is printed of a program that has been read is laid out with nothing cut off at its end. -/
theorem print_program {pos : Position} {body : List Node} (hbody : ∀ s ∈ body, FormedStatement s)
    (hne : body ≠ []) : (Node.program pos body).print =
      Layout.text 0 true (statementLines (piecesAll body)) := by
  obtain ⟨ps, hps⟩ := statementLines_end hbody hne
  obtain ⟨level, b, happend⟩ := Layout.text_append ps 0 true
  have hend : ∃ u, Layout.text 0 true (statementLines (piecesAll body)) = u ++ [59, 10] := by
    rw [hps, happend]
    cases b with
    | false => exact ⟨_, rfl⟩
    | true =>
      refine ⟨Layout.text 0 true ps ++ Text.spaces (level * Layout.indentSize), ?_⟩
      rw [List.append_assoc]
      exact congrArg (Layout.text 0 true ps ++ ·) (List.append_assoc _ [59] [10])
  obtain ⟨u, hu⟩ := hend
  rw [Node.print, layout, pieces, hu]
  simp [Text.trimRightBy, Text.newline]

/-- The printed text of a program that has been read is cut into its tokens, unless the point of a
member access runs together with a number. -/
theorem FormedProgram.lexes {n : Node} (h : FormedProgram n)
    (hall : n.all (fun m => !m.runsTogether) = true) : Lexes [] n.print n.lexemes := by
  obtain ⟨hbody⟩ := h
  rename_i pos body
  simp only [all, Bool.and_eq_true, allOf_eq_true] at hall
  by_cases hne : body = []
  · subst hne
    exact .blank inCode_nil rfl .done
  · rw [print_program hbody hne]
    exact lexes_statementLines hbody hall.2 true

end CubeSchema
