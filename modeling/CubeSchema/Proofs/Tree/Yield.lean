import CubeSchema.Proofs.Tree.Written

/-!
# The tokens of a tree

`Node.yield` lists the tokens of a tree from left to right. A source may write the same tree in more
than one way: semicolons, a comma behind the last item of a list and parentheses around the one
parameter of a function are optional, and a chunk of a template may come in several tokens.
`essential` takes these differences away. Main statement: the tokens of a source and the yield of
its tree are essentially the same, so the tree determines the tokens of its source.
-/

namespace CubeSchema

open Lexeme Lexer Grammar Node ParseTree

namespace Node

/-- The token of a chunk of a template, unless the chunk is empty. -/
def chunkYield (raw : Text) : List BareToken :=
  if raw.isEmpty then [] else [⟨.templateChars, raw⟩]

/-- The tokens of the chunks of a template with those of the expressions between them. -/
def partsYield : List Quasi → List (List BareToken) → List BareToken
  | [], _ => []
  | q :: quasis, [] => chunkYield q.raw ++ partsYield quasis []
  | q :: quasis, x :: xs =>
    chunkYield q.raw ++ ⟨.exprStart, [36, 123]⟩ :: x ++ ⟨.exprEnd, [125]⟩ :: partsYield quasis xs

mutual

/-- The tokens of a node from left to right. -/
def yield : Node → List BareToken
  | absent => []
  | program _ body => (yieldAll body).flatten
  | varDecl _ keyword name init =>
    ⟨.ident, keyword⟩ :: name.yield ++ (if init.isAbsent then [] else mark "=" :: init.yield)
  | exprStmt x => x.yield
  | identifier _ name => [⟨.ident, name⟩]
  | stringLiteral _ _ raw => [⟨.string, raw⟩]
  | templateLiteral _ quasis exprs =>
    ⟨.backtick, [96]⟩ :: partsYield quasis (yieldAll exprs) ++ [⟨.templateEnd, [96]⟩]
  | numberLiteral _ raw => [⟨.number, raw⟩]
  | keywordLiteral _ value => [⟨.ident, value⟩]
  | array _ elements => mark "[" :: commaTokens (yieldAll elements) ++ [mark "]"]
  | object _ properties =>
    ⟨.lbrace, [123]⟩ :: commaTokens (yieldAll properties) ++ [⟨.rbrace, [125]⟩]
  | property _ key value computed shorthand =>
    if shorthand then key.yield
    else
      (if computed then mark "[" :: key.yield ++ [mark "]"] else key.yield) ++
        mark ":" :: value.yield
  | spread _ x => mark "..." :: x.yield
  | member obj prop computed optional =>
    obj.yield ++ accessTokens computed optional ++ prop.yield ++
      (if computed then [mark "]"] else [])
  | call callee args optional =>
    callee.yield ++ (if optional then [mark "?."] else []) ++
      mark "(" :: commaTokens (yieldAll args) ++ [mark ")"]
  | function _ params body async =>
    (if async then [⟨.ident, asyncWord⟩] else []) ++
      mark "(" :: commaTokens (yieldAll params) ++ mark ")" :: mark "=>" :: body.yield
  | binary left op right => left.yield ++ sign op :: right.yield
  | unary _ op x => sign op :: x.yield
  | paren _ x => mark "(" :: x.yield ++ [mark ")"]

/-- The tokens of each node of a list. -/
def yieldAll : List Node → List (List BareToken)
  | [] => []
  | n :: rest => n.yield :: yieldAll rest

end

theorem yieldAll_eq_map (ns : List Node) : yieldAll ns = ns.map yield := by
  induction ns with
  | nil => rfl
  | cons n ns ih => rw [yieldAll, ih, List.map_cons]

mutual

/-- The places of the nodes are no part of the yield. -/
theorem yield_unplaced (n : Node) : n.unplaced.yield = n.yield := by
  cases n <;>
    simp only [unplaced, yield, yield_unplaced, yieldAll_unplaced, isAbsent_unplaced]

theorem yieldAll_unplaced (ns : List Node) : yieldAll (unplacedAll ns) = yieldAll ns := by
  cases ns <;> simp only [unplacedAll, yieldAll, yield_unplaced, yieldAll_unplaced]

end

end Node

/-! ## Essential tokens -/

/-- The brackets that close a list. -/
def closingBrackets : List BareToken := [mark ")", mark "]", ⟨.rbrace, [125]⟩]

/-- Joins a piece of a chunk with the piece behind it. -/
def joinChunk (raw : Text) : List BareToken → List BareToken
  | ⟨.templateChars, more⟩ :: rest => ⟨.templateChars, raw ++ more⟩ :: rest
  | bs => ⟨.templateChars, raw⟩ :: bs

/-- Puts an opening parenthesis in front, unless it opens the list of a function's one parameter:
then the closing one is left out as well. -/
def openParen : List BareToken → List BareToken
  | ⟨.ident, name⟩ :: close :: arrow :: rest =>
    if close = mark ")" ∧ arrow = mark "=>" then ⟨.ident, name⟩ :: arrow :: rest
    else mark "(" :: ⟨.ident, name⟩ :: close :: arrow :: rest
  | bs => mark "(" :: bs

/-- Puts a token in front of essential ones. -/
def addEssential (b : BareToken) (bs : List BareToken) : List BareToken :=
  if b = mark ";" then bs
  else if b = mark "," ∧ bs.head?.any closingBrackets.contains then bs
  else if b.cls = .templateChars ∨ b.cls = .dollar then joinChunk b.text bs
  else if b = mark "(" then openParen bs
  else b :: bs

/-- The tokens without the optional ones, and each chunk of a template in one token. -/
def essential (bs : List BareToken) : List BareToken := bs.foldr addEssential []

/-- Whether a token is essential wherever it stands. -/
def BareToken.isFirm (b : BareToken) : Bool :=
  b.cls ≠ .templateChars && b.cls ≠ .dollar && !([mark ";", mark ",", mark "("].contains b)

theorem addEssential_of_isFirm {b : BareToken} (h : b.isFirm = true) (bs : List BareToken) :
    addEssential b bs = b :: bs := by
  simp only [BareToken.isFirm, Bool.and_eq_true, decide_eq_true_eq, Bool.not_eq_true',
    List.contains_eq_mem, List.mem_cons, List.not_mem_nil, or_false, decide_eq_false_iff_not,
    not_or] at h
  obtain ⟨⟨hchars, hdollar⟩, hsemicolon, hcomma, hparen⟩ := h
  simp [addEssential, hchars, hdollar, hsemicolon, hcomma, hparen]

theorem joinChunk_joinChunk (raw raw' : Text) (bs : List BareToken) :
    joinChunk raw (joinChunk raw' bs) = joinChunk (raw ++ raw') bs := by
  unfold joinChunk
  split
  · rename_i more rest heq
    split at heq
    · obtain ⟨hhead, rfl⟩ := List.cons.inj heq
      obtain rfl := (BareToken.mk.inj hhead).2
      rw [List.append_assoc]
    · obtain ⟨hhead, rfl⟩ := List.cons.inj heq
      obtain rfl := (BareToken.mk.inj hhead).2
      rfl
  · rename_i hne
    split at hne
    · exact absurd rfl (hne _ _)
    · exact absurd rfl (hne _ _)

/-- Tokens that are essentially the same wherever they stand. -/
def Same (as bs : List BareToken) : Prop :=
  ∀ rest, as.foldr addEssential rest = bs.foldr addEssential rest

namespace Same

variable {as bs cs ds : List BareToken}

theorem refl (as : List BareToken) : Same as as := fun _ => rfl

theorem trans (h : Same as bs) (h' : Same bs cs) : Same as cs := fun rest =>
  (h rest).trans (h' rest)

theorem append (h : Same as bs) (h' : Same cs ds) : Same (as ++ cs) (bs ++ ds) := by
  intro rest
  rw [List.foldr_append, List.foldr_append, h' rest, h]

theorem cons (b : BareToken) (h : Same as bs) : Same (b :: as) (b :: bs) := (refl [b]).append h

theorem essential_eq (h : Same as bs) : essential as = essential bs := h []

end Same

/-- A semicolon is optional. -/
theorem same_semicolon : Same [mark ";"] [] := by
  intro rest
  show addEssential (mark ";") rest = rest
  exact if_pos rfl

/-- A comma in front of a closing bracket is optional. -/
theorem same_comma {b : BareToken} (hb : b ∈ closingBrackets) : Same [mark ",", b] [b] := by
  intro rest
  have hfirm : b.isFirm = true := by
    simp only [closingBrackets, List.mem_cons, List.not_mem_nil, or_false] at hb
    rcases hb with rfl | rfl | rfl <;> decide
  have hhead : (b :: rest).head?.any closingBrackets.contains = true := by simpa using hb
  show addEssential (mark ",") (addEssential b rest) = addEssential b rest
  rw [addEssential_of_isFirm hfirm, addEssential, if_neg (by decide), if_pos ⟨rfl, hhead⟩]

/-- Parentheses around the one parameter of a function are optional. -/
theorem same_param (name : Text) : Same [⟨.ident, name⟩, mark "=>"]
    [mark "(", ⟨.ident, name⟩, mark ")", mark "=>"] := by
  intro rest
  have hname : BareToken.isFirm ⟨.ident, name⟩ = true := by simp [BareToken.isFirm, mark]
  show addEssential ⟨.ident, name⟩ (addEssential (mark "=>") rest) =
    addEssential (mark "(") (addEssential ⟨.ident, name⟩ (addEssential (mark ")")
      (addEssential (mark "=>") rest)))
  simp only [addEssential_of_isFirm hname, addEssential_of_isFirm (b := mark "=>") (by decide),
    addEssential_of_isFirm (b := mark ")") (by decide)]
  rw [addEssential, if_neg (by decide), if_neg fun h => absurd h.1 (by decide),
    if_neg (by decide), if_pos rfl, openParen, if_pos ⟨rfl, rfl⟩]

/-- A token of a chunk joins the chunk that has been read so far. -/
theorem same_chunk {t : Token} (hcls : t.cls = .templateChars ∨ t.cls = .dollar)
    (hne : t.text ≠ []) (raw : Text) :
    Same (chunkYield raw ++ [t.bare]) (chunkYield (raw ++ t.text)) := by
  have hchunk : ∀ (cls : TokenClass) (u : Text) (bs : List BareToken),
      cls = .templateChars ∨ cls = .dollar → addEssential ⟨cls, u⟩ bs = joinChunk u bs := by
    intro cls u bs h
    have hmark : ∀ s, (⟨cls, u⟩ : BareToken) ≠ mark s := by
      intro s heq
      have hpunct : cls = .punct := congrArg BareToken.cls heq
      rcases h with h | h <;> rw [h] at hpunct <;> exact nomatch hpunct
    rw [addEssential, if_neg (hmark _), if_neg fun h => hmark _ h.1, if_pos h]
  intro rest
  have htoken : addEssential t.bare rest = joinChunk t.text rest := hchunk t.cls t.text rest hcls
  have hwhole : chunkYield (raw ++ t.text) = [⟨.templateChars, raw ++ t.text⟩] := by
    simp [chunkYield, hne]
  rw [List.foldr_append, hwhole]
  show List.foldr addEssential (addEssential t.bare rest) (chunkYield raw) =
    addEssential ⟨.templateChars, raw ++ t.text⟩ rest
  rw [htoken, hchunk _ _ _ (.inl rfl)]
  cases raw with
  | nil => rfl
  | cons b raw =>
    show addEssential ⟨.templateChars, b :: raw⟩ (joinChunk t.text rest) = _
    rw [hchunk _ _ _ (.inl rfl), joinChunk_joinChunk]

/-! ## The yield of what is written -/

/-- The tokens are essentially those of the phrase. A list is told from its last comma only in front
of its closing bracket, and a single parameter only in front of the arrow. -/
def Phrase.Yields : Phrase → List BareToken → Prop
  | .node n, bs => Same bs n.yield
  | .items ns, bs => Same bs (commaTokens (yieldAll ns))
  | .list ns, bs => ∀ b ∈ closingBrackets, Same (bs ++ [b]) (commaTokens (yieldAll ns) ++ [b])
  | .params ns, bs =>
    Same (bs ++ [mark "=>"]) (mark "(" :: commaTokens (yieldAll ns) ++ [mark ")", mark "=>"])
  | .chunks raw quasis exprs, bs =>
    Same (chunkYield raw ++ bs) (partsYield quasis (yieldAll exprs))
  | .body ns, bs => Same bs (yieldAll ns).flatten

theorem Written.isAbsent_eq_false {n : Node} {ts : List Token} (h : Written (.node n) ts) :
    n.isAbsent = false := by
  cases h <;> rfl

theorem commaTokens_cons_of_ne_nil {p : List BareToken} {ps : List (List BareToken)}
    (h : ps ≠ []) : commaTokens (p :: ps) = p ++ mark "," :: commaTokens ps := by
  cases ps with
  | nil => exact absurd rfl h
  | cons q ps => rfl

/-- A list in its brackets. -/
theorem same_list {first last : Token} {b c : BareToken} {us : List Token} {ns : List Node}
    (hfirst : first.bare = b) (hlast : last.bare = c) (hc : c ∈ closingBrackets)
    (h : (Phrase.list ns).Yields (us.map Token.bare)) :
    Same ((first :: us ++ [last]).map Token.bare) (b :: commaTokens (yieldAll ns) ++ [c]) := by
  simp only [List.cons_append, List.map_cons, List.map_append, List.map_nil, hfirst, hlast]
  exact (h c hc).cons b

theorem same_flagged {b : BareToken} {flag : Bool} {ms : List Token} (h : Flagged b flag ms) :
    Same (ms.map Token.bare) (if flag then [b] else []) := by
  rw [h]
  exact Same.refl _

/-- What is written is essentially the yield of its tree. -/
theorem Written.yields {ph : Phrase} {ts : List Token} (h : Written ph ts) :
    ph.Yields (ts.map Token.bare) := by
  have hname : ∀ {t : Token} {cls : TokenClass}, t.cls = cls →
      Same ([t].map Token.bare) [⟨cls, t.text⟩] := by
    rintro t cls rfl
    exact Same.refl _
  induction h with
  | name hcls => exact hname hcls
  | keyword hcls _ => exact hname hcls
  | number hcls => exact hname hcls
  | string hcls => exact hname hcls
  | template hfirst _ hlast ih =>
    simp only [List.cons_append, List.map_cons, List.map_append, List.map_nil, hfirst, hlast]
    exact (Same.append ih (.refl _)).cons _
  | array hfirst _ hlast ih => exact same_list hfirst hlast (by decide) ih
  | object hfirst _ hlast ih => exact same_list hfirst hlast (by decide) ih
  | shorthand hcls => exact hname hcls
  | property _ hcolon _ ihk ihv =>
    rw [List.map_cons, List.map_cons, hcolon]
    exact Same.append ihk (.cons _ ihv)
  | computed hfirst _ hlast hcolon _ ihk ihv =>
    simp only [Phrase.Yields, yield, List.cons_append, List.map_cons, List.map_append, hfirst,
      hlast, hcolon, if_true, Bool.false_eq_true, if_false, List.append_assoc, List.nil_append]
    exact .cons _ (.append ihk (.cons _ (.cons _ ihv)))
  | spread hdots _ ih =>
    rw [List.map_cons, hdots]
    exact .cons _ ih
  | @member point t us obj optional _ hpoint hcls ih =>
    have haccess : accessTokens false optional = [point.bare] := by
      rw [hpoint]
      cases optional <;> rfl
    simp only [Phrase.Yields, yield, haccess, Bool.false_eq_true, if_false, List.append_assoc,
      List.append_nil, List.map_append, List.map_cons, List.map_nil, List.cons_append,
      List.nil_append]
    exact .append ih (.cons _ (hname hcls))
  | @index first last us ms vs obj prop optional _ hmark hfirst _ hlast iho ihp =>
    have haccess : accessTokens true optional =
        (if optional then [mark "?."] else []) ++ [mark "["] := by
      cases optional <;> rfl
    simp only [Phrase.Yields, yield, haccess, if_true, List.append_assoc, List.map_append,
      List.map_cons, List.map_nil, List.cons_append, List.nil_append, hfirst, hlast]
    exact .append iho (.append (same_flagged hmark) (.cons _ (.append ihp (.refl _))))
  | call _ hmark hfirst _ hlast ihc iha =>
    have hlist := same_list hfirst hlast (by decide) iha
    rw [List.append_assoc, List.append_assoc, List.map_append, List.map_append]
    simp only [Phrase.Yields, yield, List.append_assoc]
    exact .append ihc (.append (same_flagged hmark) hlist)
  | @function arrow ms us vs params body async hasync _ harrow _ ihp ihb =>
    -- The parameters are compared together with the arrow behind them.
    have hhead := (same_flagged hasync).append (Same.append ihp ihb)
    simpa only [Phrase.Yields, yield, List.append_assoc, List.map_append, List.map_cons,
      List.cons_append, List.nil_append, harrow] using hhead
  | @param t hcls =>
    have hbare : t.bare = ⟨.ident, t.text⟩ := by rw [← hcls]; rfl
    show Same [t.bare, mark "=>"] [mark "(", ⟨.ident, t.text⟩, mark ")", mark "=>"]
    rw [hbare]
    exact same_param t.text
  | params hfirst _ hlast ih =>
    have hlist := (same_list hfirst hlast (by decide) ih).append (.refl [mark "=>"])
    simpa only [Phrase.Yields, List.cons_append, List.append_assoc, List.nil_append] using hlist
  | binary _ hsign _ _ ihl ihr =>
    rw [List.map_append, List.map_cons, hsign]
    exact .append ihl (.cons _ ihr)
  | unary _ hsign _ ih =>
    rw [List.map_cons, hsign]
    exact .cons _ ih
  | paren hfirst _ hlast ih =>
    simp only [List.cons_append, List.map_cons, List.map_append, List.map_nil, hfirst, hlast]
    exact (Same.append ih (.refl _)).cons _
  | item _ ih => exact ih
  | @items comma us vs n ns _ hcomma hns ihn ihs =>
    have hne : yieldAll ns ≠ [] := by
      rw [yieldAll_eq_map]
      cases hns <;> simp
    rw [List.map_append, List.map_cons, hcomma, Phrase.Yields, yieldAll,
      commaTokens_cons_of_ne_nil hne]
    exact .append ihn (.cons _ ihs)
  | noList => exact fun b _ => .refl _
  | list _ ih => exact fun b _ => Same.append ih (.refl _)
  | listComma _ hcomma ih =>
    intro b hb
    rw [List.map_append, List.map_cons, List.map_nil, hcomma, List.append_assoc]
    exact .append ih (same_comma hb)
  | @lastChunk q =>
    show Same (chunkYield q.raw ++ []) (chunkYield q.raw ++ partsYield [] [])
    exact .refl _
  | @chars raw t us quasis exprs hcls hne _ ih =>
    have hjoin := (same_chunk hcls hne raw).append (.refl (us.map Token.bare))
    rw [List.append_assoc] at hjoin
    exact hjoin.trans ih
  | @hole q first last us vs x quasis exprs hfirst _ hlast _ ihx ihm =>
    have hrest : Same (vs.map Token.bare) (partsYield quasis (yieldAll exprs)) := ihm
    simp only [Phrase.Yields, yieldAll, partsYield, List.cons_append, List.append_assoc,
      List.map_cons, List.map_append, hfirst, hlast]
    exact .append (.refl _) (.cons _ (.append ihx (.cons _ hrest)))
  | bareDecl hword _ hcls => exact .append (hname hword) (hname hcls)
  | varDecl hword _ hcls hequals hinit ih =>
    simp only [Phrase.Yields, yield, hinit.isAbsent_eq_false, Bool.false_eq_true, if_false,
      List.map_cons, hequals, List.cons_append, List.nil_append]
    exact .append (hname hword) (.append (hname hcls) (.cons _ ih))
  | exprStmt _ ih => exact ih
  | noBody => exact .refl _
  | semicolon ht _ ih =>
    rw [List.map_cons, ht]
    exact Same.append same_semicolon ih
  | statement _ _ ihn ihm =>
    rw [List.map_append]
    exact Same.append ihn ihm

/-- The tokens of a source are essentially the yield of its tree. -/
theorem essential_of_parse {file src : Text} {t : Node} (h : parse file src = .ok t) :
    ∃ ts last, tokens file src = .ok (ts ++ [last]) ∧ last.bare = endToken ∧
      essential (ts.map Token.bare) = essential t.yield := by
  obtain ⟨ts, last, body, hts, hlast, rfl, hbody⟩ := written_of_parse h
  exact ⟨ts, last, hts, hlast, hbody.yields.essential_eq⟩

/-- No token is lost: the tokens of a source are essentially the yield of its tree, and two sources
with the same tree, places aside, have essentially the same tokens. -/
theorem parse_loses_no_token (file src : Text) (t : Node) (h : parse file src = .ok t) :
    (∃ ts last, tokens file src = .ok (ts ++ [last]) ∧ last.bare = endToken ∧
      essential (ts.map Token.bare) = essential t.yield) ∧
    ∀ file' src' t', parse file' src' = .ok t' → t'.unplaced = t.unplaced →
      ∃ ts last ts' last', tokens file src = .ok (ts ++ [last]) ∧ last.bare = endToken ∧
        tokens file' src' = .ok (ts' ++ [last']) ∧ last'.bare = endToken ∧
        essential (ts'.map Token.bare) = essential (ts.map Token.bare) := by
  obtain ⟨ts, last, hts, hlast, hessential⟩ := essential_of_parse h
  refine ⟨⟨ts, last, hts, hlast, hessential⟩, fun file' src' t' h' hsame => ?_⟩
  obtain ⟨ts', last', hts', hlast', hessential'⟩ := essential_of_parse h'
  refine ⟨ts, last, ts', last', hts, hlast, hts', hlast', ?_⟩
  calc essential (ts'.map Token.bare) = essential t'.yield := hessential'
    _ = essential t'.unplaced.yield := by rw [yield_unplaced]
    _ = essential t.unplaced.yield := by rw [hsame]
    _ = essential t.yield := by rw [yield_unplaced]
    _ = essential (ts.map Token.bare) := hessential.symm

/-- A function with every optional token, and a template in two chunk tokens. -/
def looselyWritten : Text := lit "(b,) => [`$$`,];"

/-- The same function without the optional tokens. -/
def tightlyWritten : Text := lit "b=>[`$$`]"

/-- Whether a tree is that of the function. -/
def isListedTemplate : Node → Bool
  | .program _ [.exprStmt (.function _ [.identifier _ name]
      (.array _ [.templateLiteral _ [q] []]) false)] =>
    name = lit "b" && q = ⟨lit "$$", lit "$$"⟩
  | _ => false

theorem unplaced_eq_of_isListedTemplate {m n : Node} (hm : isListedTemplate m = true)
    (hn : isListedTemplate n = true) : m.unplaced = n.unplaced := by
  unfold isListedTemplate at hm hn
  split at hm
  · split at hn
    · simp only [Bool.and_eq_true, decide_eq_true_eq] at hm hn
      simp only [unplaced, unplacedAll, hm, hn]
    · cases hn
  · cases hm

/-- Both sources are read as one tree, so neither loses a token that the other has. -/
theorem looselyWritten_loses_no_token : ∃ t t', parse [] looselyWritten = .ok t ∧
    parse [] tightlyWritten = .ok t' ∧ t'.unplaced = t.unplaced ∧
    ∃ ts last ts' last', tokens [] looselyWritten = .ok (ts ++ [last]) ∧ last.bare = endToken ∧
      tokens [] tightlyWritten = .ok (ts' ++ [last']) ∧ last'.bare = endToken ∧
      essential (ts'.map Token.bare) = essential (ts.map Token.bare) := by
  have hloose : (parse [] looselyWritten).toOption.any isListedTemplate = true := by
    decide +kernel
  have htight : (parse [] tightlyWritten).toOption.any isListedTemplate = true := by
    decide +kernel
  cases h : parse [] looselyWritten with
  | error e => simp [h, Except.toOption] at hloose
  | ok t =>
    cases h' : parse [] tightlyWritten with
    | error e => simp [h', Except.toOption] at htight
    | ok t' =>
      rw [h] at hloose
      rw [h'] at htight
      have heq : t'.unplaced = t.unplaced := unplaced_eq_of_isListedTemplate htight hloose
      exact ⟨t, t', rfl, rfl, heq,
        (parse_loses_no_token [] looselyWritten t h).2 [] tightlyWritten t' h' heq⟩

end CubeSchema
