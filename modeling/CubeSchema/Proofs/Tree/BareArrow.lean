import CubeSchema.Proofs.Tree.Sequence

/-!
# Functions of one bare parameter

A name, an arrow and an expression are read as a function of that name, whatever the name means
elsewhere in the grammar: a word for declarations, an operator or a value may be a parameter. Each
of these is tried on the name in vain and leaves it alone, since the arrow behind it fits none of
them.

The marker word `async` is the one exception. It is taken as the marker before a parameter is looked
for, and what has been taken is not given back: the function breaks off at its arrow, and the word
is left as a statement of its own with the arrow behind it, which starts no statement.
-/

namespace CubeSchema

open Lexeme Lexer Grammar Node ParseTree

/-! ## The one statement of a source -/

/-- A statement that is read from all tokens of a source, where no token is a semicolon. -/
theorem Statements.single {ts : List Token} {n : Node} {last : Token}
    (h : Statements none ts [n] [last]) (hts : Staged [] ts) (hsemi : ∀ t ∈ ts, t.bare ≠ mark ";") :
    Gives .statement ts [last] n := by
  have hmark : ∀ {t : Token} {us : List Token}, Staged [] (t :: us) →
      hasText (lit ";") t = true → t.bare = mark ";" := fun hus ht =>
    hus.bare_mark inCode_nil ht (by decide)
  cases h with
  | semicolon ht _ => exact absurd (hmark hts ht) (hsemi _ (List.mem_cons_self ..))
  | cons first more =>
    cases more with
    | nil => exact first
    | semicolon ht _ =>
      obtain ⟨us, rfl, hus⟩ := spans_statement inCode_nil hts first
      exact absurd (hmark (hts.behind hus) ht) (hsemi _ (by simp))

/-! ## A name in front of an arrow -/

section

variable {name arrow : Token} {us rest : List Token} (hname : name.cls = .ident)
  (hparen : name.text ≠ lit "(") (harrow : arrow.bare = mark "=>")

include hname harrow

/-- A name in front of an arrow is not declared, not even by a word for declarations. -/
theorem varDecl_declines_arrow : Declines (.rule .varDecl) (name :: arrow :: us) := by
  by_cases hword : name.text ∈ declarationWords.map lit
  · have htake : Reads (.oneOf declarationWords) (name :: arrow :: us)
        (.takes [.leaf name] (arrow :: us)) :=
      reads_oneOf_takes.2 ⟨name, rfl, by rw [hname]; decide, hword, rfl⟩
    have hnone : Reads (.rule .ident) (arrow :: us) .lacks :=
      Reads.rule (a := .lacks) (reads_token_lacks (by rw [cls_of_bare harrow]; decide))
    have hbreak : Reads (.rule .varDecl) (name :: arrow :: us) (.breaks (arrow :: us)) :=
      Reads.rule (a := .breaks (arrow :: us))
        (Reads.seq_breaks_later htake (.inr ⟨hnone.seq_lacks, rfl⟩))
    refine .inr ⟨_, hbreak, isFar_eq_false ?_⟩
    simp only [List.length_cons, Reader.lookahead]
    omega
  · exact varDecl_declines_other rfl hword _

include hparen

/-- A name in front of an arrow and an expression is the parameter of a function, if it is not the
marker word. -/
theorem Gives.bareArrow (hasync : name.text ≠ lit "async") {body : Node}
    (h : Gives .expression us rest body) : Gives .expression (name :: arrow :: us) rest
      (.function name.pos [.identifier name.pos name.text] body false) := by
  obtain ⟨kids, hread, hbuild⟩ := h
  have hmarker : Reads (.opt (.text (lit "async"))) (name :: arrow :: us)
      (.takes [] (name :: arrow :: us)) :=
    (reads_text_lacks (hasText_eq_false hasync)).opt_lacks
  have hlist : Declines nameList (name :: arrow :: us) :=
    .inl (reads_text_lacks (hasText_eq_false hparen)).seq_lacks
  have hident : Reads (.rule .ident) (name :: arrow :: us)
      (.takes [.branch .ident name.pos [.leaf name]] (arrow :: us)) :=
    reads_rule_takes.2 ⟨_, reads_token_cons hname _, rfl⟩
  have hhead : Reads arrowHead (name :: arrow :: us)
      (.takes [.branch .ident name.pos [.leaf name]] (arrow :: us)) := hlist.alt hident.alt
  have hbody : Reads (.rule .expression) us (.takes [.branch .expression (startOf us) kids] rest) :=
    reads_rule_takes.2 ⟨kids, hread, rfl⟩
  have hfunction : Reads Rule.arrowFunction.pattern (name :: arrow :: us)
      (.takes ([] ++ ([ParseTree.branch .ident name.pos [.leaf name]] ++
        ([ParseTree.leaf arrow] ++ [ParseTree.branch .expression (startOf us) kids]))) rest) :=
    hmarker.seq (hhead.seq ((reads_text_cons (hasText_mark harrow) us).seq hbody.seq_last))
  refine ⟨_, (reads_rule_takes.2 ⟨_, hfunction, rfl⟩).alt, ?_⟩
  have hparts : buildAll ([] ++ ([ParseTree.branch .ident name.pos [.leaf name]] ++
      ([ParseTree.leaf arrow] ++ [ParseTree.branch .expression (startOf us) kids]))) =
        ⟨[.identifier name.pos name.text, body], none⟩ := by
    simp only [List.nil_append, List.singleton_append, buildAll, build, hbuild]
    rfl
  rw [build, build, hparts]
  rfl

end

/-! ## The marker word in front of an arrow -/

/-- The marker word in front of an arrow is a statement of its own. -/
theorem passes_asyncWord {word arrow : Token} (hword : word.bare = ⟨.ident, asyncWord⟩)
    (harrow : arrow.bare = mark "=>") (us : List Token) :
    Passes (.rule .statement) (word :: arrow :: us) (arrow :: us) := by
  have htext : word.text = asyncWord := text_of_bare hword
  have hhead : NoHead (arrow :: us) := by
    refine ⟨arrow, us, rfl, by rw [text_of_bare harrow]; decide, fun hident => ?_⟩
    rw [cls_of_bare harrow] at hident
    cases hident
  -- The word is an operand, and neither a call nor an operator follows.
  have hprimary : Passes (.rule .primary) (word :: arrow :: us) (arrow :: us) := by
    have hname : IsName asyncWord := by decide
    obtain ⟨pos, kids, hread, -⟩ := isPrimary_identifier hname (by decide) .unknown
      [word] (arrow :: us) (by simp [Spells, lexemes, hword])
    exact ⟨_, hread⟩
  have hsuffix : Passes (.many (.rule .suffix)) (arrow :: us) (arrow :: us) :=
    .none rfl (.inl (suffix_lacks (by rw [text_of_bare harrow]; decide) us))
  have hlink : Passes (.many (.rule .binaryOp)) (arrow :: us) (arrow :: us) :=
    .none rfl (.inl (binaryOp_lacks (by rw [text_of_bare harrow]; decide) us))
  have hsuffixed : Passes (.rule .suffixed) (word :: arrow :: us) (arrow :: us) :=
    .rule (hprimary.seq (hsuffix.seq (.nil _)))
  have hunary : Passes (.rule .unary) (word :: arrow :: us) (arrow :: us) :=
    .rule (.behind (.inl (reads_oneOf_lacks (by rw [htext]; decide)).seq_lacks) (hsuffixed.alt []))
  have hchain : Passes (.rule .binaryChain) (word :: arrow :: us) (arrow :: us) :=
    .rule (hunary.seq (hlink.seq (.nil _)))
  have hexpression : Passes (.rule .expression) (word :: arrow :: us) (arrow :: us) :=
    .rule (.behind (arrow_declines_async hword hhead) (hchain.alt []))
  exact .rule (.behind (varDecl_declines_other hword (by decide) _) (hexpression.alt []))

/-- No statements are read up to the end from a marker word with an arrow behind it. -/
theorem not_statements_asyncWord {word arrow last : Token} {us : List Token} {ns : List Node}
    (hword : word.bare = ⟨.ident, asyncWord⟩) (harrow : arrow.bare = mark "=>")
    (hlast : last.bare = endToken) : ¬ Statements none (word :: arrow :: us) ns [last] := by
  have hnext : arrow.bare ≠ endToken := by rw [harrow]; decide
  have hsemi : ∀ {t : Token} {b : BareToken}, t.bare = b → b.text ≠ lit ";" →
      ¬ hasText (lit ";") t = true := fun ht hb htext =>
    hb (by rw [← text_of_bare ht]; exact (hasText_eq_true.1 htext).2)
  have hstart : StartsNothing arrow :=
    ⟨by rw [cls_of_bare harrow]; decide, by rw [text_of_bare harrow]; decide⟩
  intro h
  cases h with
  | semicolon ht _ => exact hsemi hword (by decide) ht
  | cons first more =>
    obtain ⟨trees, hread⟩ := passes_asyncWord hword harrow us
    obtain ⟨trees', hread'⟩ := first.reads
    obtain ⟨-, rfl⟩ := Answer.takes.inj (hread'.unique hread)
    cases more with
    | nil => exact hnext hlast
    | semicolon ht _ => exact hsemi harrow (by decide) ht
    | cons second _ =>
      obtain ⟨trees, hsecond⟩ := second.reads
      exact (statement_declines hstart (by rw [text_of_bare harrow]; decide) us).not_takes hsecond

/-! ## Sources -/

/-- A blank is no part of a name. -/
theorem isNamePart_of_blank {b : UInt8} (hb : isBlank b = true) : isNamePart b = false := by
  have hb : b = 9 ∨ b = 10 ∨ b = 12 ∨ b = 13 ∨ b = 32 := by simpa [isBlank, or_assoc] using hb
  rcases hb with rfl | rfl | rfl | rfl | rfl <;> rfl

/-- The tokens of a name, an arrow and another source. -/
theorem lexes_bareArrow {x u v e : Text} {bs : List BareToken} (hx : IsName x)
    (hu : ∀ b ∈ u, isBlank b = true) (hv : ∀ b ∈ v, isBlank b = true) (he : Lexes [] e bs) :
    Lexes [] (x ++ u ++ lit "=>" ++ v ++ e) (⟨.ident, x⟩ :: mark "=>" :: bs) := by
  have harrow : Lexes [] (lit "=>" ++ (v ++ e)) (mark "=>" :: bs) :=
    .mark inCode_nil (by decide) rfl rfl (.blanks inCode_nil hv he)
  have hrest : HeadNot isNamePart (u ++ (lit "=>" ++ (v ++ e))) := by
    intro b hb
    cases u with
    | nil =>
      rw [← Option.some.inj hb]
      rfl
    | cons c u =>
      rw [← Option.some.inj hb]
      exact isNamePart_of_blank (hu c (List.mem_cons_self ..))
  have hname := Lexes.name inCode_nil hx hrest (.blanks inCode_nil hu harrow)
  simpa only [List.append_assoc] using hname

/-- A name, an arrow and an expression are read as a function of this one parameter with this
expression as its body, if the name is not the marker word; with the marker word for a name they are
rejected. -/
theorem parse_bareArrow {file x u v e : Text} {es : List Token} {p : Position} {n : Node}
    (hx : IsName x) (hu : ∀ b ∈ u, isBlank b = true) (hv : ∀ b ∈ v, isBlank b = true)
    (hes : tokens file e = .ok es) (hsemi : ∀ t ∈ es, t.bare ≠ mark ";")
    (he : parse file e = .ok (.program p [.exprStmt n])) (g : Text) :
    (x ≠ lit "async" → ∃ pos body, parse g (x ++ u ++ lit "=>" ++ v ++ e) =
        .ok (.program pos [.exprStmt (.function pos [.identifier pos x] body false)]) ∧
      body.unplaced = n.unplaced) ∧
    (x = lit "async" → ∃ err, parse g (x ++ u ++ lit "=>" ++ v ++ e) = .error err) := by
  obtain ⟨us, lastE, body, hus, hlastE, heq, hstatements, -⟩ := statements_of_parse he
  obtain ⟨-, rfl⟩ := Node.program.inj heq
  obtain rfl := Except.ok.inj (hes.symm.trans hus)
  -- The tokens of the whole are the name, the arrow and those of the expression.
  obtain ⟨all, hall, hbares⟩ :=
    (lexes_bareArrow hx hu hv (lexes_of_tokens hus)).tokens_eq g
  rw [List.cons_append, List.cons_append] at hbares
  obtain ⟨name, rest, rfl, hname, hbares⟩ := List.map_eq_cons_iff.1 hbares
  obtain ⟨arrow, rest, rfl, harrow, hbares⟩ := List.map_eq_cons_iff.1 hbares
  obtain ⟨us', lasts, rfl, hus', hlasts⟩ := List.map_eq_append_iff.1 hbares
  obtain ⟨last, rfl, hlast⟩ := List.map_eq_singleton_iff.1 hlasts
  have htext : name.text = x := text_of_bare hname
  constructor
  · intro hasync
    have hstaged : Staged [] (us ++ [lastE]) := staged_of_tokens hus
    have hgiven := gives_statement (hstatements.single hstaged hsemi)
    cases hgiven with
    | exprStmt _ hexpression =>
      -- The expression is read at its new place as it was read alone.
      obtain ⟨n', rest', hn', hfront, hmap⟩ := hexpression.alike (by simp)
        ⟨lastE, [], rfl, .inl (cls_of_bare hlastE)⟩ ⟨last, [], rfl, .inl (cls_of_bare hlast)⟩
        (.append hus'.symm)
      obtain rfl := hfront.eq_tail
      have hcls : name.cls = .ident := cls_of_bare hname
      have hfunction := hn'.bareArrow hcls (by rw [htext]; exact hx.ne (by decide)) harrow
        (by rwa [htext])
      obtain ⟨kids, hread, hbuild⟩ := hfunction
      have hstatement : Gives .statement (name :: arrow :: (us' ++ [last])) [last]
          (.exprStmt (.function name.pos [.identifier name.pos name.text] n' false)) := by
        refine ⟨_, (varDecl_declines_arrow (cls_of_bare hname) harrow).alt
          (reads_rule_takes.2 ⟨kids, hread, rfl⟩).alt, ?_⟩
        rw [build, hbuild]
        · rfl
        · simp
      have hparse := parse_of_statements hall hlast (.cons hstatement .nil)
      rw [htext] at hparse
      exact ⟨name.pos, n', hparse, hmap⟩
  · rintro rfl
    cases hparse : parse g (lit "async" ++ u ++ lit "=>" ++ v ++ e) with
    | error err => exact ⟨err, rfl⟩
    | ok t =>
      obtain ⟨ws, last', body, hws, hlast', -, hbody, -⟩ := statements_of_parse hparse
      have hsplit := Except.ok.inj (hall.symm.trans hws)
      rw [← hsplit] at hbody
      exact absurd hbody (not_statements_asyncWord hname harrow hlast')

/-- Whether a program is one expression. -/
def isExpressionProgram : Node → Bool
  | .program _ [.exprStmt _] => true
  | _ => false

theorem exists_of_isExpressionProgram {file src : Text}
    (h : (parse file src).toOption.any isExpressionProgram = true) :
    ∃ p n, parse file src = .ok (.program p [.exprStmt n]) := by
  cases hparse : parse file src with
  | error e =>
    rw [hparse] at h
    cases h
  | ok t =>
    rw [hparse] at h
    have ht : isExpressionProgram t = true := h
    unfold isExpressionProgram at ht
    split at ht
    · exact ⟨_, _, rfl⟩
    · cases ht

/-- A word for declarations in front of a function with a hole in its template. -/
def declaredParameter : Text × Text := (lit "let", lit "/* x */ y => `$\x7b{z: y}.z\x7d` ")

/-- The word is a parameter, and the body is the function that is read without it. -/
theorem declaredParameter_parse : ∃ p n pos body,
    parse [] declaredParameter.2 = .ok (.program p [.exprStmt n]) ∧
      parse [] (declaredParameter.1 ++ lit " => " ++ declaredParameter.2) =
        .ok (.program pos [.exprStmt (.function pos [.identifier pos declaredParameter.1] body
          false)]) ∧
      body.unplaced = n.unplaced := by
  have htokens : (tokens [] declaredParameter.2).toOption.any
      (fun es => es.all fun t => t.bare ≠ mark ";") = true := by decide +kernel
  obtain ⟨p, n, he⟩ := exists_of_isExpressionProgram
    (by decide +kernel : (parse [] declaredParameter.2).toOption.any isExpressionProgram = true)
  cases hes : tokens [] declaredParameter.2 with
  | error e =>
    rw [hes] at htokens
    cases htokens
  | ok es =>
    rw [hes] at htokens
    have hall : es.all (fun t => t.bare ≠ mark ";") = true := htokens
    have hsemi : ∀ t ∈ es, t.bare ≠ mark ";" := by simpa using hall
    have hspace : ∀ b ∈ lit " ", isBlank b = true := by decide +kernel
    obtain ⟨hread, -⟩ := parse_bareArrow (x := declaredParameter.1) (by decide) hspace hspace hes
      hsemi he []
    obtain ⟨pos, body, hfunction, hbody⟩ := hread (by decide)
    exact ⟨p, n, pos, body, he, hfunction, hbody⟩

/-- The marker word is no parameter: `async => 1` is rejected at its arrow, though `1` is read as an
expression. -/
theorem asyncWord_rejected :
    (∃ p n, parse (lit "t.js") (lit "1") = .ok (.program p [.exprStmt n])) ∧
      ∃ e, parse (lit "t.js") (lit "async => 1") = .error e ∧
        e.text = lit "t.js: parse error at line 1, column 7: unexpected token \"=>\"" := by
  refine ⟨exists_of_isExpressionProgram (by decide +kernel), ?_⟩
  have hrejected : ((parse (lit "t.js") (lit "async => 1")).map fun _ => ()).mapError
      ParseError.text = .error
        (lit "t.js: parse error at line 1, column 7: unexpected token \"=>\"") := by
    decide +kernel
  cases hparse : parse (lit "t.js") (lit "async => 1") with
  | error e =>
    rw [hparse] at hrejected
    exact ⟨e, rfl, Except.error.inj hrejected⟩
  | ok t =>
    rw [hparse] at hrejected
    cases hrejected

end CubeSchema
