import CubeSchema.Proofs.Tree.Reading

/-!
# Reading printed programs

The last step from expressions to whole programs. Statements are told apart by the semicolon behind
each, and a program ends where no statement starts. `FormedProgram.parse_print` says what reading a
printed program gives: the same tree, with the parentheses that printing adds. As printing depends
neither on places nor on these parentheses, a second printing changes nothing.
-/

namespace CubeSchema

open Lexeme Lexer Grammar Node ParseTree

/-! ## Statements -/

/-- Where a statement that has been read starts and ends. -/
theorem FormedStatement.front {s : Node} (h : FormedStatement s) :
    ∃ b bs, s.lexemes = b :: (bs ++ [mark ";"]) ∧ b.text ≠ lit ";" := by
  have hword : ∀ w ∈ declarationWords.map lit, w ≠ lit ";" := by decide
  cases h with
  | @bareDecl pos npos keyword name hkeyword hname =>
    exact ⟨⟨.ident, keyword⟩, [⟨.ident, name⟩], rfl, hword keyword hkeyword⟩
  | @varDecl pos npos keyword name init hkeyword hname hinit hentire =>
    refine ⟨⟨.ident, keyword⟩, ⟨.ident, name⟩ :: mark "=" :: init.lexemes, ?_,
      hword keyword hkeyword⟩
    simp [lexemes, hinit.isAbsent_eq_false, declaredName, name?]
  | @exprStmt x hx hentire hopens =>
    obtain ⟨b, bs, hb⟩ := hx.begins (isEntire_iff.1 hentire).1
    rw [lexemes]
    cases decide (x.kind = .object) || decide (x.kind = .function) with
    | false =>
      refine ⟨b, bs, by rw [bracketed, hb.eq]; simp, fun htext => hb.text ?_⟩
      rw [htext]
      decide
    | true => exact ⟨mark "(", x.lexemes ++ [mark ")"], by simp [bracketed], by decide⟩

/-- A declaration takes its word, its name and what follows. -/
theorem reads_varDecl {word ident : Token} {keyword name : Text}
    (hword : word.bare = ⟨.ident, keyword⟩) (hkeyword : keyword ∈ declarationWords.map lit)
    (hident : ident.bare = ⟨.ident, name⟩) {ts rest : List Token} {kids : List ParseTree}
    (h : Reads (.opt (.seq [.text (lit "="), .rule .expression])) ts (.takes kids rest)) :
    ∃ pos ipos, Reads (.rule .varDecl) (word :: ident :: ts)
      (.takes [.branch .varDecl pos (.leaf word :: .branch .ident ipos [.leaf ident] :: kids)]
        rest) := by
  have htake : Reads (.oneOf declarationWords) (word :: ident :: ts)
      (.takes [.leaf word] (ident :: ts)) :=
    reads_oneOf_takes.2 ⟨word, rfl, by rw [cls_of_bare hword]; simp,
      by rwa [text_of_bare hword], rfl⟩
  have hname : Reads (.rule .ident) (ident :: ts)
      (.takes [.branch .ident (startOf (ident :: ts)) [.leaf ident]] ts) :=
    reads_rule_takes.2 ⟨_, reads_token_cons (cls_of_bare hident) ts, rfl⟩
  exact ⟨_, _, reads_rule_takes.2 ⟨_, htake.seq (hname.seq h.seq_last), rfl⟩⟩

/-- A declaration is a statement. -/
theorem yields_varDecl {word ident : Token} {keyword name : Text}
    (hword : word.bare = ⟨.ident, keyword⟩) (hkeyword : keyword ∈ declarationWords.map lit)
    (hident : ident.bare = ⟨.ident, name⟩) {ts rest : List Token} {kids : List ParseTree}
    {inits : List Node} {init : Node}
    (h : Reads (.opt (.seq [.text (lit "="), .rule .expression])) ts (.takes kids rest))
    (hkids : Builds kids inits) (hinit : init.unplaced = (inits.headD .absent).unplaced)
    (pos npos : Position) : Yields .statement (word :: ident :: ts) rest
      (.varDecl pos keyword (.identifier npos name) init) := by
  obtain ⟨vpos, ipos, hread⟩ := reads_varDecl hword hkeyword hident h
  obtain ⟨ms, hms, hmap⟩ := hkids
  refine yields_of_reads _ hread.alt fun p => ?_
  refine ⟨.varDecl vpos word.text (.identifier ipos ident.text) (ms.headD .absent), ?_, ?_⟩
  · rw [build, build, hms]
    rfl
  · have hhead : (ms.headD .absent).unplaced = init.unplaced := by
      rw [hinit]
      cases ms <;> cases inits <;> simp_all
    simp only [unplaced, hhead, text_of_bare hword, text_of_bare hident]

/-- An expression that is not read as a declaration is a statement. -/
theorem Yields.statement {ts rest : List Token} {x : Node} (h : Yields .expression ts rest x)
    (hdecl : Declines (.rule .varDecl) ts) : Yields .statement ts rest (.exprStmt x) := by
  obtain ⟨pos, kids, hread, m, hm, hmx⟩ := h
  refine yields_of_reads _ (Declines.alt hdecl hread.alt) fun p => ⟨.exprStmt m, ?_, ?_⟩
  · rw [build, hm]
    · rfl
    · simp
  · simp only [unplaced, hmx]

/-- The tokens of a statement are read as the statement, up to its semicolon. -/
theorem FormedStatement.yields {s : Node} (h : FormedStatement s)
    (hlegible : s.all isLegible = true) {ts : List Token} (hts : Spells ts s.lexemes)
    (rest : List Token) : ∃ us semi, ts = us ++ [semi] ∧ semi.bare = mark ";" ∧
      Yields .statement (us ++ semi :: rest) (semi :: rest) s.regrouped := by
  cases h with
  | @bareDecl pos npos keyword name hkeyword hname =>
    obtain ⟨word, us, rfl, hword, hus⟩ := Spells.cons hts
    obtain ⟨ident, us, rfl, hident, hus⟩ := hus.cons
    obtain ⟨semi, rfl, hsemi⟩ := Spells.single hus
    have hnone : Reads (.opt (.seq [.text (lit "="), .rule .expression])) (semi :: rest)
        (.takes [] (semi :: rest)) :=
      (reads_text_lacks (hasText_eq_false (by rw [text_of_bare hsemi]; decide))).seq_lacks.opt_lacks
    exact ⟨[word, ident], semi, rfl, hsemi,
      yields_varDecl hword hkeyword hident hnone .nil rfl pos npos⟩
  | @varDecl pos npos keyword name init hkeyword hname hinit hentire =>
    rw [all, Bool.and_eq_true] at hlegible
    have heq : (Node.varDecl pos keyword (.identifier npos name) init).lexemes =
        ⟨.ident, keyword⟩ :: ⟨.ident, name⟩ :: mark "=" :: (init.lexemes ++ [mark ";"]) := by
      simp [lexemes, hinit.isAbsent_eq_false, declaredName, name?]
    rw [heq] at hts
    obtain ⟨word, us, rfl, hword, hus⟩ := hts.cons
    obtain ⟨ident, us, rfl, hident, hus⟩ := hus.cons
    obtain ⟨equals, us, rfl, hequals, hus⟩ := hus.cons
    obtain ⟨vs, ws, rfl, hvs, hws⟩ := hus.append
    obtain ⟨semi, rfl, hsemi⟩ := hws.single
    obtain ⟨xpos, kids, hread, hbuild⟩ := (hinit.readable hlegible.2).expression hentire vs
      (semi :: rest) hvs ⟨semi, rest, rfl, by rw [hsemi]; decide⟩
    have hvalue := (reads_text_cons (hasText_mark hequals) _).seq hread.seq_last
    refine ⟨word :: ident :: equals :: vs, semi, rfl, hsemi, ?_⟩
    exact yields_varDecl hword hkeyword hident hvalue.opt ((Builds.branch hbuild .nil).leaf equals)
      rfl pos npos
  | @exprStmt x hx hentire hopens =>
    rw [all, Bool.and_eq_true] at hlegible
    have hread := (hx.readable hlegible.2).expression hentire
    rw [lexemes] at hts
    obtain ⟨us, vs, rfl, hus, hvs⟩ := hts.append
    obtain ⟨semi, rfl, hsemi⟩ := hvs.single
    refine ⟨us, semi, rfl, hsemi, ?_⟩
    refine (yields_bracketed hx hentire hread hus
      ⟨semi, rest, rfl, by rw [hsemi]; decide⟩).statement ?_
    -- In parentheses it starts with one of them, else as the expression does.
    cases hneeded : decide (x.kind = .object) || decide (x.kind = .function) with
    | true =>
      rw [hneeded] at hus
      obtain ⟨t, us, rfl, ht, -⟩ := Spells.cons hus
      exact varDecl_declines_other ht (by decide) _
    | false =>
      rw [hneeded] at hus
      simp only [Bool.or_eq_false_iff, decide_eq_false_iff_not] at hneeded
      have hchain : x.isChain = true := (isEntire_iff.1 hentire).1.resolve_right hneeded.2
      exact hx.varDecl_declines hchain hopens hus
        fun _ => ⟨semi, rest, rfl, by rw [cls_of_bare hsemi]; decide⟩

/-! ## Programs -/

/-- No statement starts with a token that starts no expression and is no declaration word. -/
theorem statement_declines {t : Token} (h : StartsNothing t)
    (hword : t.text ∉ declarationWords.map lit) (rest : List Token) :
    Declines (.rule .statement) (t :: rest) := by
  refine Refuses.declines (Refuses.rule (refuses_alt fun p hp => ?_))
  simp only [List.mem_cons, List.not_mem_nil, or_false] at hp
  rcases hp with rfl | rfl
  · exact varDecl_declines_other rfl hword rest
  · exact .inr ⟨_, h.expression_breaks rest, isFar_eq_false (Nat.le_add_left _ _)⟩

/-- No statement starts at the end of the input. -/
theorem statement_declines_end {last : Token} (hlast : last.bare = endToken) (rest : List Token) :
    Declines (.rule .statement) (last :: rest) := by
  have hstart : StartsNothing last :=
    ⟨by rw [cls_of_bare hlast]; decide, by rw [text_of_bare hlast]; decide⟩
  exact statement_declines hstart (by rw [text_of_bare hlast]; decide) rest

/-- The tokens of some statements, in front of the end, do not start with a semicolon. -/
theorem semicolon_lacks {body : List Node} (hbody : ∀ s ∈ body, FormedStatement s)
    {ts : List Token} (hts : Spells ts (lexemesAll body).flatten) {last : Token}
    (hlast : last.bare = endToken) : Reads (.text (lit ";")) (ts ++ [last]) .lacks := by
  cases body with
  | nil =>
    obtain rfl := Spells.nil hts
    exact reads_text_lacks (hasText_eq_false (by rw [text_of_bare hlast]; decide))
  | cons s body =>
    obtain ⟨b, bs, hs, hb⟩ := (hbody s (List.mem_cons_self ..)).front
    rw [lexemesAll, List.flatten_cons, hs, List.cons_append] at hts
    obtain ⟨t, us, rfl, ht, -⟩ := hts.cons
    exact reads_text_lacks (hasText_eq_false (by rw [text_of_bare ht]; exact hb))

/-- The tokens of some statements are read one statement after the other. -/
theorem repeats_statements {body : List Node} (hbody : ∀ s ∈ body, FormedStatement s)
    (hlegible : ∀ s ∈ body, s.all isLegible = true) {ts : List Token}
    (hts : Spells ts (lexemesAll body).flatten) {last : Token} (hlast : last.bare = endToken) :
    ∃ trees, Repeats statementLine (ts ++ [last]) trees [last] ∧
      Builds trees (body.map regrouped) := by
  induction body generalizing ts with
  | nil =>
    obtain rfl := Spells.nil hts
    exact ⟨[], .nil, .nil⟩
  | cons s body ih =>
    rw [lexemesAll, List.flatten_cons] at hts
    obtain ⟨us, vs, rfl, hus, hvs⟩ := hts.append
    have hmore := fun x hx => hbody x (List.mem_cons_of_mem _ hx)
    obtain ⟨trees, hrep, hbuilds⟩ :=
      ih hmore (fun x hx => hlegible x (List.mem_cons_of_mem _ hx)) hvs
    obtain ⟨us, semi, rfl, hsemi, pos, kids, hread, hbuild⟩ :=
      (hbody s (List.mem_cons_self ..)).yields (hlegible s (List.mem_cons_self ..)) hus
        (vs ++ [last])
    -- Exactly one semicolon is taken: the next statement starts with none.
    have hsemis : Repeats (.text (lit ";")) (semi :: (vs ++ [last])) ([ParseTree.leaf semi] ++ [])
        (vs ++ [last]) := .cons (reads_text_cons (hasText_mark hsemi) _) .nil
    have hmany := hsemis.reads_many rfl (.inl (semicolon_lacks hmore hvs hlast))
    have hline : Reads statementLine (us ++ semi :: (vs ++ [last])) _ := hread.seq hmany.seq_last
    refine ⟨_, ?_, (Builds.branch hbuild (Builds.nil.leaf semi)).append hbuilds⟩
    rw [List.append_assoc, List.append_assoc, List.singleton_append]
    exact .cons hline hrep

/-- No line starts at the end of the input. -/
theorem line_declines_end {last : Token} (hlast : last.bare = endToken) :
    Declines statementLine [last] := (statement_declines_end hlast []).seq

/-- A source is read when its tokens are semicolons and then statements up to the end. -/
theorem parse_of_lines {limit : Option Nat} {file src : Text} {ts mid : List Token} {last : Token}
    {semis trees : List ParseTree} {ns : List Node} (hts : tokens file src = .ok ts)
    (hsemis : Reads (.many (.text (lit ";"))) ts (.takes semis mid) limit)
    (hlines : Reads (.many statementLine) mid (.takes trees [last]) limit)
    (hlast : last.bare = endToken) (hbuild : buildAll (semis ++ trees) = ⟨ns, none⟩) :
    parse file src limit = .ok (.program (startOf ts) ns) := by
  have hderive : derive ts limit = .ok (.branch .program (startOf ts) (semis ++ trees)) :=
    derive_eq_ok_iff.2 ⟨[last], reads_rule_takes.2 ⟨_, hsemis.seq hlines.seq_last, rfl⟩,
      cls_of_bare hlast⟩
  rw [parse, hts]
  simp only [hderive]
  rw [build, hbuild]
  rfl

/-- A printed program is read as the program again, with the parentheses that printing adds. -/
theorem FormedProgram.parse_print {n : Node} (h : FormedProgram n)
    (hlegible : n.all isLegible = true) (file : Text) :
    ∃ m, parse file n.print = .ok m ∧ m.unplaced = n.regrouped.unplaced := by
  have hsplit : n.all (fun m => !m.runsTogether) = true := by
    rw [all_eq_true_iff _ []] at hlegible ⊢
    intro c hc
    have hfocus := hlegible c hc
    unfold isLegible at hfocus
    unfold runsTogether
    split at hfocus <;> simp_all
  obtain ⟨ts, hts, hspells⟩ := (h.lexes hsplit).tokens_eq file
  obtain @⟨pos, body, hbody⟩ := h
  obtain ⟨us, vs, rfl, hus, hvs⟩ := Spells.append hspells
  obtain ⟨last, rfl, hlast⟩ := hvs.single
  rw [all, Bool.and_eq_true, allOf_eq_true] at hlegible
  obtain ⟨trees, hrep, ms, hms, hmap⟩ := repeats_statements hbody hlegible.2 hus hlast
  have hnone : Reads (.many (.text (lit ";"))) (us ++ [last]) (.takes [] (us ++ [last])) :=
    Repeats.nil.reads_many rfl (.inl (semicolon_lacks hbody hus hlast))
  have hlines := hrep.reads_many rfl (line_declines_end hlast)
  refine ⟨.program (startOf (us ++ [last])) ms, parse_of_lines hts hnone hlines hlast hms, ?_⟩
  simp only [unplaced, regrouped, unplacedAll_eq_map, regroupedAll_eq_map, hmap]

/-! ## Printing again -/

namespace Node

@[simp] theorem kind_unplaced (n : Node) : n.unplaced.kind = n.kind := by cases n <;> rfl

@[simp] theorem kind_regrouped (n : Node) : n.regrouped.kind = n.kind := by cases n <;> rfl

@[simp] theorem name?_unplaced (n : Node) : n.unplaced.name? = n.name? := by cases n <;> rfl

@[simp] theorem name?_regrouped (n : Node) : n.regrouped.name? = n.name? := by cases n <;> rfl

/-- Whether a property is written as its key alone depends on the names of its two sides. -/
theorem isShorthand_property (pos : Position) (key value : Node) (computed shorthand : Bool) :
    isShorthand (property pos key value computed shorthand) =
      (!computed && shorthand && key.name?.isSome && decide (key.name? = value.name?)) := by
  cases computed <;> cases shorthand <;> cases key <;>
    first
      | simp [isShorthand, name?]; done
      | cases value <;> simp [isShorthand, name?]

theorem getLast?_isAbsent_map {g : Node → Node} (hg : ∀ n, (g n).isAbsent = n.isAbsent)
    (ns : List Node) : (ns.map g).getLast?.map isAbsent = ns.getLast?.map isAbsent := by
  rw [List.getLast?_map, Option.map_map]
  congr 1
  funext n
  exact hg n

mutual

/-- Printing does not depend on places. -/
theorem pieces_unplaced (n : Node) : n.unplaced.pieces = n.pieces := by
  cases n with
  | absent | identifier | stringLiteral | numberLiteral | keywordLiteral => rfl
  | program pos body => simp [unplaced, pieces, piecesAll_unplaced body]
  | varDecl pos keyword name init =>
    simp [unplaced, pieces, declaredName, pieces_unplaced init]
  | exprStmt x => simp [unplaced, pieces, pieces_unplaced x]
  | templateLiteral pos quasis exprs => simp [unplaced, pieces, piecesAll_unplaced exprs]
  | array pos elements =>
    have hlast : (unplacedAll elements).getLast?.map isAbsent = elements.getLast?.map isAbsent := by
      rw [unplacedAll_eq_map, getLast?_isAbsent_map isAbsent_unplaced]
    simp only [unplaced, pieces, piecesAll_unplaced elements, hlast]
  | object pos properties =>
    have hempty : (unplacedAll properties).isEmpty = properties.isEmpty := by
      rw [unplacedAll_eq_map, List.isEmpty_map]
    simp only [unplaced, pieces, piecesAll_unplaced properties, hempty]
  | property pos key value computed shorthand =>
    simp [unplaced, pieces, isShorthand_property, pieces_unplaced key, pieces_unplaced value]
  | spread pos x => simp [unplaced, pieces, pieces_unplaced x]
  | member obj prop computed optional =>
    simp [unplaced, pieces, isLoose, pieces_unplaced obj, pieces_unplaced prop]
  | call callee args optional =>
    simp [unplaced, pieces, isLoose, pieces_unplaced callee, piecesAll_unplaced args]
  | function pos params body async =>
    simp [unplaced, pieces, unplacedAll_eq_map, declaredName, Function.comp_def,
      pieces_unplaced body]
  | binary left op right =>
    simp [unplaced, pieces, pieces_unplaced left, pieces_unplaced right]
  | unary pos op x => simp [unplaced, pieces, pieces_unplaced x]
  | paren pos x => simp [unplaced, pieces, pieces_unplaced x]

theorem piecesAll_unplaced (ns : List Node) : piecesAll (unplacedAll ns) = piecesAll ns := by
  cases ns with
  | nil => rfl
  | cons n ns => simp [unplacedAll, piecesAll, pieces_unplaced n, piecesAll_unplaced ns]

end

/-- Parentheses that stand in the tree take the place of those that printing adds. -/
theorem parenthesized_grouped {p : Kind → Bool} (hp : p .paren = false) (n : Node) :
    parenthesized (p (grouped (p n.kind) n).kind) (grouped (p n.kind) n).pieces =
      parenthesized (p n.kind) n.pieces := by
  cases hn : p n.kind with
  | false => rw [grouped, if_neg Bool.false_ne_true, hn]
  | true =>
    show parenthesized (p .paren) _ = _
    rw [hp]
    rfl

mutual

/-- Printing does not depend on the parentheses that printing adds. -/
theorem pieces_regrouped (n : Node) : n.regrouped.pieces = n.pieces := by
  cases n with
  | absent | identifier | stringLiteral | numberLiteral | keywordLiteral => rfl
  | program pos body => simp [regrouped, pieces, piecesAll_regrouped body]
  | varDecl pos keyword name init =>
    simp [regrouped, pieces, declaredName, pieces_regrouped init]
  | exprStmt x =>
    -- Where regrouping has added parentheses, printing does not add them a second time.
    have hgroup := parenthesized_grouped
      (p := fun k => decide (k = .object) || decide (k = .function)) rfl x.regrouped
    rw [kind_regrouped, pieces_regrouped x] at hgroup
    rw [regrouped, pieces, pieces]
    exact congrArg (· ++ [word ";"]) hgroup
  | templateLiteral pos quasis exprs => simp [regrouped, pieces, piecesAll_regrouped exprs]
  | array pos elements =>
    have hlast : (regroupedAll elements).getLast?.map isAbsent =
        elements.getLast?.map isAbsent := by
      rw [regroupedAll_eq_map, getLast?_isAbsent_map isAbsent_regrouped]
    simp only [regrouped, pieces, piecesAll_regrouped elements, hlast]
  | object pos properties =>
    have hempty : (regroupedAll properties).isEmpty = properties.isEmpty := by
      rw [regroupedAll_eq_map, List.isEmpty_map]
    simp only [regrouped, pieces, piecesAll_regrouped properties, hempty]
  | property pos key value computed shorthand =>
    simp [regrouped, pieces, isShorthand_property, pieces_regrouped key, pieces_regrouped value]
  | spread pos x => simp [regrouped, pieces, pieces_regrouped x]
  | member obj prop computed optional =>
    simp [regrouped, pieces, isLoose, pieces_regrouped obj, pieces_regrouped prop]
  | call callee args optional =>
    simp [regrouped, pieces, isLoose, pieces_regrouped callee, piecesAll_regrouped args]
  | function pos params body async =>
    have hgroup := parenthesized_grouped (p := fun k => decide (k = .object)) rfl body.regrouped
    rw [kind_regrouped, pieces_regrouped body] at hgroup
    rw [regrouped, pieces, pieces, hgroup]
    simp [regroupedAll_eq_map, declaredName, Function.comp_def]
  | binary left op right =>
    simp [regrouped, pieces, pieces_regrouped left, pieces_regrouped right]
  | unary pos op x => simp [regrouped, pieces, pieces_regrouped x]
  | paren pos x => simp [regrouped, pieces, pieces_regrouped x]

theorem piecesAll_regrouped (ns : List Node) : piecesAll (regroupedAll ns) = piecesAll ns := by
  cases ns with
  | nil => rfl
  | cons n ns => simp [regroupedAll, piecesAll, pieces_regrouped n, piecesAll_regrouped ns]

end

/-- Trees that differ in places and added parentheses only are printed alike. -/
theorem print_eq_of_unplaced {m n : Node} (h : m.unplaced = n.regrouped.unplaced) :
    m.print = n.print := by
  rw [print, ← pieces_unplaced m, h, pieces_unplaced, pieces_regrouped, ← print]

end Node

end CubeSchema
