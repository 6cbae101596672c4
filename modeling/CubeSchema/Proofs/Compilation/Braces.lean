import CubeSchema.Proofs.Compilation.Reparsing
import CubeSchema.Proofs.Tree.Indentation
import CubeSchema.Proofs.Tree.Nodes

/-!
# Braces in front of an expression

An object that is the body of a function or a statement is printed in parentheses, because its brace
would start a block there. An object that only stands in front of the body, as in an access to one
of its members, is printed without them, and its brace does come first. Passes put any value of a
property into such a place. `leading_braces` says for every reachable tree where the text that is
emitted for a body or for a statement starts with a brace: exactly where an object stands in front
of an expression of another kind.
-/

namespace CubeSchema

open Deferral Node
open List (infix_cons infix_append_of_infix_left infix_append_of_infix_right)

/-! ## Where functions are printed -/

namespace Node

theorem infix_separated {ns : List Node} {n : Node} (h : n ∈ ns) (sep : Piece) :
    n.pieces <:+: separated sep (piecesAll ns) := by
  induction ns with
  | nil => cases h
  | cons m ns ih =>
    cases ns with
    | nil => exact List.mem_singleton.1 h ▸ List.infix_rfl
    | cons k ns =>
      rcases List.mem_cons.1 h with rfl | h
      · exact List.infix_append_left
      · exact infix_append_of_infix_right (infix_cons (ih h))

theorem infix_memberLines {ns : List Node} {n : Node} (h : n ∈ ns) :
    n.pieces <:+: memberLines (piecesAll ns) := by
  induction ns with
  | nil => cases h
  | cons m ns ih =>
    rcases List.mem_cons.1 h with rfl | h
    · exact List.infix_append_left
    · exact infix_append_of_infix_right (infix_cons (infix_cons (ih h)))

theorem infix_statementLines {ns : List Node} {n : Node} (h : n ∈ ns) :
    n.pieces <:+: statementLines (piecesAll ns) := by
  induction ns with
  | nil => cases h
  | cons m ns ih =>
    cases ns with
    | nil => exact List.mem_singleton.1 h ▸ List.infix_append_left
    | cons k ns =>
      rcases List.mem_cons.1 h with rfl | h
      · exact List.infix_append_left
      · exact infix_append_of_infix_right (infix_cons (infix_cons (ih h)))

/-- The expressions of a template are printed if there are enough chunks for them. -/
theorem infix_interleaved {quasis : List Quasi} {ns : List Node} {n : Node}
    (hlength : quasis.length = ns.length + 1) (h : n ∈ ns) :
    n.pieces <:+: interleaved quasis (piecesAll ns) := by
  induction ns generalizing quasis with
  | nil => cases h
  | cons m ns ih =>
    obtain ⟨q, quasis, rfl⟩ := List.exists_cons_of_length_eq_add_one hlength
    refine infix_cons (infix_cons ?_)
    rcases List.mem_cons.1 h with rfl | h
    · exact List.infix_append_left
    · exact infix_append_of_infix_right (infix_cons (ih (by simpa using hlength) h))

theorem infix_parenthesized (needed : Bool) (ps : List Piece) :
    ps <:+: parenthesized needed ps := by
  cases needed with
  | false => exact List.infix_rfl
  | true => exact infix_cons List.infix_append_left

end Node

theorem PlainKey.kind_ne_function {n f : Node} (h : PlainKey n) (hf : f ∈ n.nodes) :
    f.kind ≠ .function := by
  cases h <;> (obtain rfl := List.mem_singleton.1 hf; simp [kind])

theorem IsParam.kind_ne_function {n f : Node} (h : IsParam n) (hf : f ∈ n.nodes) :
    f.kind ≠ .function := by
  obtain ⟨pos, name, rfl, -⟩ := h
  obtain rfl := List.mem_singleton.1 hf
  simp [kind]

/-- A function in a node of another kind is below it. -/
theorem mem_below {n f : Node} {ms : List Node} (hf : f ∈ n :: ms) (hkind : f.kind = .function)
    (hn : n.kind ≠ .function) : f ∈ ms := by
  refine (List.mem_cons.1 hf).resolve_left ?_
  rintro rfl
  exact hn hkind

/-- A function anywhere in an expression that has been read is printed within the expression. -/
theorem Formed.infix_pieces {n f : Node} (h : Formed n) (hf : f ∈ n.nodes)
    (hkind : f.kind = .function) : f.pieces <:+: n.pieces := by
  induction h with
  | identifier | stringLiteral | numberLiteral | keywordLiteral => cases mem_below hf hkind nofun
  | templateLiteral hlength _ _ _ ih =>
    obtain ⟨x, hx, hf⟩ := exists_of_mem_nodesAll (mem_below hf hkind nofun)
    have hwithin := (ih x hx hf).trans (infix_interleaved hlength hx)
    exact infix_append_of_infix_left (infix_cons hwithin)
  | array _ _ ih =>
    obtain ⟨x, hx, hf⟩ := exists_of_mem_nodesAll (mem_below hf hkind nofun)
    have hwithin := (ih x hx hf).trans (infix_separated hx (word ", "))
    exact infix_append_of_infix_left (infix_append_of_infix_left (infix_cons hwithin))
  | @object pos properties _ _ ih =>
    obtain ⟨x, hx, hf⟩ := exists_of_mem_nodesAll (mem_below hf hkind nofun)
    have hwithin := (ih x hx hf).trans (infix_memberLines hx)
    have hne : properties.isEmpty = false := by
      cases properties <;> first | rfl | cases hx
    rw [pieces, hne]
    exact infix_append_of_infix_left (infix_cons (infix_cons (infix_cons hwithin)))
  | shorthand =>
    -- The key and the value are both the name.
    rcases List.mem_append.1 (mem_below hf hkind nofun) with hf | hf <;>
      cases mem_below hf hkind nofun
  | property hkey _ _ ih =>
    rcases List.mem_append.1 (mem_below hf hkind nofun) with hf | hf
    · exact absurd hkind (hkey.kind_ne_function hf)
    · rw [pieces, isShorthand_eq_false]
      exact infix_append_of_infix_right (infix_cons (ih hf))
  | computed _ _ _ _ ihk ihv =>
    rw [pieces, isShorthand_eq_false]
    rcases List.mem_append.1 (mem_below hf hkind nofun) with hf | hf
    · exact infix_append_of_infix_left (infix_append_of_infix_left (infix_cons (ihk hf)))
    · exact infix_append_of_infix_right (infix_cons (ihv hf))
  | spread _ _ ih => exact infix_cons (ih (mem_below hf hkind nofun))
  | member _ _ _ ih =>
    rcases List.mem_append.1 (mem_below hf hkind nofun) with hf | hf
    · exact infix_append_of_infix_left (infix_append_of_infix_left
        ((ih hf).trans (infix_parenthesized _ _)))
    · cases mem_below hf hkind nofun
  | index _ _ _ _ _ iho ihp =>
    refine infix_append_of_infix_left ?_
    rcases List.mem_append.1 (mem_below hf hkind nofun) with hf | hf
    · exact infix_append_of_infix_left ((iho hf).trans (infix_parenthesized _ _))
    · exact infix_append_of_infix_right (infix_cons (ihp hf))
  | call _ _ _ _ ihc iha =>
    refine infix_append_of_infix_left ?_
    rcases List.mem_append.1 (mem_below hf hkind nofun) with hf | hf
    · exact infix_append_of_infix_left (infix_append_of_infix_left
        ((ihc hf).trans (infix_parenthesized _ _)))
    · obtain ⟨x, hx, hf⟩ := exists_of_mem_nodesAll hf
      have hwithin := (iha x hx hf).trans (infix_separated hx (word ", "))
      exact infix_append_of_infix_right (infix_cons hwithin)
  | function hparams _ _ ih =>
    rcases List.mem_cons.1 hf with rfl | hf
    · exact List.infix_rfl
    rcases List.mem_append.1 hf with hf | hf
    · obtain ⟨p, hp, hf⟩ := exists_of_mem_nodesAll hf
      exact absurd hkind ((hparams p hp).kind_ne_function hf)
    · exact infix_append_of_infix_right (infix_cons ((ih hf).trans (infix_parenthesized _ _)))
  | binary _ _ _ _ _ _ _ _ ihl ihr =>
    rcases List.mem_append.1 (mem_below hf hkind nofun) with hf | hf
    · exact infix_append_of_infix_left (ihl hf)
    · exact infix_append_of_infix_right (infix_cons (ihr hf))
  | unary _ _ _ ih => exact infix_append_of_infix_right (ih (mem_below hf hkind nofun))
  | paren _ _ ih => exact infix_append_of_infix_left (infix_cons (ih (mem_below hf hkind nofun)))

theorem FormedStatement.infix_pieces {n f : Node} (h : FormedStatement n) (hf : f ∈ n.nodes)
    (hkind : f.kind = .function) : f.pieces <:+: n.pieces := by
  cases h with
  | bareDecl => cases mem_below (mem_below hf hkind nofun) hkind nofun
  | varDecl _ _ hinit _ =>
    rcases List.mem_append.1 (mem_below hf hkind nofun) with hf | hf
    · cases mem_below hf hkind nofun
    · rw [pieces, hinit.isAbsent_eq_false]
      exact infix_append_of_infix_left (infix_cons (infix_cons (hinit.infix_pieces hf hkind)))
  | exprStmt hx _ _ =>
    have hwithin := hx.infix_pieces (mem_below hf hkind nofun) hkind
    exact infix_append_of_infix_left (hwithin.trans (infix_parenthesized _ _))

/-! ## What is emitted -/

namespace Node

/-- The body of a function. -/
def body? : Node → Option Node
  | function _ _ body _ => some body
  | _ => none

/-- The expression that a statement consists of. -/
def statement? : Node → Option Node
  | exprStmt x => some x
  | _ => none

/-- The text that is emitted for the body of a function, at a level. -/
def bodyText (level : Nat) (body : Node) : Text :=
  Layout.text level false (parenthesized (body.kind = .object) body.pieces)

/-- The text that is emitted for an expression that is a statement. -/
def statementText (x : Node) : Text :=
  Layout.text 0 true (parenthesized (x.kind = .object || x.kind = .function) x.pieces)

end Node

/-- Where no spaces are due, a text is printed as it is. -/
theorem Layout.head?_text {level : Nat} {b : Bool} (hstart : level = 0 ∨ b = false) (c : UInt8)
    (u : Text) (rest : List Piece) :
    (Layout.text level b (.text (c :: u) :: rest)).head? = some c := by
  rcases hstart with rfl | rfl <;> simp [Layout.text, Text.spaces]

/-- What is emitted for an expression starts with a brace if an object stands in front of the
expression, unless this is put in parentheses. -/
theorem Formed.head?_parenthesized {x : Node} (h : Formed x) (hentire : x.isEntire = true)
    (needed : Bool) {level : Nat} {b : Bool} (hstart : level = 0 ∨ b = false) :
    (Layout.text level b (parenthesized needed x.pieces)).head? = some (ascii '\x7b') ↔
      needed = false ∧ x.startsWithBrace = true := by
  cases needed with
  | true =>
    rw [parenthesized, if_pos rfl, List.cons_append, word, show lit "(" = [40] from rfl,
      Layout.head?_text hstart]
    simp [ascii]
  | false =>
    have hkind : (x.isChain || x.kind = .function) = true := (Bool.and_eq_true_iff.1 hentire).1
    obtain ⟨c, u, rest, hpieces, -, hbrace⟩ := h.pieces_head hkind
    rw [parenthesized, if_neg Bool.false_ne_true, hpieces, Layout.head?_text hstart]
    simpa [ascii] using hbrace

/-- The printed text of a program has the text of the body of every function in it, behind the
parameters. -/
theorem FormedProgram.exists_bodyText {t f body : Node} (h : FormedProgram t) (hf : f ∈ t.nodes)
    (hbody : f.body? = some body) : ∃ front level back,
    t.print = front ++ lit ") => " ++ body.bodyText level ++ back := by
  cases h with
  | @program pos stmts hstmts =>
  obtain ⟨fpos, params, async, rfl⟩ : ∃ fpos params async, f = function fpos params body async := by
    cases f <;> cases hbody
    exact ⟨_, _, _, rfl⟩
  obtain ⟨s, hs, hf⟩ : ∃ s ∈ stmts, _ ∈ s.nodes :=
    exists_of_mem_nodesAll ((List.mem_cons.1 hf).resolve_left nofun)
  obtain ⟨front, back, hwithin⟩ :=
    ((hstmts s hs).infix_pieces hf rfl).trans (infix_statementLines hs)
  rw [print_program hstmts (List.ne_nil_of_mem hs), ← hwithin, pieces]
  -- What stands in front ends within a line, so the body goes on in this line.
  generalize hhead : front ++ ((if async = true then [word "async "] else []) ++
    word "(" :: separated (word ", ") (params.map fun p => [.text p.declaredName])) = head
  obtain ⟨level, b, happend⟩ := Layout.text_append head 0 true
  obtain ⟨level', b', hbehind⟩ := Layout.text_append
    (parenthesized (body.kind = .object) body.pieces) level false
  rw [← List.append_assoc front, hhead, List.append_assoc head, happend, List.cons_append, word,
    Layout.text, hbehind, ← bodyText]
  simp only [← List.append_assoc]
  exact ⟨_, level, _, rfl⟩

theorem Formed.statement?_eq_none {n m : Node} (h : Formed n) (hm : m ∈ n.nodes) :
    m.statement? = none := by
  have hall : n.all (fun m => m.statement?.isNone) = true := by
    refine h.all_nodes (fun m hm => ?_) fun m hm => ?_
    · cases m <;> first | rfl | cases hm
    · cases hm <;> rfl
  exact Option.isNone_iff_eq_none.1 (all_eq_true.1 hall m hm)

/-- Expressions are statements only at the outermost level. -/
theorem FormedProgram.mem_of_statement? {pos : Position} {stmts : List Node}
    (h : ∀ s ∈ stmts, FormedStatement s) {s x : Node} (hs : s ∈ (Node.program pos stmts).nodes)
    (hx : s.statement? = some x) : s ∈ stmts := by
  have hnone : ∀ {n}, Formed n → s ∉ n.nodes := fun hn hmem => by
    rw [hn.statement?_eq_none hmem] at hx
    cases hx
  rcases List.mem_cons.1 hs with rfl | hs
  · cases hx
  obtain ⟨r, hr, hs⟩ := exists_of_mem_nodesAll hs
  cases h r hr with
  | bareDecl =>
    rcases List.mem_cons.1 hs with rfl | hs
    · cases hx
    · obtain rfl := List.mem_singleton.1 hs
      cases hx
  | varDecl _ _ hinit _ =>
    rcases List.mem_cons.1 hs with rfl | hs
    · cases hx
    · rcases List.mem_append.1 hs with hs | hs
      · obtain rfl := List.mem_singleton.1 hs
        cases hx
      · exact absurd hs (hnone hinit)
  | exprStmt hformed _ _ =>
    rcases List.mem_cons.1 hs with rfl | hs
    · exact hr
    · exact absurd hs (hnone hformed)

/-- The printed text of a program has the text of every expression that is a statement, at the start
of a line and with a semicolon behind it. -/
theorem FormedProgram.exists_statementText {t s x : Node} (h : FormedProgram t) (hs : s ∈ t.nodes)
    (hx : s.statement? = some x) : ∃ front back,
    t.print = front ++ x.statementText ++ lit ";" ++ back ∧
      (front = [] ∨ ∃ u, front = u ++ [Text.newline]) := by
  cases h with
  | @program pos stmts hstmts =>
  have hmem := FormedProgram.mem_of_statement? hstmts hs hx
  obtain rfl : s = exprStmt x := by
    cases s <;> cases hx
    rfl
  obtain ⟨pre, post, rfl⟩ := List.append_of_mem hmem
  obtain ⟨front, more, htext, hfront⟩ := text_statementLines pre (exprStmt x) post
  obtain ⟨b, happend⟩ := (x.balanced_pieces.parenthesized
    (x.kind = .object || x.kind = .function)).text_append 0 true
  refine ⟨front, Layout.text 0 false (.newline :: more), ?_, hfront⟩
  rw [print_program hstmts (List.ne_nil_of_mem hmem), htext, pieces, List.append_assoc, happend,
    ← statementText]
  -- At the outermost level there are no spaces in front of the semicolon.
  simp [Layout.text, Text.spaces, word]

/-! ## Where a brace comes first -/

open Classical in
theorem FormedProgram.formed_of_function {t f : Node} (h : FormedProgram t) (hf : f ∈ t.nodes)
    (hkind : f.kind = .function) : Formed f := by
  have hall : t.all (fun m => decide (m.kind = .function → Formed m)) = true := by
    refine h.all_nodes (fun m hm => ?_) (fun m hm => ?_) (fun m hm => ?_) fun m hm => ?_
    all_goals refine decide_eq_true fun hkind => ?_
    · cases m <;> first | (cases hkind; done) | simp [isLeaf] at hm
    · exact hm
    · cases hm <;> cases hkind
    · cases hm
      cases hkind
  exact of_decide_eq_true (all_eq_true.1 hall f hf) hkind

/-- What is emitted for the body of a function in a reachable tree, and for an expression that is a
statement, starts with a brace exactly if an object stands in front of it and is not all of it. -/
theorem leading_braces {t : Node} (h : Reachable t) :
    (∀ f ∈ t.nodes, ∀ body, f.body? = some body →
      (∃ front level back, t.print = front ++ lit ") => " ++ body.bodyText level ++ back) ∧
      ∀ level, (body.bodyText level).head? = some (ascii '\x7b') ↔
        body.startsWithBrace = true ∧ body.kind ≠ .object) ∧
    ∀ s ∈ t.nodes, ∀ x, s.statement? = some x →
      (∃ front back, t.print = front ++ x.statementText ++ lit ";" ++ back ∧
        (front = [] ∨ ∃ u, front = u ++ [Text.newline])) ∧
      (x.statementText.head? = some (ascii '\x7b') ↔
        x.startsWithBrace = true ∧ x.kind ≠ .object) := by
  have hformed := h.formed
  refine ⟨fun f hf body hbody => ⟨hformed.exists_bodyText hf hbody, fun level => ?_⟩,
    fun s hs x hx => ⟨hformed.exists_statementText hs hx, ?_⟩⟩
  · have hkind : f.kind = .function := by
      cases f <;> cases hbody
      rfl
    cases hformed.formed_of_function hf hkind with
    | function _ hbodyFormed hentire =>
      obtain rfl := Option.some.inj hbody
      rw [bodyText, hbodyFormed.head?_parenthesized hentire _ (.inr rfl), decide_eq_false_iff_not,
        and_comm]
    | _ => cases hkind
  · cases hformed with
    | program hstmts =>
    have hmem := FormedProgram.mem_of_statement? hstmts hs hx
    cases hstmts s hmem with
    | @exprStmt y hyFormed hentire _ =>
      obtain rfl : y = x := Option.some.inj hx
      rw [statementText, hyFormed.head?_parenthesized hentire _ (.inl rfl)]
      -- A function is put in parentheses too, and has no brace in front.
      cases y <;> simp [kind, startsWithBrace]
    | _ => cases hx

/-- A cube with an object and a member of an object for values that a pass defers, and a member of
an object as a statement. -/
def bracedValues : Node :=
  (run ⟨fun _ _ => true, fun _ => false, fun _ => false⟩
    (treeOf (lit "cube('A', \x7b sql: \x7b\x7d.a, columns: \x7b\x7d \x7d); \x7b\x7d.b"))).val

theorem reachable_bracedValues : Reachable bracedValues := .passed _ (.treeOf (by decide +kernel))

/-- The object has no brace in front, and the member has. -/
theorem bracedValues_leading_braces :
    (∃ f ∈ bracedValues.nodes, ∃ body, f.body? = some body ∧
      body.kind = .object ∧ (body.bodyText 1).head? ≠ some (ascii '\x7b')) ∧
    ∃ f ∈ bracedValues.nodes, ∃ body, f.body? = some body ∧
      body.kind = .member ∧ (body.bodyText 1).head? = some (ascii '\x7b') := by
  have hfunctions := (leading_braces reachable_bracedValues).1
  have hbodies : (∃ f ∈ bracedValues.nodes, ∃ body ∈ f.body?, body.kind = .object) ∧
      ∃ f ∈ bracedValues.nodes, ∃ body ∈ f.body?, body.kind = .member ∧
        body.startsWithBrace = true := by decide +kernel
  obtain ⟨⟨f, hf, body, hbody, hkind⟩, g, hg, body', hbody', hkind', hbrace⟩ := hbodies
  refine ⟨⟨f, hf, body, hbody, hkind, fun hhead => ?_⟩, ⟨g, hg, body', hbody', hkind', ?_⟩⟩
  · exact (((hfunctions f hf body hbody).2 1).1 hhead).2 hkind
  · exact ((hfunctions g hg body' hbody').2 1).2 ⟨hbrace, by rw [hkind']; decide⟩

/-- The body of a function and a statement do start with a brace. -/
theorem member_of_object_starts_block : ∃ t, Reachable t ∧
    t.format = .ok (lit "cube('A', \x7b\n  sql: () => \x7b\x7d.a,\n" ++
      lit "  columns: () => (\x7b\x7d),\n\x7d);\n\n\x7b\x7d.b;\n") ∧
    (∃ f ∈ t.nodes, ∃ body ∈ f.body?, (body.bodyText 1).head? = some (ascii '\x7b')) ∧
    ∃ s ∈ t.nodes, ∃ x ∈ s.statement?, x.statementText.head? = some (ascii '\x7b') :=
  ⟨bracedValues, reachable_bracedValues, by decide +kernel⟩

end CubeSchema
