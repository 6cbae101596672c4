import CubeSchema.Proofs.Tree.Lead

/-!
# Reading the tokens of a printed tree

The tokens of a tree that has been read are read as that tree again, with the parentheses that
printing adds. An operand is read in front of anything that does not continue it, an expression in
front of a token that closes it. One condition stays: a call of `typeof`, `void` or `await` as if it
were a function must have arguments that are not read as the operand of that word. `Node.isLegible`
states it, together with the one on members of numbers.
-/

namespace CubeSchema

open Lexeme Lexer Grammar Node ParseTree

namespace Node

/-- Whether arguments behind a word that is a unary operator are not read as its operand: there is
none, or the first is the contents of a list, or there are more and the comma behind the first one
is near. -/
def keepsCall : List Node → Bool
  | [] => true
  | x :: rest => x.kind = .spread || (!rest.isEmpty && x.lexemes.length < Reader.lookahead)

/-- Whether the tokens of a node are read as the node: the point of a member access is not read as
part of a number, and a call not as a unary operation. -/
def isLegible : Node → Bool
  | member (numberLiteral _ raw) _ false false => !isWhole raw
  | call (identifier _ name) args false => !operatorWords.contains name || keepsCall args
  | _ => true

end Node

/-! ## Calls and member accesses -/

/-- A node is read as a primary with calls and member accesses behind it, in front of anything. -/
def HasSuffixes (n : Node) : Prop :=
  ∀ ts rest, Spells ts n.lexemes → ∃ pos kids mid x trees m,
    Reads (.rule .primary) (ts ++ rest) (.takes [.branch .primary pos kids] mid) ∧
    build (.branch .primary pos kids) = ⟨x, none⟩ ∧ Repeats (.rule .suffix) mid trees rest ∧
    buildSuffixes x trees = ⟨m, none⟩ ∧ m.unplaced = n.regrouped.unplaced

theorem IsPrimary.hasSuffixes {n : Node} (h : IsPrimary n) : HasSuffixes n := by
  intro ts rest hts
  obtain ⟨pos, kids, hread, m, hm, hn⟩ := h ts rest hts
  exact ⟨pos, kids, rest, m, [], m, hread, hm, .nil, rfl, hn⟩

/-- Some tokens are read as a suffix that makes `n` of `obj`. -/
def Suffixes (tail : List BareToken) (obj n : Node) : Prop :=
  ∀ ts rest, Spells ts tail → ∃ pos kids,
    Reads (.rule .suffix) (ts ++ rest) (.takes [.branch .suffix pos kids] rest) ∧
    ∀ x : Node, x.unplaced = obj.regrouped.unplaced →
      ∃ m, suffixStep x (.branch .suffix pos kids) = ⟨m, none⟩ ∧ m.unplaced = n.regrouped.unplaced

/-- One more call or member access. -/
theorem HasSuffixes.extend {obj n : Node} {tail : List BareToken} (h : HasSuffixes obj)
    (heq : n.lexemes = obj.lexemes ++ tail) (htail : Suffixes tail obj n) : HasSuffixes n := by
  intro ts rest hts
  rw [heq] at hts
  obtain ⟨us, vs, rfl, hus, hvs⟩ := hts.append
  obtain ⟨pos, kids, mid, x, trees, m, hread, hbuild, hrep, hm, hobj⟩ := h us (vs ++ rest) hus
  obtain ⟨spos, skids, hsuffix, hstep⟩ := htail vs rest hvs
  obtain ⟨k, hk, hn⟩ := hstep m hobj
  refine ⟨pos, kids, mid, x, trees ++ [ParseTree.branch .suffix spos skids], k, ?_, hbuild,
    hrep.snoc hsuffix, ?_, hn⟩
  · rw [List.append_assoc]
    exact hread
  · rw [buildSuffixes_append hm, buildSuffixes_cons, hk]
    rfl

/-- Arguments in parentheses. -/
theorem reads_callArgs {args : List Node} (hargs : ∀ x ∈ args, ReadBy .element x)
    {ts : List Token} (hts : Spells ts (mark "(" :: (commaTokens (lexemesAll args) ++ [mark ")"])))
    (rest : List Token) :
    ∃ pos kids, Reads (.rule .callArgs) (ts ++ rest) (.takes [.branch .callArgs pos kids] rest) ∧
      Builds kids (args.map regrouped) := by
  obtain ⟨paren, us, rfl, hparen, hus⟩ := hts.cons
  obtain ⟨vs, ws, rfl, hvs, hws⟩ := hus.append
  obtain ⟨close, rfl, hclose⟩ := hws.single
  obtain ⟨trees, hlist, hbuilds⟩ := reads_elements hargs hvs (.inl hclose) rest
  rw [List.cons_append, List.append_assoc, List.singleton_append]
  refine ⟨_, [ParseTree.leaf paren] ++ (trees ++ [ParseTree.leaf close]),
    reads_rule_takes.2 ⟨_, ?_, rfl⟩, ?_⟩
  · exact (reads_text_cons (hasText_mark hparen) _).seq
      (hlist.seq (reads_text_cons (hasText_mark hclose) rest).seq_last)
  · have := (hbuilds.append (Builds.nil.leaf close)).leaf paren
    rwa [List.append_nil] at this

/-- An index in brackets. -/
theorem reads_index {x : Node} (hx : ReadBy .expression x) {ts : List Token}
    (hts : Spells ts (mark "[" :: (x.lexemes ++ [mark "]"]))) (rest : List Token) :
    ∃ bracket close pos kids,
      Reads (.seq [.text (lit "["), .rule .expression, .text (lit "]")]) (ts ++ rest)
        (.takes [.leaf bracket, .branch .expression pos kids, .leaf close] rest) ∧
      BuildsTo (.branch .expression pos kids) x.regrouped := by
  obtain ⟨bracket, us, rfl, hbracket, hus⟩ := hts.cons
  obtain ⟨vs, ws, rfl, hvs, hws⟩ := hus.append
  obtain ⟨close, rfl, hclose⟩ := hws.single
  obtain ⟨pos, kids, hread, hbuild⟩ := hx vs (close :: rest) hvs
    ⟨close, rest, rfl, by rw [hclose]; decide⟩
  refine ⟨bracket, close, pos, kids, ?_, hbuild⟩
  rw [List.cons_append, List.append_assoc, List.singleton_append]
  exact (reads_text_cons (hasText_mark hbracket) _).seq
    (hread.seq (reads_text_cons (hasText_mark hclose) rest).seq_last)

/-- A name. -/
theorem reads_ident {t : Token} {name : Text} (ht : t.bare = ⟨.ident, name⟩) (ppos : Position)
    (rest : List Token) : Yields .ident (t :: rest) rest (.identifier ppos name) := by
  refine yields_of_reads [.leaf t] (reads_token_cons (cls_of_bare ht) rest) fun p => ?_
  refine ⟨.identifier p t.text, by rw [build]; rfl, ?_⟩
  rw [text_of_bare ht]
  rfl

/-- In front of a mark of its own, the other alternatives of a suffix are lacking. -/
theorem suffix_alternatives {t : Token} {ts : List Token} :
    (t.text ≠ lit "(" → Declines (.rule .callArgs) (t :: ts)) ∧
    (t.text ≠ lit "[" →
      Declines (.seq [.text (lit "["), .rule .expression, .text (lit "]")]) (t :: ts)) ∧
    (t.text ≠ lit "." → Declines (.seq [.text (lit "."), .rule .ident]) (t :: ts)) := by
  refine ⟨fun h => .inl ?_, fun h => .inl ?_, fun h => .inl ?_⟩
  · exact Reads.rule (a := .lacks) (reads_text_lacks (hasText_eq_false h)).seq_lacks
  · exact (reads_text_lacks (hasText_eq_false h)).seq_lacks
  · exact (reads_text_lacks (hasText_eq_false h)).seq_lacks

/-- A part behind the mark of an optional access. -/
theorem reads_optional {t : Token} (ht : t.bare = mark "?.") {ts rest : List Token}
    {kids : List ParseTree} (h : Reads Rule.optionalSuffix.pattern ts (.takes kids rest)) :
    ∃ pos opos, Reads (.rule .suffix) (t :: ts)
      (.takes [.branch .suffix pos [.leaf t, .branch .optionalSuffix opos kids]] rest) := by
  have htext := text_of_bare ht
  refine ⟨_, startOf ts, reads_rule_takes.2 ⟨_, ?_, rfl⟩⟩
  refine Declines.alt (suffix_alternatives.1 (by rw [htext]; decide)) ?_
  refine Declines.alt (suffix_alternatives.2.1 (by rw [htext]; decide)) ?_
  refine Declines.alt (suffix_alternatives.2.2 (by rw [htext]; decide)) (Reads.alt ?_)
  have hopt : Reads (.rule .optionalSuffix) ts
      (.takes [.branch .optionalSuffix (startOf ts) kids] rest) := reads_rule_takes.2 ⟨_, h, rfl⟩
  exact (reads_text_cons (hasText_mark ht) _).seq hopt.seq_last

theorem suffixes_call {callee : Node} {args : List Node} (hargs : ∀ x ∈ args, ReadBy .element x)
    (optional : Bool) :
    Suffixes ((if optional then [mark "?."] else []) ++
      mark "(" :: (commaTokens (lexemesAll args) ++ [mark ")"])) callee
      (call callee args optional) := by
  intro ts rest hts
  -- What the arguments are built into is the same for both kinds of call.
  have hstep : ∀ (pos : Position) {kids : List ParseTree} {x : Node},
      Builds kids (args.map regrouped) → x.unplaced = callee.regrouped.unplaced →
      ∃ m, buildSuffix optional x [.branch .callArgs pos kids] = ⟨m, none⟩ ∧
        m.unplaced = (call callee args optional).regrouped.unplaced := by
    rintro pos kids x ⟨ms, hms, hmap⟩ hx
    refine ⟨.call x ms optional, ?_, ?_⟩
    · rw [buildSuffix, hms]
      rfl
    · simp only [unplaced, regrouped, unplacedAll_eq_map, regroupedAll_eq_map, hmap, hx]
  cases optional with
  | false =>
    obtain ⟨pos, kids, hread, hbuilds⟩ := reads_callArgs hargs hts rest
    exact ⟨_, _, reads_rule_takes.2 ⟨_, hread.alt, rfl⟩, fun x hx => hstep pos hbuilds hx⟩
  | true =>
    obtain ⟨t, us, rfl, ht, hus⟩ := Spells.cons hts
    obtain ⟨pos, kids, hread, hbuilds⟩ := reads_callArgs hargs hus rest
    obtain ⟨spos, opos, hsuffix⟩ := reads_optional ht (Reads.alt hread)
    exact ⟨_, _, hsuffix, fun x hx => hstep pos hbuilds hx⟩

theorem suffixes_index {obj prop : Node} (hprop : ReadBy .expression prop) (optional : Bool) :
    Suffixes ((if optional then [mark "?."] else []) ++
      mark "[" :: (prop.lexemes ++ [mark "]"])) obj (member obj prop true optional) := by
  intro ts rest hts
  have hstep : ∀ (bracket close : Token) {pos : Position} {kids : List ParseTree} {x : Node},
      BuildsTo (.branch .expression pos kids) prop.regrouped →
      x.unplaced = obj.regrouped.unplaced →
      ∃ m, buildSuffix optional x [.leaf bracket, .branch .expression pos kids, .leaf close] =
        ⟨m, none⟩ ∧ m.unplaced = (member obj prop true optional).regrouped.unplaced := by
    rintro bracket close pos kids x ⟨m, hm, hmap⟩ hx
    refine ⟨.member x m true optional, ?_, by simp only [unplaced, regrouped, hmap, hx]⟩
    rw [buildSuffix, hm]
    rfl
  cases optional with
  | false =>
    obtain ⟨bracket, close, pos, kids, hread, hbuild⟩ := reads_index hprop hts rest
    obtain ⟨t, us, rfl, ht, -⟩ := Spells.cons hts
    refine ⟨_, [.leaf bracket, .branch .expression pos kids, .leaf close],
      reads_rule_takes.2 ⟨_, ?_, rfl⟩, fun x hx => hstep bracket close hbuild hx⟩
    exact Declines.alt (suffix_alternatives.1 (by rw [text_of_bare ht]; decide)) hread.alt
  | true =>
    obtain ⟨t, us, rfl, ht, hus⟩ := Spells.cons hts
    obtain ⟨bracket, close, pos, kids, hread, hbuild⟩ := reads_index hprop hus rest
    obtain ⟨u, us, rfl, hu, -⟩ := Spells.cons hus
    have hpattern : Reads Rule.optionalSuffix.pattern (u :: us ++ rest) _ :=
      Declines.alt (suffix_alternatives.1 (by rw [text_of_bare hu]; decide)) hread.alt
    obtain ⟨spos, opos, hsuffix⟩ := reads_optional ht hpattern
    exact ⟨_, _, hsuffix, fun x hx => hstep bracket close hbuild hx⟩

theorem suffixes_member {obj : Node} {name : Text} (hname : IsName name) (ppos : Position)
    (optional : Bool) :
    Suffixes [if optional then mark "?." else mark ".", ⟨.ident, name⟩] obj
      (member obj (.identifier ppos name) false optional) := by
  intro ts rest hts
  obtain ⟨t, us, rfl, ht, hus⟩ := hts.cons
  obtain ⟨u, rfl, hu⟩ := hus.single
  obtain ⟨pos, kids, hread, m, hm, hmap⟩ := reads_ident hu ppos rest
  cases optional with
  | false =>
    have htext := text_of_bare ht
    refine ⟨_, [.leaf t, .branch .ident pos kids], reads_rule_takes.2 ⟨_, ?_, rfl⟩, fun x hx => ?_⟩
    · refine Declines.alt (suffix_alternatives.1 (by rw [htext]; decide)) ?_
      refine Declines.alt (suffix_alternatives.2.1 (by rw [htext]; decide)) (Reads.alt ?_)
      exact (reads_text_cons (hasText_mark ht) _).seq hread.seq_last
    · refine ⟨.member x m false false, ?_, by simp only [unplaced, regrouped, hmap, hx]⟩
      show buildSuffix false x [.leaf t, .branch .ident pos kids] = _
      rw [buildSuffix, hm]
      rfl
  | true =>
    -- Behind the question mark a name is neither a call nor an index.
    have hpattern : Reads Rule.optionalSuffix.pattern (u :: rest)
        (.takes [.branch .ident pos kids] rest) := by
      have htext : u.text ∉ ["(", "["].map lit := by
        rw [text_of_bare hu]
        exact hname.not_mem (by decide)
      simp only [List.map_cons, List.map_nil, List.mem_cons, List.not_mem_nil, or_false,
        not_or] at htext
      refine Declines.alt (suffix_alternatives.1 htext.1) ?_
      exact Declines.alt (suffix_alternatives.2.1 htext.2) hread.alt
    obtain ⟨spos, opos, hsuffix⟩ := reads_optional ht hpattern
    refine ⟨_, _, hsuffix, fun x hx => ?_⟩
    refine ⟨.member x m false true, ?_, by simp only [unplaced, regrouped, hmap, hx]⟩
    show buildSuffix true x [.branch .ident pos kids] = _
    rw [buildSuffix, hm]
    · rfl
    · simp

/-! ## No unary operator -/

/-- A node is not read as the operation of a unary operator, unless it is the operator itself and an
operand follows. -/
def NotOperator (n : Node) : Prop :=
  ∀ ts rest, Spells ts n.lexemes → (n.isOperatorWord = true → Refuses (.rule .unary) rest) →
    Declines (.seq [.oneOf unaryOperators, .rule .unary]) (ts ++ rest)

/-- A node that starts with no unary operator. -/
theorem notOperator_of_front {n : Node} {b : BareToken} {bs : List BareToken}
    (heq : n.lexemes = b :: bs) (hb : b.text ∉ unaryOperators.map lit) : NotOperator n := by
  intro ts rest hts _
  rw [heq] at hts
  obtain ⟨t, us, rfl, ht, -⟩ := hts.cons
  rw [← text_of_bare ht] at hb
  exact .inl (reads_oneOf_lacks hb).seq_lacks

theorem notOperator_identifier {name : Text} (hname : IsName name) (pos : Position) :
    NotOperator (.identifier pos name) := by
  intro ts rest hts hrest
  by_cases hop : name ∈ unaryOperators.map lit
  · obtain ⟨t, rfl, ht⟩ := hts.single
    have hmarks : name ∉ ["!", "-", "+", "~"].map lit := hname.not_mem (by decide)
    have hword : (identifier pos name).isOperatorWord = true := by
      simpa [isOperatorWord] using (mem_unaryOperators hop).resolve_left hmarks
    have htake : Reads (.oneOf unaryOperators) (t :: rest) (.takes [.leaf t] rest) :=
      reads_oneOf_takes.2 ⟨t, rfl, by rw [cls_of_bare ht]; simp, by rwa [text_of_bare ht], rfl⟩
    refine .inr ⟨rest, Reads.seq_breaks_later htake ?_, isFar_eq_false ?_⟩
    · rcases hrest hword with h | h
      · exact .inr ⟨h.seq_lacks, rfl⟩
      · exact .inl h.seq_breaks
    · simp only [List.cons_append, List.nil_append, List.length_cons, Reader.lookahead]
      omega
  · exact notOperator_of_front rfl hop ts rest hts (fun h => hrest h)

/-- One more call or member access, which is no operand of an operator in front of it. -/
theorem NotOperator.extend {obj n : Node} {tail : List BareToken} (h : NotOperator obj)
    (heq : n.lexemes = obj.lexemes ++ tail)
    (htail : obj.isOperatorWord = true → ∀ ts rest, Spells ts tail →
      Refuses (.rule .unary) (ts ++ rest)) : NotOperator n := by
  intro ts rest hts _
  rw [heq] at hts
  obtain ⟨us, vs, rfl, hus, hvs⟩ := hts.append
  rw [List.append_assoc]
  exact h us (vs ++ rest) hus fun hword => htail hword vs rest hvs

/-- No operand starts with the mark of a member access. -/
theorem refuses_unary_mark {c : BareToken} {cs : List BareToken}
    (hc : c = mark "." ∨ c = mark "?.") {ts : List Token} (hts : Spells ts (c :: cs))
    (rest : List Token) : Refuses (.rule .unary) (ts ++ rest) := by
  obtain ⟨t, us, rfl, ht, -⟩ := hts.cons
  have hstart : StartsNothing t := by
    rcases hc with rfl | rfl <;>
      exact ⟨by rw [cls_of_bare ht]; decide, by rw [text_of_bare ht]; decide⟩
  exact .inl (hstart.unary_lacks _)

/-- Arguments that are no expression in parentheses. -/
theorem paren_declines {args : List Node} (hkeeps : keepsCall args = true)
    (hargs : ∀ x ∈ args, x.kind = .spread ∨ ReadBy .expression x) (hformed : ∀ x ∈ args, Formed x)
    {ts : List Token} (hts : Spells ts (mark "(" :: (commaTokens (lexemesAll args) ++ [mark ")"])))
    (rest : List Token) :
    Declines (.seq [.text (lit "("), .rule .expression, .text (lit ")")]) (ts ++ rest) := by
  obtain ⟨paren, us, rfl, hparen, hus⟩ := hts.cons
  have hopen := reads_text_cons (hasText_mark hparen) (us ++ rest)
  -- Without a first expression the parentheses break off behind the first one of them.
  have hnothing : ∀ {t : Token} {vs : List Token}, us = t :: vs → StartsNothing t →
      Declines (.seq [.text (lit "("), .rule .expression, .text (lit ")")])
        (paren :: us ++ rest) := by
    rintro t vs rfl ht
    have hbreak : Reads (.seq [.rule .expression, .text (lit ")")]) (t :: (vs ++ rest))
        (.breaks (t :: (vs ++ rest))) := (ht.expression_breaks (vs ++ rest)).seq_breaks
    refine .inr ⟨t :: (vs ++ rest), Reads.seq_breaks_later hopen (.inl hbreak), isFar_eq_false ?_⟩
    simp only [List.cons_append, List.length_cons, Reader.lookahead]
    omega
  cases args with
  | nil =>
    obtain ⟨close, vs, rfl, hclose, -⟩ := Spells.cons hus
    exact hnothing rfl (startsNothing_of_mem_closers (by rw [hclose]; decide))
  | cons x args =>
    rw [commaTokens_cons, List.append_assoc] at hus
    obtain ⟨vs, ws, rfl, hvs, hws⟩ := hus.append
    by_cases hspread : x.kind = .spread
    · have hx := hformed x (List.mem_cons_self ..)
      cases hx <;> simp [kind] at hspread
      rw [lexemes] at hvs
      obtain ⟨t, vs, rfl, ht, -⟩ := hvs.cons
      refine hnothing rfl ⟨by rw [cls_of_bare ht]; decide, by rw [text_of_bare ht]; decide⟩
    · -- The first argument is read, and a comma is found behind it.
      simp only [keepsCall, hspread, decide_false, Bool.false_or, Bool.and_eq_true,
        decide_eq_true_eq, Bool.not_eq_true'] at hkeeps
      have hread := (hargs x (List.mem_cons_self ..)).resolve_left hspread
      cases args with
      | nil => simp at hkeeps
      | cons y args =>
        rw [List.flatMap_cons, List.cons_append, List.cons_append] at hws
        obtain ⟨comma, ws, rfl, hcomma, -⟩ := hws.cons
        obtain ⟨pos, kids, hx, -⟩ := hread vs (comma :: (ws ++ rest)) hvs
          ⟨comma, _, rfl, by rw [hcomma]; decide⟩
        have hlack : Reads (.seq [.text (lit ")")]) (comma :: (ws ++ rest)) .lacks :=
          (reads_text_lacks (hasText_eq_false (by rw [text_of_bare hcomma]; decide))).seq_lacks
        rw [List.append_assoc, List.cons_append] at hopen
        refine .inr ⟨comma :: (ws ++ rest), ?_, isFar_eq_false ?_⟩
        · rw [List.cons_append, List.append_assoc, List.cons_append]
          exact Reads.seq_breaks_later hopen
            (.inl (Reads.seq_breaks_later hx (.inr ⟨hlack, rfl⟩)))
        · have hlength : vs.length = x.lexemes.length := by rw [← hvs, List.length_map]
          simp only [List.cons_append, List.length_cons, List.length_append]
          omega

/-- Arguments that are no operand. -/
theorem refuses_unary_args {args : List Node} (hkeeps : keepsCall args = true)
    (hargs : ∀ x ∈ args, x.kind = .spread ∨ ReadBy .expression x) (hformed : ∀ x ∈ args, Formed x)
    {ts : List Token} (hts : Spells ts (mark "(" :: (commaTokens (lexemesAll args) ++ [mark ")"])))
    (rest : List Token) : Refuses (.rule .unary) (ts ++ rest) := by
  have hparen := paren_declines hkeeps hargs hformed hts rest
  obtain ⟨t, us, rfl, ht, -⟩ := hts.cons
  have htext : t.text = lit "(" := text_of_bare ht
  have hcls : t.cls = .punct := cls_of_bare ht
  have hprimary : Refuses (.rule .primary) (t :: us ++ rest) := by
    refine Refuses.rule (refuses_alt fun p hp => ?_)
    simp only [List.mem_cons, List.not_mem_nil, or_false] at hp
    -- Of the eight operands only the one in parentheses starts with this mark.
    rcases hp with rfl | rfl | rfl | rfl | rfl | rfl | rfl | rfl
    · exact .inl (reads_oneOf_lacks (by rw [htext]; decide))
    · exact .inl (reads_token_lacks (by rw [hcls]; decide))
    · exact .inl (reads_token_lacks (by rw [hcls]; decide))
    · exact .inl (Reads.rule (a := .lacks) (reads_token_lacks (by rw [hcls]; decide)).seq_lacks)
    · exact .inl (Reads.rule (a := .lacks)
        (reads_text_lacks (hasText_eq_false (by rw [htext]; decide))).seq_lacks)
    · exact .inl (Reads.rule (a := .lacks)
        (reads_text_lacks (hasText_eq_false (by rw [htext]; decide))).seq_lacks)
    · exact hparen
    · exact .inl (reads_token_lacks (by rw [hcls]; decide))
  refine Refuses.rule (refuses_alt fun p hp => ?_)
  simp only [List.mem_cons, List.not_mem_nil, or_false] at hp
  rcases hp with rfl | rfl
  · exact .inl (reads_oneOf_lacks (by rw [htext]; decide)).seq_lacks
  · exact Declines.rule hprimary.declines.seq

/-! ## Operands -/

/-- A node is read as an operand in front of what may follow it. -/
def ReadsOperand (n : Node) : Prop :=
  ∀ ts rest, Spells ts n.lexemes → Follows n rest → Yields .unary (ts ++ rest) rest n.regrouped

/-- What follows a word that is a unary operator is no operand. -/
theorem Follows.refuses {n : Node} {rest : List Token} (h : Follows n rest)
    (hn : n.endsBare = true) : Refuses (.rule .unary) rest := by
  obtain ⟨t, more, rfl, ht | ⟨op, hop, ht, hclash⟩⟩ := h
  · exact .inl ((startsNothing_of_mem_closers ht).unary_lacks more)
  · exact .inl ((startsNothing_of_sign hop (hclash hn) ht).unary_lacks more)

/-- A primary with calls and member accesses is an operand. -/
theorem HasSuffixes.readsOperand {n : Node} (h : HasSuffixes n) (hop : NotOperator n) :
    ReadsOperand n := by
  intro ts rest hts hrest
  obtain ⟨pos, kids, mid, x, trees, m, hread, hbuild, hrep, hm, hn⟩ := h ts rest hts
  have hend : Declines (.rule .suffix) rest := by
    obtain ⟨t, more, rfl, ht, -⟩ := hrest.front
    exact .inl (suffix_lacks ht more)
  have hsuffixed : Reads (.rule .suffixed) (ts ++ rest)
      (.takes [.branch .suffixed (startOf (ts ++ rest))
        ([ParseTree.branch .primary pos kids] ++ trees)] rest) :=
    reads_rule_takes.2 ⟨_, hread.seq (hrep.reads_many rfl hend).seq_last, rfl⟩
  refine yields_of_reads _ (Declines.alt (hop ts rest hts fun hword => ?_) hsuffixed.alt)
    fun p => ⟨m, ?_, hn⟩
  · refine hrest.refuses ?_
    cases n <;> simp [isOperatorWord] at hword
    simpa [endsBare] using hword
  · rw [build, List.singleton_append, build, hbuild]
    exact hm

/-- A unary operation is an operand. -/
theorem readsOperand_unary {op : Text} {x : Node} (hop : op ∈ unaryOperators.map lit)
    (hx : ReadsOperand x) (pos : Position) : ReadsOperand (.unary pos op x) := by
  intro ts rest hts hrest
  rw [lexemes] at hts
  obtain ⟨t, us, rfl, ht, hus⟩ := hts.cons
  have htext : t.text = op := text_of_bare ht
  have hcls : t.cls ≠ .eof := by
    rw [cls_of_bare ht, sign]
    simp only
    split <;> simp
  obtain ⟨xpos, kids, hread, m, hm, hmx⟩ := hx us rest hus hrest
  have htake : Reads (.oneOf unaryOperators) (t :: (us ++ rest)) (.takes [.leaf t] (us ++ rest)) :=
    reads_oneOf_takes.2 ⟨t, rfl, hcls, by rwa [htext], rfl⟩
  refine yields_of_reads _ (htake.seq hread.seq_last).alt fun p => ⟨.unary p t.text m, ?_, ?_⟩
  · rw [List.singleton_append, build, hm]
    rfl
  · simp only [unplaced, regrouped, hmx, htext]

/-! ## Chains -/

/-- A node is read as a chain of operands in front of what may follow it. -/
def ReadsChain (n : Node) : Prop :=
  ∀ ts rest, Spells ts n.lexemes → Follows n rest → ∃ pos kids mid links,
    Reads (.rule .unary) (ts ++ rest) (.takes [.branch .unary pos kids] mid) ∧
    BuildsTo (.branch .unary pos kids) n.chainHead.regrouped ∧
    Repeats (.rule .binaryOp) mid links rest ∧
    links.filterMap operator? = n.chainLinks.map Prod.fst ∧
    Builds links (n.chainLinks.map fun link => link.2.regrouped)

/-- An operand is a chain by itself. -/
theorem ReadsOperand.readsChain {n : Node} (h : ReadsOperand n) (hn : n.isBinary = false) :
    ReadsChain n := by
  intro ts rest hts hrest
  obtain ⟨pos, kids, hread, hbuild⟩ := h ts rest hts hrest
  rw [chainHead_of_not_binary hn, chainLinks_of_not_binary hn]
  exact ⟨pos, kids, rest, [], hread, hbuild, .nil, rfl, .nil⟩

/-- Two chains with an operator between them are a chain. -/
theorem readsChain_binary {left right : Node} {op : Text} (hop : op ∈ binaryOperators.map lit)
    (hclash : left.endsBare = true → op ∉ clashingOperators) (hleft : ReadsChain left)
    (hright : ReadsChain right) : ReadsChain (.binary left op right) := by
  intro ts rest hts hrest
  rw [lexemes] at hts
  obtain ⟨us, vs, rfl, hus, hvs⟩ := hts.append
  obtain ⟨t, vs, rfl, ht, hvs⟩ := hvs.cons
  have htext : t.text = op := text_of_bare ht
  have hcls : t.cls ≠ .eof := by
    rw [cls_of_bare ht, sign]
    simp only
    split <;> simp
  obtain ⟨lpos, lkids, lmid, llinks, hl, hlhead, hlrep, hlops, hlbuilds⟩ :=
    hleft us (t :: (vs ++ rest)) hus ⟨t, _, rfl, .inr ⟨op, hop, ht, hclash⟩⟩
  obtain ⟨rpos, rkids, rmid, rlinks, hr, ⟨m, hm, hmr⟩, hrrep, hrops, hrbuilds⟩ :=
    hright vs rest hvs hrest
  have htake : Reads (.oneOf binaryOperators) (t :: (vs ++ rest)) (.takes [.leaf t] (vs ++ rest)) :=
    reads_oneOf_takes.2 ⟨t, rfl, hcls, by rwa [htext], rfl⟩
  -- The operator and the first operand of the right chain are one more link of the left chain.
  have hlink : Reads (.rule .binaryOp) (t :: (vs ++ rest))
      (.takes [.branch .binaryOp (startOf (t :: (vs ++ rest))) [.leaf t, .branch .unary rpos rkids]]
        rmid) := reads_rule_takes.2 ⟨_, htake.seq hr.seq_last, rfl⟩
  refine ⟨lpos, lkids, lmid, llinks ++ ([_] ++ rlinks), ?_, hlhead,
    hlrep.trans (.cons hlink hrrep), ?_, ?_⟩
  · rw [List.append_assoc]
    exact hl
  · rw [List.filterMap_append, List.filterMap_append, hlops, hrops, chainLinks, List.map_append]
    simp [operator?, htext]
  · have hbuild : BuildsTo (.branch .binaryOp (startOf (t :: (vs ++ rest)))
        [.leaf t, .branch .unary rpos rkids]) right.chainHead.regrouped :=
      ⟨m, by rw [build, hm], hmr⟩
    rw [chainLinks, List.map_append]
    exact hlbuilds.append (Builds.branch hbuild hrbuilds)

/-! ## Expressions -/

/-- A chain is an expression, nested by the precedence of its operators. -/
theorem ReadsChain.readBy {n : Node} (h : ReadsChain n) (hn : Formed n) (hchain : n.isChain = true)
    (hreach : n.arrowReach ≤ Reader.lookahead) : ReadBy .expression n := by
  intro ts rest hts hrest
  obtain ⟨pos, kids, mid, links, hread, ⟨x, hx, hxn⟩, hrep, hops, ms, hms, hmap⟩ :=
    h ts rest hts (hrest.follows n)
  obtain ⟨close, more, rfl, hclose⟩ := hrest
  have hall : ∀ b ∈ closers, b.text ∉ binaryOperators.map lit ∧ b.text ≠ lit "=>" ∧
      b.text ≠ lit "(" ∧ b.cls ≠ .ident := by decide
  obtain ⟨hbinary, harrow, hparen, hcls⟩ := hall _ hclose
  have hend : Declines (.rule .binaryOp) (close :: more) := .inl (binaryOp_lacks hbinary more)
  have hreads : Reads (.rule .binaryChain) (ts ++ close :: more)
      (.takes [.branch .binaryChain (startOf (ts ++ close :: more))
        ([ParseTree.branch .unary pos kids] ++ links)] (close :: more)) :=
    reads_rule_takes.2 ⟨_, hread.seq (hrep.reads_many rfl hend).seq_last, rfl⟩
  -- A function is tried first, and its arrow is missed within the lookahead.
  have hdecline : Declines (.rule .arrowFunction) (ts ++ close :: more) :=
    hn.arrow_declines hchain hreach hts ⟨close, more, rfl, harrow⟩
      fun _ => ⟨close, more, rfl, hparen, fun h => absurd h hcls⟩
  refine yields_of_reads _ (Declines.alt hdecline hreads.alt) fun p => ?_
  refine ⟨Operator.fold x ((n.chainLinks.map Prod.fst).zip ms), ?_, ?_⟩
  · rw [build, List.singleton_append, build, hx, Checked.bind_ok, hms, Checked.bind_ok, hops]
    rfl
  · -- Both sides are the fold of the operands without their places.
    have hg : ∀ left op right, (binary left op right).unplaced =
        .binary left.unplaced op right.unplaced := fun _ _ _ => rfl
    have hg' : ∀ left op right, (binary left op right).regrouped =
        .binary left.regrouped op right.regrouped := fun _ _ _ => rfl
    have hlinks : ((n.chainLinks.map Prod.fst).zip ms).map (fun link => (link.1, link.2.unplaced)) =
        (n.chainLinks.map fun link => (link.1, link.2.regrouped)).map
          fun link => (link.1, link.2.unplaced) := by
      have hzip : ((n.chainLinks.map Prod.fst).zip ms).map
          (fun link => (link.1, link.2.unplaced)) =
          (n.chainLinks.map Prod.fst).zip (ms.map unplaced) := by
        rw [List.zip_map_right]
        rfl
      rw [hzip, hmap, List.map_map, List.map_map]
      exact List.zip_map'
    calc (Operator.fold x ((n.chainLinks.map Prod.fst).zip ms)).unplaced
        = Operator.fold x.unplaced (((n.chainLinks.map Prod.fst).zip ms).map
            fun link => (link.1, link.2.unplaced)) := (Operator.fold_map unplaced hg _ _).symm
      _ = Operator.fold n.chainHead.regrouped.unplaced
            ((n.chainLinks.map fun link => (link.1, link.2.regrouped)).map
              fun link => (link.1, link.2.unplaced)) := by rw [hxn, hlinks]
      _ = (Operator.fold n.chainHead.regrouped
            (n.chainLinks.map fun link => (link.1, link.2.regrouped))).unplaced :=
          Operator.fold_map unplaced hg _ _
      _ = (Operator.fold n.chainHead n.chainLinks).regrouped.unplaced := by
          rw [Operator.fold_map regrouped hg']
      _ = n.regrouped.unplaced := by rw [Operator.fold_chain hn.nested]

theorem readBy_paren {x : Node} (hx : Formed x) (hentire : x.isEntire = true)
    (h : ReadBy .expression x) (pos : Position) : ReadBy .expression (.paren pos x) := by
  have hoperand := (isPrimary_paren h pos).hasSuffixes.readsOperand
    (notOperator_of_front rfl (by decide))
  exact (hoperand.readsChain rfl).readBy (.paren hx hentire) rfl (Nat.zero_le _)

/-- An expression that printing may put in parentheses. -/
theorem yields_bracketed {x : Node} (hx : Formed x) (hentire : x.isEntire = true)
    (h : ReadBy .expression x) {needed : Bool} {ts rest : List Token}
    (hts : Spells ts (bracketed needed x.lexemes)) (hrest : Ends rest) :
    Yields .expression (ts ++ rest) rest (grouped needed x.regrouped) := by
  cases needed with
  | false => exact h ts rest hts hrest
  | true => exact readBy_paren hx hentire h .unknown ts rest hts hrest

/-- A parameter is a name. -/
theorem IsParam.readBy {p : Node} (h : IsParam p) : ReadBy .ident p := by
  obtain ⟨pos, name, rfl, hname⟩ := h
  intro ts rest hts _
  obtain ⟨t, rfl, ht⟩ := hts.single
  exact reads_ident ht pos rest

/-- Parameters in parentheses. -/
theorem reads_params {params : List Node} (hparams : ∀ p ∈ params, IsParam p) {ts : List Token}
    (hts : Spells ts (mark "(" :: (commaTokens (lexemesAll params) ++ [mark ")"])))
    (rest : List Token) : ∃ paren kids, paren.bare = mark "(" ∧
      Reads arrowHead (ts ++ rest) (.takes (.leaf paren :: kids) rest) ∧
      Builds kids (params.map regrouped) := by
  obtain ⟨paren, us, rfl, hparen, hus⟩ := hts.cons
  obtain ⟨vs, ws, rfl, hvs, hws⟩ := hus.append
  obtain ⟨close, rfl, hclose⟩ := hws.single
  have hnone : Declines (.rule .ident) (close :: rest) :=
    .inl (Reads.rule (a := .lacks) (reads_token_lacks (by rw [cls_of_bare hclose]; decide)))
  have hcomma : ∀ t ∈ (close :: rest).head?, t.text ≠ lit "," := by
    intro t ht
    obtain rfl := Option.some.inj ht
    rw [text_of_bare hclose]
    decide
  obtain ⟨trees, hlist, hbuilds⟩ := reads_commaList (fun p hp => (hparams p hp).readBy) hvs
    ⟨close, rest, rfl, by rw [hclose]; decide⟩ hnone hcomma
  refine ⟨paren, trees ++ [ParseTree.leaf close], hparen, ?_, ?_⟩
  · rw [List.cons_append, List.append_assoc, List.singleton_append]
    exact ((reads_text_cons (hasText_mark hparen) _).seq
      (hlist.seq (reads_text_cons (hasText_mark hclose) rest).seq_last)).alt
  · have := hbuilds.append (Builds.nil.leaf close)
    rwa [List.append_nil] at this

/-- What the parts of a function are built into. -/
theorem buildsTo_function {params : List Node} {body : Node} {async : Bool} {kids : List ParseTree}
    (h : Builds kids (params.map regrouped ++ [grouped (body.kind = .object) body.regrouped]))
    (hasync : startsAsync kids = async) (pos fpos : Position) :
    BuildsTo (.branch .arrowFunction pos kids) (.regrouped (.function fpos params body async)) := by
  obtain ⟨ms, hms, hmap⟩ := h
  rw [List.map_append] at hmap
  obtain ⟨ps, bs, rfl, hps, hbs⟩ := List.map_eq_append_iff.1 hmap
  obtain ⟨m, ns, rfl, hm, hns⟩ := List.map_eq_cons_iff.1 hbs
  obtain rfl : ns = [] := List.map_eq_nil_iff.1 hns
  refine ⟨.function pos ps m async, ?_, ?_⟩
  · rw [build, hms, Checked.bind_ok, hasync, List.dropLast_concat, List.getLastD_concat]
    rfl
  · simp only [unplaced, regrouped, unplacedAll_eq_map, regroupedAll_eq_map, hps, hm]

/-- A function is an expression. -/
theorem readBy_function {params : List Node} {body : Node} (hparams : ∀ p ∈ params, IsParam p)
    (hbody : Formed body) (hentire : body.isEntire = true) (h : ReadBy .expression body)
    (pos : Position) (async : Bool) : ReadBy .expression (.function pos params body async) := by
  intro ts rest hts hrest
  rw [lexemes, lexemes_params hparams] at hts
  have hts' : Spells ts ((if async then [⟨.ident, asyncWord⟩] else []) ++
      ((mark "(" :: (commaTokens (lexemesAll params) ++ [mark ")"])) ++
        mark "=>" :: bracketed (body.kind = .object) body.lexemes)) := by
    simpa using hts
  obtain ⟨as, us, rfl, has, hus⟩ := hts'.append
  obtain ⟨vs, ws, rfl, hvs, hws⟩ := hus.append
  obtain ⟨arrow, ws, rfl, harrow, hws⟩ := hws.cons
  obtain ⟨paren, kids, hparen, hhead, hbuilds⟩ :=
    reads_params hparams hvs (arrow :: (ws ++ rest))
  obtain ⟨bpos, bkids, hread, hbuild⟩ := yields_bracketed hbody hentire h hws hrest
  have htail := hhead.seq ((reads_text_cons (hasText_mark harrow) _).seq hread.seq_last)
  have hkids := hbuilds.append ((Builds.branch hbuild .nil).leaf arrow)
  have hstart : ∃ t zs, vs = t :: zs ∧ t.bare = mark "(" := by
    obtain ⟨t, zs, rfl, ht, -⟩ := hvs.cons
    exact ⟨t, zs, rfl, ht⟩
  rw [List.append_assoc, List.append_assoc, List.cons_append]
  -- The marker word is taken if it is there.
  have hfunction : ∃ all, Reads Rule.arrowFunction.pattern (as ++ (vs ++ arrow :: (ws ++ rest)))
      (.takes all rest) ∧ startsAsync all = async ∧
      Builds all (params.map regrouped ++ [grouped (body.kind = .object) body.regrouped]) := by
    cases async with
    | false =>
      obtain rfl := Spells.nil has
      obtain ⟨t, zs, rfl, ht⟩ := hstart
      have hnone : Reads (.opt (.text (lit "async"))) (t :: zs ++ arrow :: (ws ++ rest))
          (.takes [] (t :: zs ++ arrow :: (ws ++ rest))) :=
        (reads_text_lacks (hasText_eq_false (by rw [text_of_bare ht]; decide))).opt_lacks
      refine ⟨_, hnone.seq htail, ?_, hkids.leaf paren⟩
      have htext : paren.text = lit "(" := text_of_bare hparen
      show decide (paren.text = lit "async") = false
      rw [htext]
      decide
    | true =>
      obtain ⟨word, rfl, hword⟩ := Spells.single has
      have htake := (reads_text_cons (t := lit "async")
        (hasText_eq_true.2 ⟨by rw [cls_of_bare hword]; decide, text_of_bare hword⟩)
        (vs ++ arrow :: (ws ++ rest))).opt
      refine ⟨_, htake.seq htail, ?_, (hkids.leaf paren).leaf word⟩
      exact decide_eq_true (text_of_bare hword)
  obtain ⟨all, hall, hasync, hbuildsAll⟩ := hfunction
  refine yields_of_reads _ (Reads.alt (reads_rule_takes.2 ⟨all, hall, rfl⟩)) fun p => ?_
  obtain ⟨m, hm, hmn⟩ := buildsTo_function hbuildsAll hasync
    (startOf (as ++ (vs ++ arrow :: (ws ++ rest)))) pos
  exact ⟨m, by rw [build, hm], hmn⟩

/-! ## Elements and members -/

/-- An expression is an element. -/
theorem readBy_element {x : Node} (hx : Formed x) (hentire : x.isEntire = true)
    (h : ReadBy .expression x) : ReadBy .element x := by
  intro ts rest hts hrest
  obtain ⟨b, bs, hb⟩ := hx.begins (isEntire_iff.1 hentire).1
  obtain ⟨pos, kids, hread, m, hm, hmx⟩ := h ts rest hts hrest
  obtain ⟨t, us, rfl, ht, -⟩ := hb.spelled hts
  have hdots : t.text ≠ lit "..." := by
    intro htext
    refine hb.text ?_
    rw [← text_of_bare ht, htext]
    decide
  have hnone : Reads (.opt (.text (lit "..."))) (t :: us ++ rest) (.takes [] (t :: us ++ rest)) :=
    (reads_text_lacks (hasText_eq_false hdots)).opt_lacks
  refine yields_of_reads _ (hnone.seq hread.seq_last) fun p => ⟨m, ?_, hmx⟩
  rw [List.nil_append, build, hm]

theorem readBy_element_spread {x : Node} (h : ReadBy .expression x) (pos : Position) :
    ReadBy .element (.spread pos x) := by
  intro ts rest hts hrest
  rw [lexemes] at hts
  obtain ⟨t, us, rfl, ht, hus⟩ := hts.cons
  obtain ⟨xpos, kids, hread, m, hm, hmx⟩ := h us rest hus hrest
  have htake := (reads_text_cons (hasText_mark ht) (us ++ rest)).opt
  refine yields_of_reads _ (htake.seq hread.seq_last) fun p => ⟨.spread p m, ?_, ?_⟩
  · rw [List.singleton_append, build, hm]
    rfl
  · simp only [unplaced, regrouped, hmx]

theorem readBy_member_spread {x : Node} (h : ReadBy .expression x) (pos : Position) :
    ReadBy .objectMember (.spread pos x) := by
  intro ts rest hts hrest
  rw [lexemes] at hts
  obtain ⟨t, us, rfl, ht, hus⟩ := hts.cons
  obtain ⟨xpos, kids, hread, m, hm, hmx⟩ := h us rest hus hrest
  have htake := reads_text_cons (hasText_mark ht) (us ++ rest)
  refine yields_of_reads _ (htake.seq hread.seq_last).alt fun p => ⟨.spread p m, ?_, ?_⟩
  · rw [List.singleton_append, build, hm]
    rfl
  · simp only [unplaced, regrouped, hmx]

/-- A property is a member. -/
theorem Yields.objectMember {ts rest : List Token} {n : Node} (h : Yields .property ts rest n)
    (hdots : ∀ t ∈ ts.head?, t.text ≠ lit "...") : Yields .objectMember ts rest n := by
  obtain ⟨pos, kids, hread, m, hm, hmn⟩ := h
  have hdecline : Declines (.seq [.text (lit "..."), .rule .expression]) ts := by
    cases ts with
    | nil => exact .inl (Reads.seq_lacks ⟨1, rfl⟩)
    | cons t ts => exact .inl (reads_text_lacks (hasText_eq_false (hdots t rfl))).seq_lacks
  refine yields_of_reads _ (Declines.alt hdecline hread.alt) fun p => ⟨m, ?_, hmn⟩
  rw [build, hm]

/-- A plain key is a single token. -/
theorem PlainKey.reads {key : Node} (h : PlainKey key) {ts : List Token}
    (hts : Spells ts key.lexemes) (rest : List Token) :
    ∃ t kpos, ts = [t] ∧ t.text ≠ lit "..." ∧
      Reads (.rule .propertyKey) (t :: rest) (.takes [.branch .propertyKey kpos [.leaf t]] rest) ∧
      ∃ m, keyNode kpos t = ⟨m, none⟩ ∧ m.unplaced = key.regrouped.unplaced := by
  have hmarks : ∀ u ∈ ["...", "["].map lit, ¬ IsName u ∧ ¬ IsNumber u ∧ ¬ IsString u := by
    decide
  -- The rule tries a computed key first.
  have hbracket : ∀ {t : Token} {ts : List Token}, t.text ∉ ["...", "["].map lit →
      Declines (.seq [.text (lit "["), .rule .expression, .text (lit "]")]) (t :: ts) := by
    intro t ts ht
    simp only [List.map_cons, List.map_nil, List.mem_cons, List.not_mem_nil, or_false,
      not_or] at ht
    exact .inl (reads_text_lacks (hasText_eq_false ht.2)).seq_lacks
  cases h with
  | @name pos name hname =>
    obtain ⟨t, rfl, ht⟩ := hts.single
    have hcls : t.cls = .ident := cls_of_bare ht
    have htext : t.text ∉ ["...", "["].map lit := fun h => (hmarks _ h).1 (by rwa [text_of_bare ht])
    refine ⟨t, _, rfl, fun h => htext (by simp [h]), reads_rule_takes.2 ⟨_, ?_, rfl⟩,
      .identifier _ t.text, by rw [keyNode, hcls]; rfl, by rw [text_of_bare ht]; rfl⟩
    refine Declines.alt (hbracket htext) ?_
    refine Declines.alt (.inl (reads_token_lacks (by rw [hcls]; decide))) ?_
    refine Declines.alt (.inl (reads_token_lacks (by rw [hcls]; decide))) ?_
    exact (reads_token_cons hcls rest).alt
  | @string pos value raw hraw hvalue =>
    obtain ⟨t, rfl, ht⟩ := hts.single
    have hcls : t.cls = .string := cls_of_bare ht
    have htext : t.text ∉ ["...", "["].map lit :=
      fun h => (hmarks _ h).2.2 (by rwa [text_of_bare ht])
    refine ⟨t, _, rfl, fun h => htext (by simp [h]), reads_rule_takes.2 ⟨_, ?_, rfl⟩,
      .stringLiteral (startOf (t :: rest)) value t.text, ?_, by rw [text_of_bare ht]; rfl⟩
    · exact Declines.alt (hbracket htext) (reads_token_cons hcls rest).alt
    · rw [keyNode, hcls]
      simp only
      rw [stringNode, text_of_bare ht, hvalue]
      rfl
  | @number pos raw hraw =>
    obtain ⟨t, rfl, ht⟩ := hts.single
    have hcls : t.cls = .number := cls_of_bare ht
    have htext : t.text ∉ ["...", "["].map lit :=
      fun h => (hmarks _ h).2.1 (by rwa [text_of_bare ht])
    refine ⟨t, _, rfl, fun h => htext (by simp [h]), reads_rule_takes.2 ⟨_, ?_, rfl⟩,
      .numberLiteral _ t.text, by rw [keyNode, hcls]; rfl, by rw [text_of_bare ht]; rfl⟩
    refine Declines.alt (hbracket htext) ?_
    refine Declines.alt (.inl (reads_token_lacks (by rw [hcls]; decide))) ?_
    exact (reads_token_cons hcls rest).alt

/-- A property without a value. -/
theorem readBy_shorthand {name : Text} (hname : IsName name) (pos kpos vpos : Position) :
    ReadBy .objectMember
      (.property pos (.identifier kpos name) (.identifier vpos name) false true) := by
  intro ts rest hts hrest
  have hshort : (property pos (.identifier kpos name) (.identifier vpos name) false true).lexemes =
      (Node.identifier kpos name).lexemes := by
    simp [lexemes, isShorthand]
  rw [hshort] at hts
  have hkey : PlainKey (.identifier kpos name) := .name hname
  obtain ⟨t, tpos, rfl, hdots, hread, -⟩ := hkey.reads hts rest
  have ht : t.bare = ⟨.ident, name⟩ := by simpa [Spells, lexemes] using hts
  have hnone : Reads (.opt (.seq [.text (lit ":"), .rule .expression])) rest (.takes [] rest) := by
    obtain ⟨close, more, rfl, hclose⟩ := hrest
    have hall : ∀ b ∈ closers, b.text ≠ lit ":" := by decide
    exact (reads_text_lacks (hasText_eq_false (hall _ hclose))).seq_lacks.opt_lacks
  refine Yields.objectMember (yields_of_reads _ (hread.seq hnone.seq_last) fun p => ?_) ?_
  · refine ⟨.property p (.identifier tpos t.text) (.identifier tpos t.text) false true, ?_, ?_⟩
    · rw [List.append_nil, build, keyNode, cls_of_bare ht]
      rfl
    · rw [text_of_bare ht]
      rfl
  · intro u hu
    obtain rfl := Option.some.inj hu
    exact hdots

/-- The value of a property behind its key. -/
theorem reads_value {value : Node} (hvalue : ReadBy .expression value) {ts rest : List Token}
    (hts : Spells ts (mark ":" :: value.lexemes)) (hrest : Ends rest) :
    ∃ colon pos kids, Reads (.opt (.seq [.text (lit ":"), .rule .expression])) (ts ++ rest)
        (.takes [.leaf colon, .branch .expression pos kids] rest) ∧
      BuildsTo (.branch .expression pos kids) value.regrouped := by
  obtain ⟨colon, us, rfl, hcolon, hus⟩ := hts.cons
  obtain ⟨pos, kids, hread, hbuild⟩ := hvalue us rest hus hrest
  have htake := reads_text_cons (hasText_mark hcolon) (us ++ rest)
  exact ⟨colon, pos, kids, (htake.seq hread.seq_last).opt, hbuild⟩

/-- A property with a plain key. -/
theorem readBy_property {key value : Node} (hkey : PlainKey key)
    (hvalue : ReadBy .expression value) (pos : Position) :
    ReadBy .objectMember (.property pos key value false false) := by
  intro ts rest hts hrest
  have hlong : (property pos key value false false).lexemes =
      key.lexemes ++ mark ":" :: value.lexemes := by
    simp [lexemes, isShorthand]
  rw [hlong] at hts
  obtain ⟨us, vs, rfl, hus, hvs⟩ := hts.append
  obtain ⟨t, tpos, rfl, hdots, hread, k, hk, hkn⟩ := hkey.reads hus (vs ++ rest)
  obtain ⟨colon, vpos, kids, hcolon, m, hm, hmn⟩ := reads_value hvalue hvs hrest
  refine Yields.objectMember (yields_of_reads _ (hread.seq hcolon.seq_last) fun p => ?_) ?_
  · refine ⟨.property p k m false false, ?_, by simp only [unplaced, regrouped, hkn, hmn]⟩
    rw [List.singleton_append, build, hk, Checked.bind_ok, hm]
    rfl
  · intro u hu
    obtain rfl := Option.some.inj hu
    exact hdots

/-- A property with a computed key. -/
theorem readBy_computed {key value : Node} (hkey : ReadBy .expression key)
    (hvalue : ReadBy .expression value) (pos : Position) :
    ReadBy .objectMember (.property pos key value true false) := by
  intro ts rest hts hrest
  have hlong : (property pos key value true false).lexemes =
      (mark "[" :: (key.lexemes ++ [mark "]"])) ++ mark ":" :: value.lexemes := by
    simp [lexemes, isShorthand]
  rw [hlong] at hts
  obtain ⟨us, vs, rfl, hus, hvs⟩ := hts.append
  obtain ⟨bracket, close, kpos, kkids, hread, k, hk, hkn⟩ := reads_index hkey hus (vs ++ rest)
  obtain ⟨colon, vpos, kids, hcolon, m, hm, hmn⟩ := reads_value hvalue hvs hrest
  have hpart : Reads (.rule .propertyKey) (us ++ (vs ++ rest))
      (.takes [.branch .propertyKey (startOf (us ++ (vs ++ rest)))
        [.leaf bracket, .branch .expression kpos kkids, .leaf close]] (vs ++ rest)) :=
    reads_rule_takes.2 ⟨_, hread.alt, rfl⟩
  rw [List.append_assoc]
  refine Yields.objectMember (yields_of_reads _ (hpart.seq hcolon.seq_last) fun p => ?_) ?_
  · refine ⟨.property p k m true false, ?_, by simp only [unplaced, regrouped, hkn, hmn]⟩
    rw [List.singleton_append, build, hk, Checked.bind_ok, hm]
    rfl
  · obtain ⟨t, us, rfl, ht, -⟩ := hus.cons
    intro u hu
    obtain rfl := Option.some.inj hu
    rw [text_of_bare ht]
    decide

/-! ## All expressions -/

/-- A node is read wherever its kind may stand. -/
structure Readable (n : Node) : Prop where
  /-- As a primary with suffixes. -/
  suffixed : n.isSuffixed = true → HasSuffixes n ∧ NotOperator n
  /-- As an operand. -/
  operand : n.isOperand = true → ReadsOperand n
  /-- As a chain. -/
  chain : n.isChain = true → ReadsChain n
  /-- As an expression. -/
  expression : n.isEntire = true → ReadBy .expression n
  /-- As an element of a list. -/
  element : n.isElement = true → ReadBy .element n
  /-- As a member of an object. -/
  member : n.fits .objectMember = true → ReadBy .objectMember n

theorem readable_chain {n : Node} (hn : Formed n) (hchain : n.isChain = true) (h : ReadsChain n)
    (hoperand : n.isOperand = true → ReadsOperand n)
    (hsuffixed : n.isSuffixed = true → HasSuffixes n ∧ NotOperator n) : Readable n := by
  have hexpr : n.isEntire = true → ReadBy .expression n :=
    fun hentire => h.readBy hn hchain (isEntire_iff.1 hentire).2
  refine ⟨hsuffixed, hoperand, fun _ => h, hexpr, fun helement => ?_, fun hmember => ?_⟩
  · rcases isElement_iff.1 helement with hentire | hspread
    · exact readBy_element hn hentire (hexpr hentire)
    · simp [isChain, isOperand, isSuffixed, hspread] at hchain
  · cases n <;> simp [fits, kind] at hmember <;>
      simp [isChain, isOperand, isSuffixed, kind] at hchain

theorem readable_suffixed {n : Node} (hn : Formed n) (hkind : n.isSuffixed = true)
    (h : HasSuffixes n) (hop : NotOperator n) : Readable n := by
  have hoperand := h.readsOperand hop
  have hbinary : n.isBinary = false := by
    cases n <;> first | rfl | simp [isSuffixed, kind] at hkind
  exact readable_chain hn (isChain_of_isSuffixed hkind) (hoperand.readsChain hbinary)
    (fun _ => hoperand) fun _ => ⟨h, hop⟩

/-- A primary that starts with no operator. -/
theorem readable_primary {n : Node} (hn : Formed n) (hkind : n.isSuffixed = true)
    (h : IsPrimary n) {b : BareToken} {bs : List BareToken} (heq : n.lexemes = b :: bs)
    (hb : b.text ∉ unaryOperators.map lit) : Readable n :=
  readable_suffixed hn hkind h.hasSuffixes (notOperator_of_front heq hb)

theorem readable_member {n : Node} (hkind : n.kind = .property)
    (h : ReadBy .objectMember n) : Readable n := by
  cases n <;> simp [kind] at hkind
  exact ⟨fun h => by simp [isSuffixed, kind] at h,
    fun h => by simp [isOperand, isSuffixed, kind] at h,
    fun h => by simp [isChain, isOperand, isSuffixed, kind] at h,
    fun h => by simp [isEntire, isChain, isOperand, isSuffixed, kind] at h,
    fun h => by simp [isElement, isEntire, isChain, isOperand, isSuffixed, kind] at h, fun _ => h⟩

/-- Every tree that has been read and is legible is read again. -/
theorem Formed.readable {n : Node} (h : Formed n) (hlegible : n.all isLegible = true) :
    Readable n := by
  induction h with
  | @identifier pos name hname hvalue =>
    exact readable_suffixed (.identifier hname hvalue) rfl
      (isPrimary_identifier hname hvalue pos).hasSuffixes (notOperator_identifier hname pos)
  | @stringLiteral pos value raw hraw hvalue =>
    have hall : ∀ t ∈ unaryOperators.map lit, ¬ IsString t := by decide
    exact readable_primary (.stringLiteral hraw hvalue) rfl (isPrimary_string hraw hvalue pos) rfl
      fun h => hall _ h hraw
  | @numberLiteral pos raw hraw =>
    have hall : ∀ t ∈ unaryOperators.map lit, ¬ IsNumber t := by decide
    exact readable_primary (.numberLiteral hraw) rfl (isPrimary_number hraw pos) rfl
      fun h => hall _ h hraw
  | @keywordLiteral pos value hvalue =>
    have hall : ∀ t ∈ keywordValues.map lit, t ∉ unaryOperators.map lit := by decide
    exact readable_primary (.keywordLiteral hvalue) rfl (isPrimary_keyword hvalue pos) rfl
      (hall value hvalue)
  | @templateLiteral pos quasis exprs hlength hquasis hexprs hentire ih =>
    rw [all, Bool.and_eq_true, allOf_eq_true] at hlegible
    refine readable_primary (.templateLiteral hlength hquasis hexprs hentire) rfl
      (isPrimary_template hlength hquasis (fun x hx => ?_) pos) rfl (by decide)
    exact (ih x hx (hlegible.2 x hx)).expression (hentire x hx)
  | @array pos elements helements hkind ih =>
    rw [all, Bool.and_eq_true, allOf_eq_true] at hlegible
    refine readable_primary (.array helements hkind) rfl
      (isPrimary_array (fun x hx => ?_) pos) rfl (by decide)
    exact (ih x hx (hlegible.2 x hx)).element (hkind x hx)
  | @object pos properties hproperties hkind ih =>
    rw [all, Bool.and_eq_true, allOf_eq_true] at hlegible
    refine readable_primary (.object hproperties hkind) rfl
      (isPrimary_object (fun x hx => ?_) (fun x hx => (hproperties x hx).isAbsent_eq_false) pos) rfl
      (by decide)
    exact (ih x hx (hlegible.2 x hx)).member (hkind x hx)
  | @shorthand pos kpos vpos name hname =>
    exact readable_member rfl (readBy_shorthand hname pos kpos vpos)
  | @property pos key value hkey hvalue hentire ih =>
    rw [all, Bool.and_eq_true] at hlegible
    exact readable_member rfl (readBy_property hkey ((ih hlegible.2).expression hentire) pos)
  | @computed pos key value hkey hkentire hvalue hentire ihkey ihvalue =>
    rw [all, Bool.and_eq_true, Bool.and_eq_true] at hlegible
    exact readable_member rfl (readBy_computed ((ihkey hlegible.1.2).expression hkentire)
      ((ihvalue hlegible.2).expression hentire) pos)
  | @spread pos x hx hentire ih =>
    rw [all, Bool.and_eq_true] at hlegible
    have hexpr := (ih hlegible.2).expression hentire
    exact ⟨fun h => by simp [isSuffixed, kind] at h,
      fun h => by simp [isOperand, isSuffixed, kind] at h,
      fun h => by simp [isChain, isOperand, isSuffixed, kind] at h,
      fun h => by simp [isEntire, isChain, isOperand, isSuffixed, kind] at h,
      fun _ => readBy_element_spread hexpr pos, fun _ => readBy_member_spread hexpr pos⟩
  | @member obj ppos name optional hobj hsuffixed hname ih =>
    rw [all, Bool.and_eq_true, Bool.and_eq_true] at hlegible
    obtain ⟨hhas, hop⟩ := (ih hlegible.1.2).suffixed hsuffixed
    have heq : (Node.member obj (.identifier ppos name) false optional).lexemes =
        obj.lexemes ++ [if optional then mark "?." else mark ".", ⟨.ident, name⟩] := by
      cases optional <;> simp [lexemes, accessTokens]
    refine readable_suffixed (.member hobj hsuffixed hname) rfl
      (hhas.extend heq (suffixes_member hname ppos optional))
      (hop.extend heq fun _ ts rest hts => ?_)
    exact refuses_unary_mark (by cases optional <;> simp) hts rest
  | @index obj prop optional hobj hsuffixed hprop hentire hword ihobj ihprop =>
    rw [all, Bool.and_eq_true, Bool.and_eq_true] at hlegible
    obtain ⟨hhas, hop⟩ := (ihobj hlegible.1.2).suffixed hsuffixed
    have hexpr := (ihprop hlegible.2).expression hentire
    have heq : (Node.member obj prop true optional).lexemes = obj.lexemes ++
        ((if optional then [mark "?."] else []) ++ mark "[" :: (prop.lexemes ++ [mark "]"])) := by
      cases optional <;> simp [lexemes, accessTokens]
    refine readable_suffixed (.index hobj hsuffixed hprop hentire hword) rfl
      (hhas.extend heq (suffixes_index hexpr optional)) (hop.extend heq fun hw ts rest hts => ?_)
    cases optional with
    | false => simp [hword rfl] at hw
    | true => exact refuses_unary_mark (.inr rfl) hts rest
  | @call callee args optional hcallee hsuffixed hargs hkind ihcallee ihargs =>
    rw [all, Bool.and_eq_true, Bool.and_eq_true, allOf_eq_true] at hlegible
    obtain ⟨⟨hself, hlcallee⟩, hlargs⟩ := hlegible
    obtain ⟨hhas, hop⟩ := (ihcallee hlcallee).suffixed hsuffixed
    have helements : ∀ x ∈ args, ReadBy .element x :=
      fun x hx => (ihargs x hx (hlargs x hx)).element (hkind x hx)
    have hexprs : ∀ x ∈ args, x.kind = .spread ∨ ReadBy .expression x := by
      intro x hx
      rcases isElement_iff.1 (hkind x hx) with hentire | hspread
      · exact .inr ((ihargs x hx (hlargs x hx)).expression hentire)
      · exact .inl hspread
    have heq : (Node.call callee args optional).lexemes = callee.lexemes ++
        ((if optional then [mark "?."] else []) ++
          mark "(" :: (commaTokens (lexemesAll args) ++ [mark ")"])) := by
      cases optional <;> simp [lexemes]
    refine readable_suffixed (.call hcallee hsuffixed hargs hkind) rfl
      (hhas.extend heq (suffixes_call helements optional)) (hop.extend heq fun hw ts rest hts => ?_)
    -- Behind a word like `typeof` the arguments could be its operand.
    cases optional with
    | false =>
      have hkeeps : keepsCall args = true := by
        cases callee <;> simp [isOperatorWord] at hw
        simpa [isLegible, hw] using hself
      exact refuses_unary_args hkeeps hexprs hargs hts rest
    | true => exact refuses_unary_mark (.inr rfl) hts rest
  | @function pos params body async hparams hbody hentire ih =>
    rw [all, Bool.and_eq_true, Bool.and_eq_true] at hlegible
    have hexpr :=
      readBy_function hparams hbody hentire ((ih hlegible.2).expression hentire) pos async
    exact ⟨fun h => by simp [isSuffixed, kind] at h,
      fun h => by simp [isOperand, isSuffixed, kind] at h,
      fun h => by simp [isChain, isOperand, isSuffixed, kind] at h, fun _ => hexpr,
      fun _ => readBy_element (.function hparams hbody hentire) rfl hexpr,
      fun h => by simp [fits, kind] at h⟩
  | @binary left right op hop hleft hright hlchain hrchain hladmits hrbinds hclash ihl ihr =>
    rw [all, Bool.and_eq_true, Bool.and_eq_true] at hlegible
    refine readable_chain
      (.binary hop hleft hright hlchain hrchain hladmits hrbinds hclash) rfl
      (readsChain_binary hop hclash ((ihl hlegible.1.2).chain hlchain)
        ((ihr hlegible.2).chain hrchain)) (fun h => ?_) (fun h => ?_)
    · simp [isOperand, isSuffixed, kind] at h
    · simp [isSuffixed, kind] at h
  | @unary pos op x hop hx hoperand ih =>
    rw [all, Bool.and_eq_true] at hlegible
    have hreads := readsOperand_unary hop ((ih hlegible.2).operand hoperand) pos
    refine readable_chain (.unary hop hx hoperand) rfl (hreads.readsChain rfl) (fun _ => hreads)
      (fun h => ?_)
    simp [isSuffixed, kind] at h
  | @paren pos x hx hentire ih =>
    rw [all, Bool.and_eq_true] at hlegible
    exact readable_primary (.paren hx hentire) rfl
      (isPrimary_paren ((ih hlegible.2).expression hentire) pos) rfl (by decide)

end CubeSchema
