import CubeSchema.Proofs.Grammar.Fronts
import CubeSchema.Proofs.Tree.Building
import CubeSchema.Proofs.Tree.Lexemes

/-!
# Reading lists and primaries

The tokens of a printed tree are read as that tree again. Each statement leaves open what follows: a
list is read in front of the mark that closes it, and a primary (a literal, a name, or something in
brackets) in front of anything. The parts of a list are taken to be read wherever they are closed,
which `ReadBy` says.
-/

namespace CubeSchema

open Lexeme Lexer Grammar Node ParseTree

/-! ## Spelling -/

/-- Tokens at some places spell a list of tokens without places. -/
def Spells (ts : List Token) (bs : List BareToken) : Prop := ts.map Token.bare = bs

theorem Spells.nil {ts : List Token} (h : Spells ts []) : ts = [] := List.map_eq_nil_iff.1 h

theorem Spells.cons {ts : List Token} {b : BareToken} {bs : List BareToken}
    (h : Spells ts (b :: bs)) : ∃ t us, ts = t :: us ∧ t.bare = b ∧ Spells us bs :=
  List.map_eq_cons_iff.1 h

theorem Spells.single {ts : List Token} {b : BareToken} (h : Spells ts [b]) :
    ∃ t, ts = [t] ∧ t.bare = b := by
  obtain ⟨t, us, rfl, ht, hus⟩ := h.cons
  obtain rfl := hus.nil
  exact ⟨t, rfl, ht⟩

theorem Spells.append {ts : List Token} {as bs : List BareToken} (h : Spells ts (as ++ bs)) :
    ∃ us vs, ts = us ++ vs ∧ Spells us as ∧ Spells vs bs := by
  obtain ⟨us, vs, rfl, hus, hvs⟩ := List.map_eq_append_iff.1 h
  exact ⟨us, vs, rfl, hus, hvs⟩

theorem cls_of_bare {t : Token} {b : BareToken} (h : t.bare = b) : t.cls = b.cls := by rw [← h]; rfl

theorem text_of_bare {t : Token} {b : BareToken} (h : t.bare = b) : t.text = b.text := by
  rw [← h]; rfl

/-- A token that is a mark has its text. -/
theorem hasText_mark {t : Token} {s : String} (h : t.bare = mark s) : hasText (lit s) t = true :=
  hasText_eq_true.2 ⟨by rw [cls_of_bare h, mark]; simp, text_of_bare h⟩

/-! ## What follows -/

/-- The tokens that close an expression. -/
def closers : List BareToken :=
  [mark ",", mark ")", mark "]", mark ";", ⟨.rbrace, [125]⟩, ⟨.exprEnd, [125]⟩]

/-- The rest begins with a token that closes an expression. -/
def Ends (rest : List Token) : Prop := ∃ t more, rest = t :: more ∧ t.bare ∈ closers

/-- The rest begins with a token that closes an expression, or with a binary operator that does not
turn the end of the node into an operator itself. -/
def Follows (n : Node) (rest : List Token) : Prop :=
  ∃ t more, rest = t :: more ∧ (t.bare ∈ closers ∨ ∃ op ∈ binaryOperators.map lit,
    t.bare = sign op ∧ (n.endsBare = true → op ∉ clashingOperators))

theorem Ends.follows {rest : List Token} (h : Ends rest) (n : Node) : Follows n rest := by
  obtain ⟨t, more, rfl, ht⟩ := h
  exact ⟨t, more, rfl, .inl ht⟩

theorem startsNothing_of_mem_closers {t : Token} (h : t.bare ∈ closers) : StartsNothing t := by
  have hall : ∀ b ∈ closers, b.cls ∉ operandClasses ∧ b.text ∉ startTexts := by decide
  exact ⟨(hall _ h).1, (hall _ h).2⟩

/-- An operator that an operand cannot start with starts nothing. -/
theorem startsNothing_of_sign {t : Token} {op : Text} (hop : op ∈ binaryOperators.map lit)
    (hclash : op ∉ clashingOperators) (ht : t.bare = sign op) : StartsNothing t := by
  have hall : ∀ op ∈ binaryOperators.map lit, op ∉ clashingOperators →
      (sign op).cls ∉ operandClasses ∧ (sign op).text ∉ startTexts := by decide
  obtain ⟨hcls, htext⟩ := hall op hop hclash
  rw [← ht] at hcls htext
  exact ⟨hcls, htext⟩

/-- Neither a token that closes nor a binary operator continues an operand or is an arrow. -/
theorem Follows.front {n : Node} {rest : List Token} (h : Follows n rest) :
    ∃ t more, rest = t :: more ∧ t.text ∉ ["(", "[", ".", "?."].map lit ∧ t.text ≠ lit "=>" := by
  obtain ⟨t, more, rfl, ht | ⟨op, hop, ht, -⟩⟩ := h
  · have hall : ∀ b ∈ closers, b.text ∉ ["(", "[", ".", "?."].map lit ∧ b.text ≠ lit "=>" := by
      decide
    exact ⟨t, more, rfl, hall _ ht⟩
  · have hall : ∀ op ∈ binaryOperators.map lit,
        (sign op).text ∉ ["(", "[", ".", "?."].map lit ∧ (sign op).text ≠ lit "=>" := by
      decide
    have := hall op hop
    rw [← ht] at this
    exact ⟨t, more, rfl, this⟩

/-! ## Yields -/

/-- A rule takes the tokens in front of `rest` and they are built into a tree, up to places. -/
def Yields (r : Rule) (ts rest : List Token) (n : Node) : Prop :=
  ∃ pos kids, Reads (.rule r) ts (.takes [.branch r pos kids] rest) ∧
    BuildsTo (.branch r pos kids) n

/-- A rule yields what its pattern takes. -/
theorem yields_of_reads {r : Rule} {ts rest : List Token} {n : Node} (kids : List ParseTree)
    (h : Reads r.pattern ts (.takes kids rest))
    (hbuild : ∀ pos, BuildsTo (.branch r pos kids) n) : Yields r ts rest n :=
  ⟨_, kids, reads_rule_takes.2 ⟨kids, h, rfl⟩, hbuild _⟩

/-- A node is read by a rule wherever its tokens are closed. -/
def ReadBy (r : Rule) (n : Node) : Prop :=
  ∀ ts rest, Spells ts n.lexemes → Ends rest → Yields r (ts ++ rest) rest n.regrouped

/-! ## Lists -/

/-- Items with a comma in front of each close what stands before them. -/
theorem ends_items {ns : List Node} {ts rest : List Token}
    (hts : Spells ts (ns.flatMap fun n => mark "," :: n.lexemes)) (hrest : Ends rest) :
    Ends (ts ++ rest) := by
  cases ns with
  | nil =>
    obtain rfl := Spells.nil hts
    exact hrest
  | cons n ns =>
    rw [List.flatMap_cons, List.cons_append] at hts
    obtain ⟨t, us, rfl, ht, -⟩ := hts.cons
    exact ⟨t, _, rfl, by rw [ht]; decide⟩

/-- An item behind a comma. -/
theorem reads_nextItem {r : Rule} {comma : Token} (hcomma : comma.bare = mark ",")
    {ts rest : List Token} {pos : Position} {kids : List ParseTree}
    (h : Reads (.rule r) ts (.takes [.branch r pos kids] rest)) :
    Reads (.seq [.text (lit ","), .rule r]) (comma :: ts)
      (.takes [.leaf comma, .branch r pos kids] rest) := by
  exact (reads_text_cons (hasText_mark hcomma) ts).seq h.seq_last

/-- The items behind the first one, each with a comma in front of it. -/
theorem repeats_items {r : Rule} {ns : List Node} (hns : ∀ n ∈ ns, ReadBy r n)
    {ts rest : List Token} (hts : Spells ts (ns.flatMap fun n => mark "," :: n.lexemes))
    (hrest : Ends rest) :
    ∃ trees, Repeats (.seq [.text (lit ","), .rule r]) (ts ++ rest) trees rest ∧
      Builds trees (ns.map regrouped) := by
  induction ns generalizing ts with
  | nil =>
    obtain rfl := Spells.nil hts
    exact ⟨[], .nil, .nil⟩
  | cons n ns ih =>
    rw [List.flatMap_cons, List.cons_append] at hts
    obtain ⟨comma, us, rfl, hcomma, hus⟩ := hts.cons
    obtain ⟨vs, ws, rfl, hvs, hws⟩ := hus.append
    obtain ⟨trees, hrep, hbuilds⟩ := ih (fun m hm => hns m (List.mem_cons_of_mem _ hm)) hws
    obtain ⟨pos, kids, hread, hbuild⟩ := hns n (List.mem_cons_self ..) vs _ hvs
      (ends_items hws hrest)
    refine ⟨[ParseTree.leaf comma, .branch r pos kids] ++ trees, .cons ?_ hrep, ?_⟩
    · rw [List.cons_append, List.append_assoc]
      exact reads_nextItem hcomma hread
    · exact (Builds.branch hbuild hbuilds).leaf comma

/-- A list of items between commas. -/
theorem reads_commaList {r : Rule} {ns : List Node} (hns : ∀ n ∈ ns, ReadBy r n)
    {ts rest : List Token} (hts : Spells ts (commaTokens (lexemesAll ns))) (hrest : Ends rest)
    (hnone : Declines (.rule r) rest) (hcomma : ∀ t ∈ rest.head?, t.text ≠ lit ",") :
    ∃ trees, Reads (.commaList (.rule r)) (ts ++ rest) (.takes trees rest) ∧
      Builds trees (ns.map regrouped) := by
  cases ns with
  | nil =>
    obtain rfl := Spells.nil hts
    exact ⟨[], hnone.seq.opt, .nil⟩
  | cons n ns =>
    rw [commaTokens_cons] at hts
    obtain ⟨us, vs, rfl, hus, hvs⟩ := hts.append
    obtain ⟨trees, hrep, hbuilds⟩ :=
      repeats_items (fun m hm => hns m (List.mem_cons_of_mem _ hm)) hvs hrest
    obtain ⟨pos, kids, hread, hbuild⟩ := hns n (List.mem_cons_self ..) us _ hus
      (ends_items hvs hrest)
    have hlacks : Reads (.text (lit ",")) rest .lacks := by
      obtain ⟨close, more, rfl, -⟩ := hrest
      exact reads_text_lacks (hasText_eq_false (hcomma close rfl))
    have hmany := hrep.reads_many rfl (.inl hlacks.seq_lacks)
    refine ⟨[ParseTree.branch r pos kids] ++ (trees ++ []), Reads.opt ?_, ?_⟩
    · rw [List.append_assoc]
      exact hread.seq (hmany.seq hlacks.opt_lacks.seq_last)
    · simpa using Builds.branch hbuild hbuilds

/-- The members of an object behind the first one. The comma behind the last one is left over. -/
theorem repeats_members {r : Rule} {ns : List Node} (hns : ∀ n ∈ ns, ReadBy r n) {comma : Token}
    (hcomma : comma.bare = mark ",") {ts : List Token}
    (hts : Spells ts (memberTokens (lexemesAll ns))) (rest : List Token) :
    ∃ trees last, Repeats (.seq [.text (lit ","), .rule r]) (comma :: (ts ++ rest)) trees
      (last :: rest) ∧ last.bare = mark "," ∧ Builds trees (ns.map regrouped) := by
  induction ns generalizing ts comma with
  | nil =>
    obtain rfl := Spells.nil hts
    exact ⟨[], comma, .nil, hcomma, .nil⟩
  | cons n ns ih =>
    rw [lexemesAll, memberTokens] at hts
    obtain ⟨us, vs, rfl, hus, hvs⟩ := hts.append
    obtain ⟨next, vs, rfl, hnext, hvs⟩ := hvs.cons
    obtain ⟨trees, last, hrep, hlast, hbuilds⟩ :=
      ih (fun m hm => hns m (List.mem_cons_of_mem _ hm)) hnext hvs
    obtain ⟨pos, kids, hread, hbuild⟩ := hns n (List.mem_cons_self ..) us (next :: (vs ++ rest)) hus
      ⟨next, _, rfl, by rw [hnext]; decide⟩
    refine ⟨[ParseTree.leaf comma, .branch r pos kids] ++ trees, last, .cons ?_ hrep, hlast, ?_⟩
    · rw [List.append_assoc]
      exact reads_nextItem hcomma hread
    · exact (Builds.branch hbuild hbuilds).leaf comma

/-- The members of an object, with a comma behind each. -/
theorem reads_memberList {r : Rule} {ns : List Node} (hns : ∀ n ∈ ns, ReadBy r n)
    {ts : List Token} (hts : Spells ts (memberTokens (lexemesAll ns))) {rest : List Token}
    (hnone : Reads (.rule r) rest .lacks) :
    ∃ trees, Reads (.commaList (.rule r)) (ts ++ rest) (.takes trees rest) ∧
      Builds trees (ns.map regrouped) := by
  cases ns with
  | nil =>
    obtain rfl := Spells.nil hts
    exact ⟨[], hnone.seq_lacks.opt_lacks, .nil⟩
  | cons n ns =>
    rw [lexemesAll, memberTokens] at hts
    obtain ⟨us, vs, rfl, hus, hvs⟩ := hts.append
    obtain ⟨comma, vs, rfl, hcomma, hvs⟩ := hvs.cons
    obtain ⟨trees, last, hrep, hlast, hbuilds⟩ :=
      repeats_members (fun m hm => hns m (List.mem_cons_of_mem _ hm)) hcomma hvs rest
    obtain ⟨pos, kids, hread, hbuild⟩ := hns n (List.mem_cons_self ..) us (comma :: (vs ++ rest))
      hus ⟨comma, _, rfl, by rw [hcomma]; decide⟩
    have hlast' := reads_text_cons (hasText_mark hlast) rest
    -- The comma behind the last member is not followed by another one.
    have hend : Declines (.seq [.text (lit ","), .rule r]) (last :: rest) :=
      .inr ⟨rest, Reads.seq_breaks_later hlast' (.inr ⟨hnone.seq_lacks, rfl⟩),
        isFar_eq_false (by simp only [Reader.lookahead, List.length_cons]; omega)⟩
    refine ⟨[ParseTree.branch r pos kids] ++ (trees ++ [ParseTree.leaf last]), Reads.opt ?_, ?_⟩
    · rw [List.append_assoc]
      exact hread.seq ((hrep.reads_many rfl hend).seq hlast'.opt.seq_last)
    · refine Builds.branch hbuild ?_
      simpa using hbuilds.append (Builds.nil.leaf last)

/-! ## Primaries -/

/-- The texts that a bracket in front of a primary has. -/
def brackets : List Text := [lit "[", lit "\x7b", lit "("]

/-- In front of a token that is neither a literal nor a word with a value, a primary is what its
last four alternatives make of it. -/
theorem reads_primary_bracket {t : Token} {ts rest : List Token} {trees : List ParseTree}
    (hcls : t.cls ∉ [TokenClass.number, .string, .backtick])
    (htext : t.text ∉ keywordValues.map lit)
    (h : Reads (.alt [.rule .arrayLiteral, .rule .objectLiteral,
      .seq [.text (lit "("), .rule .expression, .text (lit ")")], .token .ident]) (t :: ts)
      (.takes trees rest)) : Reads Rule.primary.pattern (t :: ts) (.takes trees rest) := by
  simp only [List.mem_cons, List.not_mem_nil, or_false, not_or] at hcls
  refine Declines.alt (.inl (reads_oneOf_lacks htext)) ?_
  refine Declines.alt (.inl (reads_token_lacks hcls.1)) ?_
  refine Declines.alt (.inl (reads_token_lacks hcls.2.1)) ?_
  exact Declines.alt (.inl (Reads.rule (a := .lacks) (reads_token_lacks hcls.2.2).seq_lacks)) h

/-- A text that does not start with the first byte of a name is no name. -/
theorem Lexeme.IsName.ne {t u : Text} (h : IsName t) (hu : u.head?.any isNameStart = false) :
    t ≠ u := by
  rintro rfl
  obtain ⟨b, v, rfl, hb⟩ := h.head
  simp [hb] at hu

theorem Lexeme.IsName.not_mem {t : Text} (h : IsName t) {us : List Text}
    (hus : (us.all fun u => !u.head?.any isNameStart) = true) : t ∉ us := by
  intro ht
  have := List.all_eq_true.1 hus t ht
  exact h.ne (by simpa using this) rfl

/-- A number is no word. -/
theorem Lexeme.IsNumber.not_mem {t : Text} (h : IsNumber t) {us : List Text}
    (hus : (us.all fun u => u.head?.any isNameStart) = true) : t ∉ us := by
  intro ht
  have hall := List.all_eq_true.1 hus t ht
  obtain ⟨b, v, rfl, hb⟩ := h.head
  have hname : isNameStart b = true := by simpa using hall
  obtain ⟨-, -, -, -, -, hdigit, h46, -⟩ := isNameStart_facts hname
  rcases hb with hb | hb
  · simp [hdigit] at hb
  · exact h46 hb

/-- A text in quotes is no word. -/
theorem Lexeme.IsString.not_mem {t : Text} (h : IsString t) {us : List Text}
    (hus : (us.all fun u => u.head?.any isNameStart) = true) : t ∉ us := by
  intro ht
  have hall := List.all_eq_true.1 hus t ht
  obtain ⟨b, v, rfl, hb⟩ := h.head
  have hname : isNameStart b = true := by simpa using hall
  obtain ⟨-, -, -, h34, h39, -, -, -⟩ := isNameStart_facts hname
  rcases hb with hb | hb
  · exact h34 hb
  · exact h39 hb

/-- A node is read as a primary in front of anything. -/
def IsPrimary (n : Node) : Prop :=
  ∀ ts rest, Spells ts n.lexemes → Yields .primary (ts ++ rest) rest n.regrouped

/-- A primary yields what its one part yields. -/
theorem Yields.primary {r : Rule} {ts rest : List Token} {n : Node} (h : Yields r ts rest n)
    (hread : ∀ trees, Reads (.rule r) ts (.takes trees rest) →
      Reads Rule.primary.pattern ts (.takes trees rest)) : Yields .primary ts rest n := by
  obtain ⟨pos, kids, hr, m, hm, hn⟩ := h
  refine yields_of_reads _ (hread _ hr) fun p => ⟨m, ?_, hn⟩
  rw [build, hm]
  simp

theorem isPrimary_identifier {name : Text} (hname : IsName name)
    (hvalue : name ∉ keywordValues.map lit) (pos : Position) :
    IsPrimary (.identifier pos name) := by
  intro ts rest hts
  obtain ⟨t, rfl, ht⟩ := hts.single
  have hcls : t.cls = .ident := cls_of_bare ht
  have htext : t.text = name := text_of_bare ht
  have hne : t.text ∉ brackets := by rw [htext]; exact hname.not_mem (by decide)
  simp only [brackets, List.mem_cons, List.not_mem_nil, or_false, not_or] at hne
  have hkey : t.text ∉ keywordValues.map lit := by rwa [htext]
  refine yields_of_reads [.leaf t] ?_ fun p => ?_
  · refine reads_primary_bracket (by rw [hcls]; decide) hkey ?_
    refine Declines.alt (.inl ?_) (Declines.alt (.inl ?_) (Declines.alt (.inl ?_) ?_))
    · exact Reads.rule (a := .lacks) (reads_text_lacks (hasText_eq_false hne.1)).seq_lacks
    · exact Reads.rule (a := .lacks) (reads_text_lacks (hasText_eq_false hne.2.1)).seq_lacks
    · exact (reads_text_lacks (hasText_eq_false hne.2.2)).seq_lacks
    · exact (reads_token_cons hcls rest).alt
  · refine ⟨.identifier p t.text, ?_, by rw [htext]; rfl⟩
    have hcontains : (keywordValues.map lit).contains t.text = false := by simpa using hkey
    rw [build, primaryNode, hcontains, hcls]
    rfl

theorem isPrimary_keyword {value : Text} (hvalue : value ∈ keywordValues.map lit)
    (pos : Position) : IsPrimary (.keywordLiteral pos value) := by
  intro ts rest hts
  obtain ⟨t, rfl, ht⟩ := hts.single
  have htext : t.text = value := text_of_bare ht
  have hkey : t.text ∈ keywordValues.map lit := by rwa [htext]
  refine yields_of_reads [.leaf t] ?_ fun p => ?_
  · exact Reads.alt (reads_oneOf_takes.2 ⟨t, rfl, by rw [cls_of_bare ht]; simp, hkey, rfl⟩)
  · refine ⟨.keywordLiteral p t.text, ?_, by rw [htext]; rfl⟩
    have hcontains : (keywordValues.map lit).contains t.text = true := by simpa using hkey
    rw [build, primaryNode, hcontains]
    rfl

theorem isPrimary_number {raw : Text} (hraw : IsNumber raw) (pos : Position) :
    IsPrimary (.numberLiteral pos raw) := by
  intro ts rest hts
  obtain ⟨t, rfl, ht⟩ := hts.single
  have hcls : t.cls = .number := cls_of_bare ht
  have htext : t.text = raw := text_of_bare ht
  have hkey : t.text ∉ keywordValues.map lit := by rw [htext]; exact hraw.not_mem (by decide)
  refine yields_of_reads [.leaf t] ?_ fun p => ?_
  · exact Declines.alt (.inl (reads_oneOf_lacks hkey)) (reads_token_cons hcls rest).alt
  · refine ⟨.numberLiteral p t.text, ?_, by rw [htext]; rfl⟩
    have hcontains : (keywordValues.map lit).contains t.text = false := by simpa using hkey
    rw [build, primaryNode, hcontains, hcls]
    rfl

theorem isPrimary_string {value raw : Text} (hraw : IsString raw)
    (hvalue : Text.unescape (raw.drop 1).dropLast = some value) (pos : Position) :
    IsPrimary (.stringLiteral pos value raw) := by
  intro ts rest hts
  obtain ⟨t, rfl, ht⟩ := hts.single
  have hcls : t.cls = .string := cls_of_bare ht
  have htext : t.text = raw := text_of_bare ht
  have hkey : t.text ∉ keywordValues.map lit := by rw [htext]; exact hraw.not_mem (by decide)
  refine yields_of_reads [.leaf t] ?_ fun p => ?_
  · refine Declines.alt (.inl (reads_oneOf_lacks hkey)) ?_
    exact Declines.alt (.inl (reads_token_lacks (by rw [hcls]; decide)))
      (reads_token_cons hcls rest).alt
  · refine ⟨.stringLiteral p value t.text, ?_, by rw [htext]; rfl⟩
    have hcontains : (keywordValues.map lit).contains t.text = false := by simpa using hkey
    rw [build, primaryNode, hcontains, hcls]
    show stringNode p t.text = _
    rw [stringNode, htext, hvalue]
    rfl

/-! ## Templates -/

/-- Characters and dollar signs of a template are parts of their own, and their texts are put
together. -/
theorem repeats_chunk {bs : List BareToken}
    (hbs : ∀ b ∈ bs, b.cls = .templateChars ∨ b.cls = .dollar) {ts : List Token}
    (hts : Spells ts bs) (rest : List Token) :
    ∃ trees, Repeats (.rule .templatePart) (ts ++ rest) trees rest ∧
      ∀ pos raw more, buildParts pos raw (trees ++ more) =
        buildParts pos (raw ++ bs.flatMap BareToken.text) more := by
  induction bs generalizing ts with
  | nil =>
    obtain rfl := Spells.nil hts
    exact ⟨[], .nil, fun pos raw more => by simp⟩
  | cons b bs ih =>
    obtain ⟨t, us, rfl, ht, hus⟩ := hts.cons
    obtain ⟨trees, hrep, hbuild⟩ := ih (fun c hc => hbs c (List.mem_cons_of_mem _ hc)) hus
    have hcls : t.cls = .templateChars ∨ t.cls = .dollar := by
      rw [cls_of_bare ht]
      exact hbs b (List.mem_cons_self ..)
    -- Both kinds of tokens are alternatives of one rule, the characters first.
    have hpart : Reads Rule.templatePart.pattern (t :: (us ++ rest))
        (.takes [.leaf t] (us ++ rest)) := by
      refine Reads.alt ?_
      rcases hcls with hcls | hcls
      · exact (reads_token_cons hcls _).alt
      · refine Declines.alt (.inl (reads_token_lacks (by rw [hcls]; decide))) ?_
        exact (reads_token_cons hcls _).alt
    refine ⟨_, .cons (reads_rule_takes.2 ⟨_, hpart, rfl⟩) hrep, fun pos raw more => ?_⟩
    rw [List.append_assoc, List.singleton_append, buildParts, hbuild, List.flatMap_cons,
      text_of_bare ht, List.append_assoc]

/-- The parts of a template up to its closing backtick. -/
theorem repeats_parts {quasis : List Quasi} {exprs : List Node}
    (hlength : quasis.length = exprs.length + 1) (hquasis : ∀ q ∈ quasis, q.IsRead)
    (hexprs : ∀ x ∈ exprs, ReadBy .expression x) {ts : List Token}
    (hts : Spells ts (templateTokens quasis (lexemesAll exprs))) (rest : List Token) :
    ∃ trees, Repeats (.rule .templatePart) (ts ++ rest) trees rest ∧
      ∀ pos last, ∃ ms, buildParts pos [] (trees ++ [ParseTree.leaf last]) = ⟨(quasis, ms), none⟩ ∧
        ms.map unplaced = (exprs.map regrouped).map unplaced := by
  induction quasis generalizing exprs ts with
  | nil => simp at hlength
  | cons q quasis ih =>
    obtain ⟨hraw, hcooked⟩ := hquasis q (List.mem_cons_self ..)
    obtain ⟨hcls, hspell⟩ := chunkTokens_spec hraw
    have hquasi : ∀ pos, quasiOf pos q.raw = ⟨q, none⟩ := by
      intro pos
      rw [quasiOf, hcooked]
      rfl
    -- The last chunk stands by itself, every other one in front of an expression.
    cases exprs with
    | nil =>
      obtain rfl : quasis = [] := List.eq_nil_of_length_eq_zero (by simpa using hlength)
      rw [lexemesAll, templateTokens, templateTokens, List.append_nil] at hts
      obtain ⟨trees, hrep, hbuild⟩ := repeats_chunk hcls hts rest
      refine ⟨trees, hrep, fun pos last => ⟨[], ?_, rfl⟩⟩
      rw [hbuild, hspell, List.nil_append, buildParts, buildParts, hquasi]
      · rfl
      · simp
      · simp
    | cons x exprs =>
      rw [lexemesAll, templateTokens, List.append_assoc, List.cons_append] at hts
      obtain ⟨us, vs, rfl, hus, hvs⟩ := hts.append
      obtain ⟨start, vs, rfl, hstart, hvs⟩ := hvs.cons
      obtain ⟨xs, ws, rfl, hxs, hws⟩ := hvs.append
      obtain ⟨close, ws, rfl, hclose, hws⟩ := hws.cons
      obtain ⟨back, hback, hbuild'⟩ := ih (by simpa using hlength)
        (fun r hr => hquasis r (List.mem_cons_of_mem _ hr))
        (fun y hy => hexprs y (List.mem_cons_of_mem _ hy)) hws
      obtain ⟨pos, kids, hread, m, hm, hmx⟩ := hexprs x (List.mem_cons_self ..) xs
        (close :: (ws ++ rest)) hxs ⟨close, _, rfl, by rw [hclose]; decide⟩
      have hpart : Reads Rule.templatePart.pattern (start :: (xs ++ close :: (ws ++ rest)))
          (.takes [.leaf start, .branch .expression pos kids, .leaf close] (ws ++ rest)) := by
        refine Declines.alt (.inl (reads_alt_lacks fun p hp => ?_)) (Reads.alt ?_)
        · simp only [List.mem_cons, List.not_mem_nil, or_false] at hp
          rcases hp with rfl | rfl <;>
            exact reads_token_lacks (by rw [cls_of_bare hstart]; decide)
        · have hend := reads_token_cons (cls_of_bare hclose) (ws ++ rest)
          exact (reads_token_cons (cls_of_bare hstart) _).seq (hread.seq hend.seq_last)
      obtain ⟨front, hfront, hbuild⟩ :=
        repeats_chunk hcls hus (start :: (xs ++ close :: (ws ++ rest)))
      -- The characters of the chunk, the expression, and all that comes behind it.
      have hall := hfront.trans (.cons (reads_rule_takes.2 ⟨_, hpart, rfl⟩) hback)
      rw [List.append_assoc, List.cons_append, List.append_assoc, List.cons_append]
      refine ⟨_, hall, fun p last => ?_⟩
      · obtain ⟨ms, hms, hmap⟩ := hbuild' p last
        refine ⟨m :: ms, ?_, by rw [List.map_cons, List.map_cons, List.map_cons, hmap, hmx]⟩
        rw [List.append_assoc, hbuild, hspell, List.nil_append, List.append_assoc,
          List.singleton_append, buildParts, hquasi, hm, hms]
        rfl

theorem isPrimary_template {quasis : List Quasi} {exprs : List Node}
    (hlength : quasis.length = exprs.length + 1) (hquasis : ∀ q ∈ quasis, q.IsRead)
    (hexprs : ∀ x ∈ exprs, ReadBy .expression x) (pos : Position) :
    IsPrimary (.templateLiteral pos quasis exprs) := by
  intro ts rest hts
  rw [lexemes, List.cons_append] at hts
  obtain ⟨tick, us, rfl, htick, hus⟩ := hts.cons
  obtain ⟨vs, ws, rfl, hvs, hws⟩ := hus.append
  obtain ⟨last, rfl, hlast⟩ := hws.single
  obtain ⟨trees, hrep, hbuild⟩ := repeats_parts hlength hquasis hexprs hvs (last :: rest)
  have hkey : tick.text ∉ keywordValues.map lit := by rw [text_of_bare htick]; decide
  -- The repetition of parts stops at the backtick, which is none.
  have hend : Declines (.rule .templatePart) (last :: rest) := by
    refine .inl (Reads.rule (a := .lacks) (reads_alt_lacks fun p hp => ?_))
    have hcls := cls_of_bare hlast
    simp only [List.mem_cons, List.not_mem_nil, or_false] at hp
    rcases hp with rfl | rfl
    · refine reads_alt_lacks fun p hp => ?_
      simp only [List.mem_cons, List.not_mem_nil, or_false] at hp
      rcases hp with rfl | rfl <;> exact reads_token_lacks (by rw [hcls]; decide)
    · exact (reads_token_lacks (by rw [hcls]; decide)).seq_lacks
  have hcls := cls_of_bare htick
  rw [List.cons_append, List.append_assoc, List.singleton_append]
  refine Yields.primary (r := .templateLiteral) ?_ fun trees h => ?_
  · refine yields_of_reads ([ParseTree.leaf tick] ++ (trees ++ [ParseTree.leaf last])) ?_
      fun p => ?_
    · exact (reads_token_cons hcls _).seq
        ((hrep.reads_many rfl hend).seq (reads_token_cons (cls_of_bare hlast) rest).seq_last)
    · obtain ⟨ms, hms, hmap⟩ := hbuild p last
      refine ⟨.templateLiteral p quasis ms, ?_, ?_⟩
      · rw [build, List.singleton_append, buildParts, hms]
        · rfl
        · simp
        · simp
      · simp only [unplaced, regrouped, unplacedAll_eq_map, regroupedAll_eq_map, hmap]
  · refine Declines.alt (.inl (reads_oneOf_lacks hkey)) ?_
    refine Declines.alt (.inl (reads_token_lacks (by rw [hcls]; decide))) ?_
    exact Declines.alt (.inl (reads_token_lacks (by rw [hcls]; decide))) h.alt

/-- No element starts with a token that starts nothing. -/
theorem element_declines {t : Token} (ht : StartsNothing t) (hdots : t.text ≠ lit "...")
    (ts : List Token) : Declines (.rule .element) (t :: ts) := by
  refine .inr ⟨t :: ts, Reads.rule (a := .breaks (t :: ts)) ?_, isFar_eq_false (by omega)⟩
  refine Reads.seq_breaks_later (reads_text_lacks (hasText_eq_false hdots)).opt_lacks (.inl ?_)
  exact (ht.expression_breaks ts).seq_breaks

/-- A list of elements between brackets. -/
theorem reads_elements {ns : List Node} (hns : ∀ n ∈ ns, ReadBy .element n) {ts : List Token}
    (hts : Spells ts (commaTokens (lexemesAll ns))) {close : Token}
    (hclose : close.bare = mark ")" ∨ close.bare = mark "]") (rest : List Token) :
    ∃ trees, Reads (.commaList (.rule .element)) (ts ++ close :: rest)
      (.takes trees (close :: rest)) ∧ Builds trees (ns.map regrouped) := by
  have hmem : close.bare ∈ closers := by rcases hclose with h | h <;> rw [h] <;> decide
  have hdots : close.text ≠ lit "..." := by
    rcases hclose with h | h <;> rw [text_of_bare h] <;> decide
  have hcomma : close.text ≠ lit "," := by
    rcases hclose with h | h <;> rw [text_of_bare h] <;> decide
  refine reads_commaList hns hts ⟨close, rest, rfl, hmem⟩
    (element_declines (startsNothing_of_mem_closers hmem) hdots rest) ?_
  intro t ht
  obtain rfl := Option.some.inj ht
  exact hcomma

theorem isPrimary_array {elements : List Node} (helements : ∀ x ∈ elements, ReadBy .element x)
    (pos : Position) : IsPrimary (.array pos elements) := by
  intro ts rest hts
  rw [lexemes, List.cons_append] at hts
  obtain ⟨bracket, us, rfl, hbracket, hus⟩ := hts.cons
  obtain ⟨vs, ws, rfl, hvs, hws⟩ := hus.append
  obtain ⟨close, rfl, hclose⟩ := hws.single
  obtain ⟨trees, hlist, hbuilds⟩ := reads_elements helements hvs (.inr hclose) rest
  rw [List.cons_append, List.append_assoc, List.singleton_append]
  refine Yields.primary (r := .arrayLiteral) ?_ fun trees h => ?_
  · refine yields_of_reads ([ParseTree.leaf bracket] ++ (trees ++ [ParseTree.leaf close])) ?_
      fun p => ?_
    · exact (reads_text_cons (hasText_mark hbracket) _).seq
        (hlist.seq (reads_text_cons (hasText_mark hclose) rest).seq_last)
    · obtain ⟨ms, hms, hmap⟩ := (hbuilds.append (Builds.nil.leaf close)).leaf bracket
      refine ⟨.array p ms, ?_, ?_⟩
      · rw [build, List.singleton_append, hms]
        rfl
      · simp only [unplaced, regrouped, unplacedAll_eq_map, regroupedAll_eq_map, hmap,
          List.append_nil]
  · exact reads_primary_bracket (by rw [cls_of_bare hbracket]; decide)
      (by rw [text_of_bare hbracket]; decide) h.alt

/-- No member of an object starts with a closing brace. -/
theorem objectMember_lacks {close : Token} (hclose : close.bare = ⟨.rbrace, [125]⟩)
    (rest : List Token) : Reads (.rule .objectMember) (close :: rest) .lacks := by
  have hcls := cls_of_bare hclose
  have htext := text_of_bare hclose
  refine Reads.rule (a := .lacks) (reads_alt_lacks fun p hp => ?_)
  simp only [List.mem_cons, List.not_mem_nil, or_false] at hp
  rcases hp with rfl | rfl
  · exact (reads_text_lacks (hasText_eq_false (by rw [htext]; decide))).seq_lacks
  · refine Reads.rule (a := .lacks) (Reads.seq_lacks (Reads.rule (a := .lacks) ?_))
    refine reads_alt_lacks fun p hp => ?_
    simp only [List.mem_cons, List.not_mem_nil, or_false] at hp
    rcases hp with rfl | rfl | rfl | rfl
    · exact (reads_text_lacks (hasText_eq_false (by rw [htext]; decide))).seq_lacks
    all_goals exact reads_token_lacks (by rw [hcls]; decide)

theorem isPrimary_object {properties : List Node}
    (hproperties : ∀ p ∈ properties, ReadBy .objectMember p)
    (hpresent : ∀ p ∈ properties, p.isAbsent = false) (pos : Position) :
    IsPrimary (.object pos properties) := by
  intro ts rest hts
  rw [lexemes, List.cons_append] at hts
  obtain ⟨brace, us, rfl, hbrace, hus⟩ := hts.cons
  obtain ⟨vs, ws, rfl, hvs, hws⟩ := hus.append
  obtain ⟨close, rfl, hclose⟩ := hws.single
  obtain ⟨trees, hlist, hbuilds⟩ :=
    reads_memberList hproperties hvs (objectMember_lacks hclose rest)
  have hopens : hasText (lit "\x7b") brace = true :=
    hasText_eq_true.2 ⟨by rw [cls_of_bare hbrace]; decide, text_of_bare hbrace⟩
  have hcloses : hasText (lit "\x7d") close = true :=
    hasText_eq_true.2 ⟨by rw [cls_of_bare hclose]; decide, text_of_bare hclose⟩
  rw [List.cons_append, List.append_assoc, List.singleton_append]
  refine Yields.primary (r := .objectLiteral) ?_ fun trees h => ?_
  · refine yields_of_reads ([ParseTree.leaf brace] ++ (trees ++ [ParseTree.leaf close])) ?_
      fun p => ?_
    · exact (reads_text_cons hopens _).seq (hlist.seq (reads_text_cons hcloses rest).seq_last)
    · obtain ⟨ms, hms, hmap⟩ := (hbuilds.append (Builds.nil.leaf close)).leaf brace
      -- No member has been read as an absent node, so none is left out.
      have hkeep : ms.filter (fun n => !n.isAbsent) = ms := by
        refine List.filter_eq_self.2 fun m hm => ?_
        have hmem : m.unplaced ∈ (properties.map regrouped).map unplaced := by
          rw [← List.append_nil (properties.map regrouped), ← hmap]
          exact List.mem_map_of_mem hm
        obtain ⟨q, hq, heq⟩ := List.mem_map.1 hmem
        obtain ⟨r, hr, rfl⟩ := List.mem_map.1 hq
        rw [← isAbsent_unplaced m, ← heq, isAbsent_unplaced, isAbsent_regrouped, hpresent r hr]
        rfl
      refine ⟨.object p ms, ?_, ?_⟩
      · rw [build, List.singleton_append, hms, Checked.bind_ok, hkeep]
        rfl
      · simp only [unplaced, regrouped, unplacedAll_eq_map, regroupedAll_eq_map, hmap,
          List.append_nil]
  · have htext := text_of_bare hbrace
    refine reads_primary_bracket (by rw [cls_of_bare hbrace]; decide) (by rw [htext]; decide) ?_
    refine Declines.alt (.inl (Reads.rule (a := .lacks) ?_)) h.alt
    exact (reads_text_lacks (hasText_eq_false (by rw [htext]; decide))).seq_lacks

theorem isPrimary_paren {x : Node} (hx : ReadBy .expression x) (pos : Position) :
    IsPrimary (.paren pos x) := by
  intro ts rest hts
  rw [lexemes, List.cons_append] at hts
  obtain ⟨paren, us, rfl, hparen, hus⟩ := hts.cons
  obtain ⟨vs, ws, rfl, hvs, hws⟩ := hus.append
  obtain ⟨close, rfl, hclose⟩ := hws.single
  obtain ⟨xpos, kids, hread, m, hm, hmx⟩ := hx vs (close :: rest) hvs
    ⟨close, rest, rfl, by rw [hclose]; decide⟩
  have htext := text_of_bare hparen
  rw [List.cons_append, List.append_assoc, List.singleton_append]
  refine yields_of_reads [.leaf paren, .branch .expression xpos kids, .leaf close] ?_ fun p => ?_
  · refine reads_primary_bracket (by rw [cls_of_bare hparen]; decide) (by rw [htext]; decide) ?_
    refine Declines.alt (.inl ?_) (Declines.alt (.inl ?_) (Reads.alt ?_))
    · exact Reads.rule (a := .lacks)
        (reads_text_lacks (hasText_eq_false (by rw [htext]; decide))).seq_lacks
    · exact Reads.rule (a := .lacks)
        (reads_text_lacks (hasText_eq_false (by rw [htext]; decide))).seq_lacks
    · exact (reads_text_cons (hasText_mark hparen) _).seq
        (hread.seq (reads_text_cons (hasText_mark hclose) rest).seq_last)
  · refine ⟨.paren p m, ?_, by simp only [unplaced, regrouped, hmx]⟩
    rw [build, hm]
    rfl

end CubeSchema
