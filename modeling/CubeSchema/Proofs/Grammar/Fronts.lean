import CubeSchema.Proofs.Grammar.Reads
import CubeSchema.Proofs.Token.Lexing

/-!
# What a rule makes of its first tokens

Most alternatives of the grammar are told apart by one token: a token that starts no operand is
refused by every rule for expressions, and one that is no operator ends a chain. Two alternatives
need more. The head of an `async` function is tried on every call of `async`, and how far the search
goes is given by `afterNames`; and a repetition whose last round breaks off far away fails as a
whole.
-/

namespace CubeSchema.Grammar

/-- Every pattern of the grammar gives an answer. -/
theorem Reads.total {limit : Option Nat} {p : Pattern} (hp : p.isModest = true) (ts : List Token) :
    ∃ a, Reads p ts a limit := by
  have hne := @suffices_scan limit (64 * ts.length + p.need) p ts hp (Nat.le_refl _)
  obtain ⟨a, ha⟩ := Option.ne_none_iff_exists'.1 hne
  exact ⟨a, _, ha⟩

/-- A statement with the semicolons behind it. -/
def statementLine : Pattern := .seq [.rule .statement, .many (.text (lit ";"))]

/-! ## Tokens -/

theorem hasText_eq_true {t : Text} {token : Token} :
    hasText t token = true ↔ token.cls ≠ .eof ∧ token.text = t := by
  simp [hasText]

theorem hasText_eq_false {t : Text} {token : Token} (h : token.text ≠ t) :
    hasText t token = false := by
  simp [hasText, h]

/-- One of several texts takes a token that has one of them. -/
theorem reads_oneOf_takes {texts : List String} {ts rest : List Token} {trees : List ParseTree} :
    Reads (.oneOf texts) ts (.takes trees rest) ↔
      ∃ token, ts = token :: rest ∧ token.cls ≠ .eof ∧ token.text ∈ texts.map lit ∧
        trees = [.leaf token] := by
  induction texts with
  | nil => simp [Pattern.oneOf, reads_alt_nil]
  | cons t texts ih =>
    have ih' : Reads (.alt (texts.map fun t => .text (lit t))) ts (.takes trees rest) ↔ _ := ih
    simp only [Pattern.oneOf, List.map_cons, reads_alt_cons, ih', reads_text_takes,
      hasText_eq_true, List.mem_cons]
    constructor
    · rintro (⟨token, rfl, ⟨hcls, htext⟩, rfl⟩ | ⟨-, token, rfl, hcls, htext, rfl⟩)
      · exact ⟨token, rfl, hcls, .inl htext, rfl⟩
      · exact ⟨token, rfl, hcls, .inr htext, rfl⟩
    · rintro ⟨token, rfl, hcls, htext, rfl⟩
      by_cases hfirst : token.text = lit t
      · exact .inl ⟨token, rfl, ⟨hcls, hfirst⟩, rfl⟩
      · refine .inr ⟨.inl (reads_text_lacks (hasText_eq_false hfirst)), token, rfl, hcls, ?_, rfl⟩
        exact htext.resolve_left hfirst

/-- One of several texts is lacking in front of a token that has none of them. -/
theorem reads_oneOf_lacks {texts : List String} {token : Token} {ts : List Token}
    (h : token.text ∉ texts.map lit) : Reads (.oneOf texts) (token :: ts) .lacks := by
  refine reads_alt_lacks fun p hp => ?_
  obtain ⟨t, ht, rfl⟩ := List.mem_map.1 hp
  exact reads_text_lacks (hasText_eq_false fun h' => h (List.mem_map.2 ⟨t, ht, h'.symm⟩))

/-! ## Tokens that start no expression -/

/-- The classes of tokens that are operands by themselves or start a template. -/
def operandClasses : List TokenClass := [.number, .string, .ident, .backtick]

/-- The texts that start an expression. -/
def startTexts : List Text :=
  unaryOperators.map lit ++ keywordValues.map lit ++
    [lit "[", lit "\x7b", lit "(", lit "async"]

/-- A token does not start an expression. -/
structure StartsNothing (token : Token) : Prop where
  /-- It is no operand by itself. -/
  cls : token.cls ∉ operandClasses
  /-- It is none of the operators, words and brackets that start one. -/
  text : token.text ∉ startTexts

/-- No operand starts with a token that starts nothing. -/
theorem StartsNothing.unary_lacks {token : Token} (h : StartsNothing token) (ts : List Token) :
    Reads (.rule .unary) (token :: ts) .lacks := by
  obtain ⟨hcls, htext⟩ := h
  simp only [operandClasses, List.mem_cons, List.not_mem_nil, or_false, not_or] at hcls
  simp only [startTexts, List.mem_append, List.mem_cons, List.not_mem_nil, or_false,
    not_or] at htext
  obtain ⟨hnumber, hstring, hident, hbacktick⟩ := hcls
  obtain ⟨⟨hunary, hkeyword⟩, hbracket, hbrace, hparen, -⟩ := htext
  have hprimary : Reads (.rule .primary) (token :: ts) .lacks := by
    refine Reads.rule (a := .lacks) (reads_alt_lacks fun p hp => ?_)
    simp only [List.mem_cons, List.not_mem_nil, or_false] at hp
    rcases hp with rfl | rfl | rfl | rfl | rfl | rfl | rfl | rfl
    · exact reads_oneOf_lacks hkeyword
    · exact reads_token_lacks hnumber
    · exact reads_token_lacks hstring
    · exact Reads.rule (a := .lacks) (reads_token_lacks hbacktick).seq_lacks
    · exact Reads.rule (a := .lacks) (reads_text_lacks (hasText_eq_false hbracket)).seq_lacks
    · exact Reads.rule (a := .lacks) (reads_text_lacks (hasText_eq_false hbrace)).seq_lacks
    · exact (reads_text_lacks (hasText_eq_false hparen)).seq_lacks
    · exact reads_token_lacks hident
  refine Reads.rule (a := .lacks) (reads_alt_lacks fun p hp => ?_)
  simp only [List.mem_cons, List.not_mem_nil, or_false] at hp
  rcases hp with rfl | rfl
  · exact (reads_oneOf_lacks hunary).seq_lacks
  · exact Reads.rule (a := .lacks) hprimary.seq_lacks

/-- A pattern takes the tokens in front of `rest`, for whatever trees. -/
def Passes (p : Pattern) (ts rest : List Token) : Prop := ∃ trees, Reads p ts (.takes trees rest)

theorem Passes.nil (ts : List Token) : Passes (.seq []) ts ts := ⟨[], reads_seq_nil.2 ⟨rfl, rfl⟩⟩

theorem Passes.seq {p : Pattern} {ps : List Pattern} {ts mid rest : List Token}
    (h : Passes p ts mid) (hs : Passes (.seq ps) mid rest) : Passes (.seq (p :: ps)) ts rest := by
  obtain ⟨front, h⟩ := h
  obtain ⟨back, hs⟩ := hs
  exact ⟨_, h.seq hs⟩

theorem Passes.opt {p : Pattern} {ts rest : List Token} (h : Passes p ts rest) :
    Passes (.opt p) ts rest := by
  obtain ⟨trees, h⟩ := h
  exact ⟨trees, h.opt⟩

theorem Passes.rule {name : Rule} {ts rest : List Token} (h : Passes name.pattern ts rest) :
    Passes (.rule name) ts rest := by
  obtain ⟨kids, h⟩ := h
  exact ⟨_, reads_rule_takes.2 ⟨kids, h, rfl⟩⟩

theorem Passes.alt {p : Pattern} {ts rest : List Token} (h : Passes p ts rest)
    (ps : List Pattern) : Passes (.alt (p :: ps)) ts rest := by
  obtain ⟨trees, h⟩ := h
  exact ⟨trees, h.alt⟩

/-- A choice passes what it passes behind an alternative that declines. -/
theorem Passes.behind {p : Pattern} {ps : List Pattern} {ts rest : List Token}
    (hp : Declines p ts) (h : Passes (.alt ps) ts rest) : Passes (.alt (p :: ps)) ts rest := by
  obtain ⟨trees, h⟩ := h
  exact ⟨trees, hp.alt h⟩

/-- A repetition of what declines passes nothing. -/
theorem Passes.none {p : Pattern} {ts : List Token} (hp : p.isNullable = false)
    (h : Declines p ts) : Passes (.many p) ts ts := ⟨[], Repeats.nil.reads_many hp h⟩

theorem passes_text {t : Text} {token : Token} (h : hasText t token = true) (ts : List Token) :
    Passes (.text t) (token :: ts) ts := ⟨_, reads_text_cons h ts⟩

theorem passes_name {token : Token} (h : token.cls = .ident) (ts : List Token) :
    Passes (.rule .ident) (token :: ts) ts :=
  ⟨_, reads_rule_takes.2 ⟨_, reads_token_cons h ts, rfl⟩⟩

/-! ## The head of a function -/

/-- A list of names in parentheses. -/
def nameList : Pattern := .seq [.text (lit "("), .commaList (.rule .ident), .text (lit ")")]

/-- What stands in front of the arrow of a function: a list of names or a single name. -/
def arrowHead : Pattern := .alt [nameList, .rule .ident]

/-- A function behind its marker word. -/
def arrowTail : Pattern := .seq [arrowHead, .text (lit "=>"), .rule .expression]

/-- The search for an arrow is given up in front of `rest`. -/
def Abandons (ts rest : List Token) : Prop :=
  Reads arrowTail ts (.breaks rest) ∨ Reads arrowTail ts .lacks ∧ rest = ts

/-- A function without a marker word whose search for an arrow is given up. -/
theorem Abandons.arrow {token : Token} {ts rest : List Token} (h : Abandons (token :: ts) rest)
    (ht : token.text ≠ lit "async") : Reads (.rule .arrowFunction) (token :: ts) (.breaks rest) :=
  Reads.rule (a := .breaks rest)
    (Reads.seq_breaks_later (reads_text_lacks (hasText_eq_false ht)).opt_lacks h)

/-- A search for an arrow that is given up nearby. -/
theorem Abandons.declines {token : Token} {ts rest : List Token} (h : Abandons (token :: ts) rest)
    (ht : token.text ≠ lit "async")
    (hnear : (token :: ts).length ≤ Reader.lookahead + rest.length) :
    Declines (.rule .arrowFunction) (token :: ts) :=
  .inr ⟨rest, h.arrow ht, isFar_eq_false hnear⟩

/-- A function with a marker word whose search for an arrow is given up. -/
theorem Abandons.asyncArrow {token : Token} {ts rest : List Token} (h : Abandons ts rest)
    (ht : hasText (lit "async") token = true) :
    Reads (.rule .arrowFunction) (token :: ts) (.breaks rest) :=
  Reads.rule (a := .breaks rest)
    (Reads.seq_breaks_later (reads_text_cons ht ts).opt h)

/-- No function starts with a token that is neither a name nor an opening parenthesis. -/
theorem abandons_other {token : Token} {ts : List Token} (hcls : token.cls ≠ .ident)
    (htext : token.text ≠ lit "(") : Abandons (token :: ts) (token :: ts) := by
  refine .inr ⟨Reads.seq_lacks (reads_alt_lacks fun p hp => ?_), rfl⟩
  simp only [List.mem_cons, List.not_mem_nil, or_false] at hp
  rcases hp with rfl | rfl
  · exact (reads_text_lacks (hasText_eq_false htext)).seq_lacks
  · exact Reads.rule (a := .lacks) (reads_token_lacks hcls)

/-- A name without an arrow behind it. -/
theorem abandons_name {token next : Token} {ts : List Token} (hcls : token.cls = .ident)
    (htext : token.text ≠ lit "(") (hnext : next.text ≠ lit "=>") :
    Abandons (token :: next :: ts) (next :: ts) := by
  have hhead : Reads arrowHead (token :: next :: ts)
      (.takes [.branch .ident (startOf (token :: next :: ts)) [.leaf token]] (next :: ts)) := by
    refine Declines.alt (.inl ?_) (Reads.alt ?_)
    · exact (reads_text_lacks (hasText_eq_false htext)).seq_lacks
    · exact reads_rule_takes.2 ⟨_, reads_token_cons hcls _, rfl⟩
  refine .inl (Reads.seq_breaks_later hhead (.inr ⟨Reads.seq_lacks ?_, rfl⟩))
  exact reads_text_lacks (hasText_eq_false hnext)

/-- The tokens behind a text, if they start with it. -/
def skip (t : Text) : List Token → List Token
  | token :: rest => if hasText t token then rest else token :: rest
  | [] => []

/-- Whether a list of names is closed here, and the tokens behind it. -/
def closing : List Token → Bool × List Token
  | token :: rest => if hasText (lit ")") token then (true, rest) else (false, token :: rest)
  | [] => (false, [])

/-- How a list of names goes on behind a name: whether it is closed, and the tokens that are left
when it is closed or breaks off. -/
def afterName : List Token → Bool × List Token
  | comma :: name :: rest =>
    if hasText (lit ",") comma && name.cls = .ident then afterName rest
    else closing (skip (lit ",") (comma :: name :: rest))
  | ts => closing (skip (lit ",") ts)

/-- How a list of names goes on behind its opening parenthesis. -/
def afterNames : List Token → Bool × List Token
  | name :: rest => if name.cls = .ident then afterName rest else closing (name :: rest)
  | [] => (false, [])

/-- A text is taken or is lacking. -/
theorem reads_text_skip (t : Text) (ts : List Token) :
    Passes (.text t) ts (skip t ts) ∨ Reads (.text t) ts .lacks ∧ skip t ts = ts := by
  cases ts with
  | nil => exact .inr ⟨⟨1, rfl⟩, rfl⟩
  | cons token ts =>
    cases h : hasText t token with
    | true => exact .inl (by simpa [skip, h] using passes_text h ts)
    | false => exact .inr ⟨reads_text_lacks h, by simp [skip, h]⟩

theorem passes_opt_text (t : Text) (ts : List Token) : Passes (.opt (.text t)) ts (skip t ts) := by
  rcases reads_text_skip t ts with h | ⟨h, hskip⟩
  · exact h.opt
  · rw [hskip]
    exact ⟨[], h.opt_lacks⟩

/-- A name behind a comma. -/
def nextName : Pattern := .seq [.text (lit ","), .rule .ident]

/-- The names behind the first one of a list, and its end. -/
theorem repeats_afterName (ts : List Token) :
    ∃ trees mid, Repeats nextName ts trees mid ∧ Declines nextName mid ∧
      afterName ts = closing (skip (lit ",") mid) := by
  fun_induction afterName ts with
  | case1 comma name rest h ih =>
    simp only [Bool.and_eq_true, decide_eq_true_eq] at h
    obtain ⟨trees, mid, hrep, hdecl, hafter⟩ := ih
    obtain ⟨front, hfront⟩ : Passes nextName (comma :: name :: rest) rest :=
      (passes_text h.1 _).seq ((passes_name h.2 _).seq (.nil _))
    exact ⟨front ++ trees, mid, .cons hfront hrep, hdecl, hafter⟩
  -- A comma without a name behind it is no next name, but it is taken back, as it is nearby.
  | case2 comma name rest h =>
    refine ⟨[], _, .nil, ?_, rfl⟩
    simp only [Bool.and_eq_true, decide_eq_true_eq, not_and] at h
    cases hcomma : hasText (lit ",") comma with
    | false => exact .inl (reads_text_lacks hcomma).seq_lacks
    | true =>
      refine .inr ⟨name :: rest, ?_,
        isFar_eq_false (by simp only [Reader.lookahead, List.length_cons]; omega)⟩
      refine Reads.seq_breaks_later (reads_text_cons hcomma _) (.inr ⟨?_, rfl⟩)
      exact Reads.seq_lacks (Reads.rule (a := .lacks) (reads_token_lacks (h hcomma)))
  | case3 ts hne =>
    refine ⟨[], ts, .nil, ?_, rfl⟩
    match ts, hne with
    | [], _ => exact .inl (Reads.seq_lacks ⟨1, rfl⟩)
    | [comma], _ =>
      cases hcomma : hasText (lit ",") comma with
      | false => exact .inl (reads_text_lacks hcomma).seq_lacks
      | true =>
        refine .inr ⟨[], ?_, isFar_eq_false (by simp [Reader.lookahead])⟩
        refine Reads.seq_breaks_later (reads_text_cons hcomma _) (.inr ⟨?_, rfl⟩)
        exact Reads.seq_lacks (Reads.rule (a := .lacks) ⟨1, rfl⟩)
    | comma :: name :: rest, hne => exact absurd rfl (hne comma name rest)

/-- A closing parenthesis is taken or is lacking. -/
theorem reads_closing (ts : List Token) :
    (closing ts).1 = true ∧ Passes (.text (lit ")")) ts (closing ts).2 ∨
      (closing ts).1 = false ∧ Reads (.text (lit ")")) ts .lacks ∧ (closing ts).2 = ts := by
  cases ts with
  | nil => exact .inr ⟨rfl, ⟨1, rfl⟩, rfl⟩
  | cons token ts =>
    cases h : hasText (lit ")") token with
    | true => exact .inl (by simpa [closing, h] using passes_text h ts)
    | false => exact .inr (by simpa [closing, h] using reads_text_lacks h)

/-- A list of names in parentheses is taken if it is closed, and else it is broken off. -/
theorem reads_nameList {token : Token} (htoken : hasText (lit "(") token = true)
    (ts : List Token) :
    (afterNames ts).1 = true ∧ Passes nameList (token :: ts) (afterNames ts).2 ∨
      (afterNames ts).1 = false ∧ Reads nameList (token :: ts) (.breaks (afterNames ts).2) := by
  have hnone : ∀ {us : List Token}, Reads (.rule .ident) us .lacks →
      Passes (.commaList (.rule .ident)) us us := fun h => ⟨[], h.seq_lacks.opt_lacks⟩
  -- The names are always taken; what follows them decides.
  have hlist : ∃ mid, Passes (.commaList (.rule .ident)) ts mid ∧ afterNames ts = closing mid := by
    cases ts with
    | nil => exact ⟨[], hnone (Reads.rule (a := .lacks) ⟨1, rfl⟩), rfl⟩
    | cons name rest =>
      by_cases hname : name.cls = .ident
      · obtain ⟨trees, mid, hrep, hdecl, hafter⟩ := repeats_afterName rest
        have hmany : Passes (.many nextName) rest mid := ⟨trees, hrep.reads_many rfl hdecl⟩
        refine ⟨skip (lit ",") mid, Passes.opt ?_, by simp [afterNames, hname, hafter]⟩
        exact (passes_name hname _).seq (hmany.seq ((passes_opt_text _ _).seq (.nil _)))
      · exact ⟨name :: rest, hnone (Reads.rule (a := .lacks) (reads_token_lacks hname)),
          by simp [afterNames, hname]⟩
  obtain ⟨mid, hlist, hafter⟩ := hlist
  rw [hafter]
  rcases reads_closing mid with ⟨hclosed, hclose⟩ | ⟨hclosed, hclose, hskip⟩
  · exact .inl ⟨hclosed, (passes_text htoken _).seq (hlist.seq (hclose.seq (.nil _)))⟩
  · rw [hskip]
    obtain ⟨front, hopen⟩ := passes_text htoken ts
    obtain ⟨names, hlist⟩ := hlist
    refine .inr ⟨hclosed, Reads.seq_breaks_later hopen (.inl ?_)⟩
    exact Reads.seq_breaks_later hlist (.inr ⟨hclose.seq_lacks, rfl⟩)

/-- The search for an arrow behind a list of names. It is given up behind a list that is closed, and
in front of one that breaks off nearby. -/
theorem abandons_open {token : Token} {ts : List Token} (htoken : hasText (lit "(") token = true)
    (hcls : token.cls ≠ .ident)
    (hnext : ∀ t ∈ (afterNames ts).2.head?, t.text ≠ lit "=>")
    (hnear : (afterNames ts).1 = false → isFar (token :: ts) (afterNames ts).2 = false) :
    Abandons (token :: ts) (if (afterNames ts).1 then (afterNames ts).2 else token :: ts) := by
  rcases reads_nameList htoken ts with ⟨hclosed, trees, hnames⟩ | ⟨hclosed, hnames⟩
  · rw [if_pos hclosed]
    have hhead : Reads arrowHead (token :: ts) (.takes trees (afterNames ts).2) :=
      hnames.alt
    refine .inl (Reads.seq_breaks_later hhead (.inr ⟨Reads.seq_lacks ?_, rfl⟩))
    cases hrest : (afterNames ts).2 with
    | nil => exact ⟨1, rfl⟩
    | cons next rest => exact reads_text_lacks (hasText_eq_false (hnext next (by rw [hrest]; rfl)))
  · rw [if_neg (by simp [hclosed])]
    have hhead : Refuses arrowHead (token :: ts) := by
      refine refuses_alt fun p hp => ?_
      simp only [List.mem_cons, List.not_mem_nil, or_false] at hp
      rcases hp with rfl | rfl
      · exact .inr ⟨_, hnames, hnear hclosed⟩
      · exact .inl (Reads.rule (a := .lacks) (reads_token_lacks hcls))
    rcases hhead with hhead | hhead
    · exact .inr ⟨hhead.seq_lacks, rfl⟩
    · exact .inl hhead.seq_breaks

/-! ## Ends of chains and lists -/

/-- No expression starts with a token that starts nothing. -/
theorem StartsNothing.expression_breaks {token : Token} (h : StartsNothing token)
    (ts : List Token) : Reads (.rule .expression) (token :: ts) (.breaks (token :: ts)) := by
  have hcls : token.cls ≠ .ident := by
    intro hcls
    exact h.cls (by simp [operandClasses, hcls])
  have hparen : token.text ≠ lit "(" := by
    intro htext
    exact h.text (by simp [startTexts, htext])
  have hasync : token.text ≠ lit "async" := by
    intro htext
    exact h.text (by simp [startTexts, htext])
  have harrow : Reads (.rule .arrowFunction) (token :: ts) (.breaks (token :: ts)) :=
    (abandons_other hcls hparen).arrow hasync
  have hchain : Reads (.rule .binaryChain) (token :: ts) .lacks :=
    Reads.rule (a := .lacks) (h.unary_lacks ts).seq_lacks
  obtain ⟨m, hm⟩ := harrow
  obtain ⟨n, hn⟩ := hchain
  have hm' := extends_scan (Nat.le_max_left m n) _ _ _ hm
  have hn' := extends_scan (Nat.le_max_right m n) _ _ _ hn
  have hnear : isFar (token :: ts) (token :: ts) = false := isFar_eq_false (by omega)
  exact Reads.rule (a := .breaks (token :: ts))
    ⟨max m n + 1, by simp [Rule.pattern, scan, scanAlt, hm', hn', hnear]⟩

/-- No call or member access starts with a token other than its marks. -/
theorem suffix_lacks {token : Token} (h : token.text ∉ ["(", "[", ".", "?."].map lit)
    (ts : List Token) : Reads (.rule .suffix) (token :: ts) .lacks := by
  simp only [List.map_cons, List.map_nil, List.mem_cons, List.not_mem_nil, or_false, not_or] at h
  refine Reads.rule (a := .lacks) (reads_alt_lacks fun p hp => ?_)
  simp only [List.mem_cons, List.not_mem_nil, or_false] at hp
  rcases hp with rfl | rfl | rfl | rfl
  · exact Reads.rule (a := .lacks) (reads_text_lacks (hasText_eq_false h.1)).seq_lacks
  · exact (reads_text_lacks (hasText_eq_false h.2.1)).seq_lacks
  · exact (reads_text_lacks (hasText_eq_false h.2.2.1)).seq_lacks
  · exact (reads_text_lacks (hasText_eq_false h.2.2.2)).seq_lacks

/-- No link of a chain starts with a token that is no binary operator. -/
theorem binaryOp_lacks {token : Token} (h : token.text ∉ binaryOperators.map lit)
    (ts : List Token) : Reads (.rule .binaryOp) (token :: ts) .lacks :=
  Reads.rule (a := .lacks) (reads_oneOf_lacks h).seq_lacks

/-- A repetition takes something, if only nothing at all, or breaks off far away. -/
theorem Reads.many_takes_or_far {p : Pattern} {ts : List Token} {a : Answer}
    (h : Reads (.many p) ts a) :
    (∃ trees rest, a = .takes trees rest) ∨ ∃ rest, a = .breaks rest ∧ isFar ts rest = true := by
  obtain ⟨_ | fuel, h⟩ := h
  · simp [scan] at h
  · simp only [scan, Option.isSome_none, Option.getD_none] at h
    generalize ts.length + 1 = rounds at h
    induction rounds generalizing ts a with
    | zero => exact .inl ⟨_, _, (Option.some.inj h).symm⟩
    | succ rounds ih =>
      unfold scanMany at h
      split at h
      · simp at h
      · exact .inl ⟨_, _, (Option.some.inj h).symm⟩
      · rename_i rest hp
        split at h
        · rename_i hfar
          exact .inr ⟨rest, (Option.some.inj h).symm, hfar⟩
        · exact .inl ⟨_, _, (Option.some.inj h).symm⟩
      · rename_i front mid hp
        obtain ⟨b, hb, rfl⟩ := Option.map_eq_some_iff.1 h
        rcases ih hb with ⟨back, rest, rfl⟩ | ⟨rest, rfl, hfar⟩
        · exact .inl ⟨_, _, rfl⟩
        · refine .inr ⟨rest, rfl, ?_⟩
          have hle := (length_rest_of_scan hp).1
          unfold isFar at hfar ⊢
          simp only [decide_eq_true_eq] at hfar ⊢
          omega

/-! ## Committing -/

/-- A pattern takes tokens here, or breaks off so far away that no alternative is tried. -/
def Commits (p : Pattern) (ts : List Token) : Prop :=
  (∃ trees rest, Reads p ts (.takes trees rest)) ∨
    ∃ rest, Reads p ts (.breaks rest) ∧ isFar ts rest = true

theorem Reads.commits {p : Pattern} {ts rest : List Token} {trees : List ParseTree}
    (h : Reads p ts (.takes trees rest)) : Commits p ts := .inl ⟨trees, rest, h⟩

/-- A pattern that commits does not let a choice go on. -/
theorem Commits.not_declines {p : Pattern} {ts : List Token} (h : Commits p ts) :
    ¬ Declines p ts := by
  intro hdecl
  rcases h with ⟨trees, rest, h⟩ | ⟨rest, h, hfar⟩
  · exact hdecl.not_takes h
  · rcases hdecl with h' | ⟨rest', h', hnear⟩
    · exact absurd (h.unique h') (by simp)
    · obtain rfl : rest = rest' := by simpa using h.unique h'
      simp [hfar] at hnear

theorem Commits.rule {name : Rule} {ts : List Token} (h : Commits name.pattern ts) :
    Commits (.rule name) ts := by
  rcases h with ⟨trees, rest, h⟩ | ⟨rest, h, hfar⟩
  · exact .inl ⟨_, rest, h.rule⟩
  · exact .inr ⟨rest, h.rule, hfar⟩

/-- A sequence commits behind parts that are taken. -/
theorem Commits.seq {p : Pattern} {ps : List Pattern} {ts mid : List Token}
    {front : List ParseTree} (h : Commits (.seq ps) mid) (hp : Reads p ts (.takes front mid)) :
    Commits (.seq (p :: ps)) ts := by
  rcases h with ⟨back, rest, h⟩ | ⟨rest, h, hfar⟩
  · exact .inl ⟨_, rest, hp.seq h⟩
  · refine .inr ⟨rest, Reads.seq_breaks_later hp (.inl h), ?_⟩
    have hle := hp.length_le
    unfold isFar at hfar ⊢
    simp only [decide_eq_true_eq] at hfar ⊢
    omega

theorem Commits.seq_last {p : Pattern} {ts : List Token} (h : Commits p ts) :
    Commits (.seq [p]) ts := by
  rcases h with ⟨trees, rest, h⟩ | ⟨rest, h, hfar⟩
  · exact .inl ⟨_, rest, h.seq_last⟩
  · exact .inr ⟨rest, h.seq_breaks, hfar⟩

/-- A repetition always commits. -/
theorem commits_many {p : Pattern} (hp : (Pattern.many p).isModest = true) (ts : List Token) :
    Commits (.many p) ts := by
  obtain ⟨a, ha⟩ := Reads.total hp ts
  rcases ha.many_takes_or_far with ⟨trees, rest, rfl⟩ | ⟨rest, rfl, hfar⟩
  · exact .inl ⟨trees, rest, ha⟩
  · exact .inr ⟨rest, ha, hfar⟩

/-- An optional pattern commits if the pattern itself gives an answer. -/
theorem commits_opt {p : Pattern} (hp : p.isModest = true) (ts : List Token) :
    Commits (.opt p) ts := by
  obtain ⟨a, ha⟩ := Reads.total hp ts
  cases a with
  | lacks => exact .inl ⟨_, _, ha.opt_lacks⟩
  | takes trees rest => exact .inl ⟨_, _, ha.opt⟩
  | breaks rest =>
    cases hfar : isFar ts rest with
    | false => exact .inl ⟨_, _, Declines.opt (.inr ⟨rest, ha, hfar⟩)⟩
    | true =>
      obtain ⟨fuel, ha⟩ := ha
      exact .inr ⟨rest, ⟨fuel + 1, by simp [scan, scanMany, ha, hfar]⟩, hfar⟩

/-- A choice commits with its first alternative. -/
theorem Commits.alt {p : Pattern} {ts : List Token} (h : Commits p ts) (ps : List Pattern) :
    Commits (.alt (p :: ps)) ts := by
  rcases h with ⟨trees, rest, h⟩ | ⟨rest, ⟨fuel, h⟩, hfar⟩
  · exact .inl ⟨_, rest, h.alt⟩
  · exact .inr ⟨rest, ⟨fuel + 1, by simp [scan, scanAlt, h, hfar]⟩, hfar⟩

/-- A choice commits behind an alternative that is lacking. -/
theorem Commits.alt_lacks {p : Pattern} {ps : List Pattern} {ts : List Token}
    (h : Commits (.alt ps) ts) (hp : Reads p ts .lacks) : Commits (.alt (p :: ps)) ts := by
  rcases h with ⟨trees, rest, h⟩ | ⟨rest, h, hfar⟩
  · exact .inl ⟨trees, rest, h.alt_behind_lacks hp⟩
  · exact .inr ⟨rest, h.alt_behind_lacks hp, hfar⟩

/-- An operand commits once its first part is taken. -/
theorem commits_unary_of_primary {token : Token} {ts mid : List Token} {trees : List ParseTree}
    (h : Reads (.rule .primary) (token :: ts) (.takes trees mid))
    (hop : token.text ∉ unaryOperators.map lit) : Commits (.rule .unary) (token :: ts) := by
  have hsuffixes : Commits (.seq [.many (.rule .suffix)]) mid := (commits_many rfl mid).seq_last
  have hsuffixed : Commits (.rule .suffixed) (token :: ts) := Commits.rule (hsuffixes.seq h)
  exact Commits.rule ((hsuffixed.alt []).alt_lacks (reads_oneOf_lacks hop).seq_lacks)

/-- A pattern does not match here, and does not break off far from where the search began. -/
def Misses (origin : List Token) (p : Pattern) (ts : List Token) : Prop :=
  (∀ trees rest, ¬ Reads p ts (.takes trees rest)) ∧
    ∀ rest, Reads p ts (.breaks rest) → isFar origin rest = false

theorem Declines.misses {p : Pattern} {ts : List Token} (h : Declines p ts) : Misses ts p ts := by
  refine ⟨fun trees rest => h.not_takes, fun rest hbreak => ?_⟩
  rcases h with h | ⟨rest', h, hnear⟩
  · exact absurd (h.unique hbreak) (by simp)
  · obtain rfl : rest' = rest := by simpa using h.unique hbreak
    exact hnear

/-- A sequence that is missed is missed behind its first part, which does not lead far away. -/
theorem Misses.seq {origin : List Token} {p : Pattern} {ps : List Pattern} {ts mid : List Token}
    {front : List ParseTree} (h : Misses origin (.seq (p :: ps)) ts)
    (hp : Reads p ts (.takes front mid)) (hps : (Pattern.seq ps).isModest = true) :
    Misses origin (.seq ps) mid ∧ isFar origin mid = false := by
  have hmiss : Misses origin (.seq ps) mid := by
    refine ⟨fun trees rest htake => h.1 _ _ (hp.seq htake), fun rest hbreak => ?_⟩
    exact h.2 rest (Reads.seq_breaks_later hp (.inl hbreak))
  refine ⟨hmiss, ?_⟩
  obtain ⟨a, ha⟩ := Reads.total hps mid
  cases a with
  | lacks => exact h.2 mid (Reads.seq_breaks_later hp (.inr ⟨ha, rfl⟩))
  | takes trees rest => exact absurd ha (hmiss.1 trees rest)
  | breaks rest =>
    have hnear := hmiss.2 rest ha
    have hle := ha.length_breaks
    unfold isFar at hnear ⊢
    simp only [decide_eq_false_iff_not] at hnear ⊢
    omega

/-- Where no function is read behind the marker word, a list behind it was searched only nearby. -/
theorem near_of_arrow_declines {token paren : Token} {ts : List Token}
    (h : Declines (.rule .arrowFunction) (token :: paren :: ts))
    (htoken : hasText (lit "async") token = true) (hparen : hasText (lit "(") paren = true) :
    (if (afterNames ts).1 then 2 else 1) + ts.length ≤
      Reader.lookahead + (afterNames ts).2.length := by
  have hmiss : Misses (token :: paren :: ts) Rule.arrowFunction.pattern (token :: paren :: ts) := by
    have hmiss := h.misses
    refine ⟨fun trees rest htake => hmiss.1 _ _ htake.rule, fun rest hbreak => ?_⟩
    exact hmiss.2 rest hbreak.rule
  obtain ⟨hmiss, -⟩ := hmiss.seq (reads_text_cons htoken (paren :: ts)).opt rfl
  rcases reads_nameList hparen ts with ⟨hclosed, trees, hnames⟩ | ⟨hclosed, hnames⟩
  · -- The list is closed, and the arrow is looked for behind it.
    have hhead : Reads arrowHead (paren :: ts) (.takes trees (afterNames ts).2) := hnames.alt
    obtain ⟨-, hnear⟩ := hmiss.seq hhead rfl
    rw [if_pos hclosed]
    unfold isFar at hnear
    simp only [List.length_cons, decide_eq_false_iff_not] at hnear
    omega
  · -- The list breaks off, and if it did so far away, all of it would have failed.
    rw [hclosed, if_neg Bool.false_ne_true]
    cases hfar : isFar (paren :: ts) (afterNames ts).2 with
    | false =>
      unfold isFar at hfar
      simp only [List.length_cons, decide_eq_false_iff_not] at hfar
      omega
    | true =>
      have hhead : Reads arrowHead (paren :: ts) (.breaks (afterNames ts).2) := by
        obtain ⟨fuel, hnames⟩ := hnames
        exact ⟨fuel + 1, by simp [arrowHead, scan, scanAlt, hnames, hfar]⟩
      have hnear := hmiss.2 _ hhead.seq_breaks
      unfold isFar at hnear hfar
      simp only [List.length_cons, decide_eq_false_iff_not, decide_eq_true_eq] at hnear hfar
      omega

end CubeSchema.Grammar
