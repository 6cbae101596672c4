import CubeSchema.Proofs.Grammar.Fronts
import CubeSchema.Proofs.Token.Origin
import CubeSchema.Proofs.Tree.Building
import CubeSchema.Proofs.Tree.Formed

/-!
# What a rule has read

The reverse of reading: from a tree that was built of some tokens, each rule gives back which tokens
it took and what its parts were built of. There is one statement for each rule; later proofs use
these and never open the grammar.
-/

namespace CubeSchema

open Lexeme Lexer Grammar Node ParseTree

/-! ## Tokens of a source -/

/-- The tokens are an end of those of a source. -/
def Sourced (ts : List Token) : Prop := Linked (ts.map Token.bare)

theorem Sourced.sound {t : Token} {ts : List Token} (h : Sourced (t :: ts)) : t.bare.IsSound := by
  cases h with
  | cons sound _ _ => exact sound

theorem Sourced.tail {t : Token} {ts : List Token} (h : Sourced (t :: ts)) : Sourced ts := by
  cases h with
  | cons _ _ more => exact more

/-- A token that opens no template is followed by a token in code. -/
theorem Sourced.next {t u : Token} {ts : List Token} (h : Sourced (t :: u :: ts))
    (ht : t.cls ∉ templateOpeners) : u.cls ∉ templateClasses := by
  cases h with
  | cons _ next _ => exact (next u.bare rfl).code ht

/-- A token behind one that opens no template opens none itself, unless by a mark of its own. -/
theorem Sourced.not_opener {t u : Token} {ts : List Token} (h : Sourced (t :: u :: ts))
    (ht : t.cls ∉ templateOpeners) (htick : u.text ≠ [96]) (hbrace : u.text ≠ [125]) :
    u.cls ∉ templateOpeners := by
  have hnext := h.next ht
  have hsound := h.tail.sound
  intro hmem
  simp only [templateOpeners, List.mem_cons, List.not_mem_nil, or_false] at hmem
  rcases hmem with hcls | hcls | hcls | hcls
  · rw [BareToken.IsSound, show u.bare.cls = _ from hcls] at hsound
    exact htick hsound
  · rw [BareToken.IsSound, show u.bare.cls = _ from hcls] at hsound
    exact hbrace hsound
  · exact hnext (by rw [hcls]; decide)
  · exact hnext (by rw [hcls]; decide)

theorem Sourced.code {t : Token} {ts : List Token} (h : Sourced (t :: ts))
    (ht : t.cls ∉ templateOpeners) : ∀ u ∈ ts.head?, u.cls ∉ templateClasses := by
  intro u hu
  cases ts with
  | nil => simp at hu
  | cons v ts =>
    obtain rfl := Option.some.inj hu
    exact h.next ht

theorem Sourced.dollar {t u : Token} {ts : List Token} (h : Sourced (t :: u :: ts))
    (ht : t.cls = .dollar) : u.text.head? ≠ some 123 := by
  cases h with
  | cons _ next _ => exact (next u.bare rfl).dollar ht

theorem Sourced.rest {limit : Option Nat} {p : Pattern} {ts rest : List Token}
    {trees : List ParseTree} (h : Sourced ts) (hread : Reads p ts (.takes trees rest) limit) :
    Sourced rest := by
  rw [Sourced, hread.eq_append, List.map_append] at h
  exact h.right

theorem Sourced.isName {t : Token} {ts : List Token} (h : Sourced (t :: ts))
    (ht : t.cls = .ident) : IsName t.text := by
  have hsound := h.sound
  rwa [BareToken.IsSound, show t.bare.cls = .ident from ht] at hsound

theorem Sourced.isNumber {t : Token} {ts : List Token} (h : Sourced (t :: ts))
    (ht : t.cls = .number) : IsNumber t.text := by
  have hsound := h.sound
  rwa [BareToken.IsSound, show t.bare.cls = .number from ht] at hsound

theorem Sourced.isString {t : Token} {ts : List Token} (h : Sourced (t :: ts))
    (ht : t.cls = .string) : IsString t.text := by
  have hsound := h.sound
  rwa [BareToken.IsSound, show t.bare.cls = .string from ht] at hsound

/-! ## Trees of a rule -/

/-- A rule takes the tokens in front of `rest`, and a tree is built of them without an error. -/
def Gives (r : Rule) (ts rest : List Token) (n : Node) (limit : Option Nat := none) : Prop :=
  ∃ kids, Reads r.pattern ts (.takes kids rest) limit ∧
    build (.branch r (startOf ts) kids) = ⟨n, none⟩

section

variable {limit : Option Nat} {r : Rule} {ts rest : List Token} {n : Node}

theorem Gives.reads (h : Gives r ts rest n limit) :
    ∃ trees, Reads (.rule r) ts (.takes trees rest) limit := by
  obtain ⟨kids, h, -⟩ := h
  exact ⟨_, reads_rule_takes.2 ⟨kids, h, rfl⟩⟩

theorem Gives.sourced (h : Gives r ts rest n limit) (hts : Sourced ts) : Sourced rest := by
  obtain ⟨kids, h, -⟩ := h
  exact hts.rest h

/-- Every rule but the whole program takes a token. -/
theorem Gives.length_lt (h : Gives r ts rest n limit) (hr : r ≠ .program) :
    rest.length < ts.length := by
  obtain ⟨kids, h, -⟩ := h
  exact h.length_lt (by rw [Rule.isNullable_pattern]; exact decide_eq_false hr)

end

/-- What the one tree of a rule is built into. -/
theorem gives_of_buildAll {r : Rule} {ts rest : List Token} {trees : List ParseTree}
    {ns : List Node} (h : Reads (.rule r) ts (.takes trees rest))
    (hbuild : buildAll trees = ⟨ns, none⟩) : ∃ n, ns = [n] ∧ Gives r ts rest n := by
  obtain ⟨kids, hkids, rfl⟩ := reads_rule_takes.1 h
  obtain ⟨x, xs, hx, hxs, rfl⟩ := buildAll_branch_eq_ok hbuild
  obtain rfl : [] = xs := congrArg Checked.val hxs
  exact ⟨x, rfl, kids, hkids, hx⟩

/-! ## Sequences and lists -/

/-- A sequence of one part. -/
theorem reads_seq_single {limit : Option Nat} {p : Pattern} {ts rest : List Token}
    {trees : List ParseTree} (h : Reads (.seq [p]) ts (.takes trees rest) limit) :
    Reads p ts (.takes trees rest) limit := by
  obtain ⟨front, mid, back, hp, hnil, rfl⟩ := reads_seq_cons.1 h
  obtain ⟨rfl, rfl⟩ := reads_seq_nil.1 hnil
  rwa [List.append_nil]

/-- A text in front of a sequence. -/
theorem reads_seq_text {t : Text} {ps : List Pattern} {ts rest : List Token}
    {trees : List ParseTree} (h : Reads (.seq (.text t :: ps)) ts (.takes trees rest)) :
    ∃ token us more, ts = token :: us ∧ hasText t token = true ∧
      Reads (.seq ps) us (.takes more rest) ∧ trees = .leaf token :: more := by
  obtain ⟨front, mid, back, hp, hs, rfl⟩ := reads_seq_cons.1 h
  obtain ⟨token, rfl, htoken, rfl⟩ := reads_text_takes.1 hp
  exact ⟨token, mid, back, rfl, htoken, hs, rfl⟩

/-- A rule in front of a sequence. -/
theorem reads_seq_rule {limit : Option Nat} {r : Rule} {ps : List Pattern} {ts rest : List Token}
    {trees : List ParseTree} (h : Reads (.seq (.rule r :: ps)) ts (.takes trees rest) limit) :
    ∃ kids mid more, Reads r.pattern ts (.takes kids mid) limit ∧
      Reads (.seq ps) mid (.takes more rest) limit ∧
        trees = .branch r (startOf ts) kids :: more := by
  obtain ⟨front, mid, back, hp, hs, rfl⟩ := reads_seq_cons.1 h
  obtain ⟨kids, hkids, rfl⟩ := reads_rule_takes.1 hp
  exact ⟨kids, mid, back, hkids, hs, rfl⟩

/-- A rule between two texts. -/
theorem reads_between {a b : Text} {r : Rule} {ts rest : List Token} {trees : List ParseTree}
    (h : Reads (.seq [.text a, .rule r, .text b]) ts (.takes trees rest)) :
    ∃ first us kids last, ts = first :: us ∧ hasText a first = true ∧
      Reads r.pattern us (.takes kids (last :: rest)) ∧ hasText b last = true ∧
      trees = [.leaf first, .branch r (startOf us) kids, .leaf last] := by
  obtain ⟨first, us, more, rfl, hfirst, hmore, rfl⟩ := reads_seq_text h
  obtain ⟨kids, mid, back, hkids, hback, rfl⟩ := reads_seq_rule hmore
  obtain ⟨last, rfl, hlast, rfl⟩ := reads_text_takes.1 (reads_seq_single hback)
  exact ⟨first, us, kids, last, rfl, hfirst, hkids, hlast, rfl⟩

/-- Items with a comma between each two of them. -/
inductive Items (r : Rule) : List Token → List Node → List Token → Prop
  | last {ts rest : List Token} {n : Node} (first : Gives r ts rest n) : Items r ts [n] rest
  | cons {ts mid rest : List Token} {comma : Token} {n : Node} {ns : List Node}
      (first : Gives r ts (comma :: mid) n) (hcomma : hasText (lit ",") comma = true)
      (more : Items r mid ns rest) : Items r ts (n :: ns) rest

/-- What is left of a list behind its items: the same, or all but a last comma. -/
def Closed (mid rest : List Token) : Prop :=
  rest = mid ∨ ∃ comma, mid = comma :: rest ∧ hasText (lit ",") comma = true

/-- A list in front of `rest`: it is empty, or has items and perhaps a last comma. -/
def Listed (r : Rule) (ts : List Token) (ns : List Node) (rest : List Token) : Prop :=
  ns = [] ∧ rest = ts ∨ ∃ mid, Items r ts ns mid ∧ Closed mid rest

/-- The items behind the first one. -/
theorem items_of_repeats {r : Rule} {ts mid rest : List Token} {n : Node} {trees : List ParseTree}
    {ns : List Node} (first : Gives r ts mid n)
    (h : Repeats (.seq [.text (lit ","), .rule r]) mid trees rest)
    (hbuild : buildAll trees = ⟨ns, none⟩) : Items r ts (n :: ns) rest := by
  induction h generalizing ts n ns with
  | nil =>
    obtain rfl : [] = ns := congrArg Checked.val hbuild
    exact .last first
  | @cons mid mid' rest front back hread more ih =>
    obtain ⟨xs, ys, hxs, hys, rfl⟩ := buildAll_append_eq_ok hbuild
    obtain ⟨comma, us, trees, rfl, hcomma, hrule, rfl⟩ := reads_seq_text hread
    rw [buildAll] at hxs
    obtain ⟨m, rfl, hm⟩ := gives_of_buildAll (reads_seq_single hrule) hxs
    exact .cons first hcomma (ih hm hys)

theorem listed_of_commaList {r : Rule} {ts rest : List Token} {trees : List ParseTree}
    {ns : List Node} (h : Reads (.commaList (.rule r)) ts (.takes trees rest))
    (hbuild : buildAll trees = ⟨ns, none⟩) : Listed r ts ns rest := by
  rcases reads_opt.1 h with h | ⟨-, rfl, rfl⟩
  · obtain ⟨front, mid, back, hfirst, hback, rfl⟩ := reads_seq_cons.1 h
    obtain ⟨items, mid', last, hmany, hlast, rfl⟩ := reads_seq_cons.1 hback
    obtain ⟨xs, zs, hxs, hzs, rfl⟩ := buildAll_append_eq_ok hbuild
    obtain ⟨ys, ls, hys, hls, rfl⟩ := buildAll_append_eq_ok hzs
    obtain ⟨n, rfl, hn⟩ := gives_of_buildAll hfirst hxs
    have hitems := items_of_repeats hn hmany.repeats hys
    -- A last comma is no item.
    rcases reads_opt.1 (reads_seq_single hlast) with htext | ⟨-, rfl, rfl⟩
    · obtain ⟨comma, rfl, hcomma, rfl⟩ := reads_text_takes.1 htext
      obtain rfl : [] = ls := congrArg Checked.val hls
      exact .inr ⟨_, by simpa using hitems, .inr ⟨comma, rfl, hcomma⟩⟩
    · obtain rfl : [] = ls := congrArg Checked.val hls
      exact .inr ⟨_, by simpa using hitems, .inl rfl⟩
  · exact .inl ⟨(congrArg Checked.val hbuild).symm, rfl⟩

/-- What holds of every tree of a rule holds of all items. -/
theorem Items.forall {r : Rule} {ts rest : List Token} {ns : List Node} (h : Items r ts ns rest)
    (hr : r ≠ .program) (hts : Sourced ts) {p : Node → Prop}
    (hp : ∀ us vs n, us.length ≤ ts.length → Sourced us → Gives r us vs n → p n) :
    ∀ n ∈ ns, p n := by
  induction h with
  | last first =>
    intro n hn
    obtain rfl := List.mem_singleton.1 hn
    exact hp _ _ n (Nat.le_refl _) hts first
  | @cons ts mid rest comma n ns first hcomma more ih =>
    have hlt := first.length_lt hr
    rw [List.length_cons] at hlt
    intro m hm
    rcases List.mem_cons.1 hm with rfl | hm
    · exact hp _ _ m (Nat.le_refl _) hts first
    · exact ih (first.sourced hts).tail
        (fun us vs n hle hus hn => hp us vs n (by omega) hus hn) m hm

/-- What holds of every tree of a rule holds of a list. -/
theorem Listed.forall {r : Rule} {ts rest : List Token} {ns : List Node} (h : Listed r ts ns rest)
    (hr : r ≠ .program) (hts : Sourced ts) {p : Node → Prop}
    (hp : ∀ us vs n, us.length ≤ ts.length → Sourced us → Gives r us vs n → p n) :
    ∀ n ∈ ns, p n := by
  rcases h with ⟨rfl, -⟩ | ⟨mid, hitems, -⟩
  · exact fun n hn => absurd hn List.not_mem_nil
  · exact hitems.forall hr hts hp

/-- A list between two marks. -/
theorem listed_of_between {a b : Text} {r : Rule} {ts rest : List Token} {trees : List ParseTree}
    {ns : List Node}
    (h : Reads (.seq [.text a, .commaList (.rule r), .text b]) ts (.takes trees rest))
    (hbuild : buildAll trees = ⟨ns, none⟩) :
    ∃ first us last, ts = first :: us ∧ hasText a first = true ∧ hasText b last = true ∧
      Listed r us ns (last :: rest) := by
  obtain ⟨first, us, more, rfl, hfirst, hmore, rfl⟩ := reads_seq_text h
  obtain ⟨items, mid, back, hlist, hback, rfl⟩ := reads_seq_cons.1 hmore
  obtain ⟨last, rfl, hlast, rfl⟩ := reads_text_takes.1 (reads_seq_single hback)
  rw [buildAll] at hbuild
  obtain ⟨xs, ys, hxs, hys, rfl⟩ := buildAll_append_eq_ok hbuild
  obtain rfl : [] = ys := congrArg Checked.val hys
  rw [List.append_nil]
  exact ⟨first, us, last, rfl, hfirst, hlast, listed_of_commaList hlist hxs⟩

/-- A mark in front of `us`, or none. -/
def Marked (t : Text) (marked : Bool) (ts us : List Token) : Prop :=
  if marked then ∃ token, ts = token :: us ∧ hasText t token = true else ts = us

theorem Marked.sourced {t : Text} {marked : Bool} {ts us : List Token} (h : Marked t marked ts us)
    (hts : Sourced ts) : Sourced us := by
  cases marked with
  | false =>
    obtain rfl : ts = us := h
    exact hts
  | true =>
    obtain ⟨token, rfl, -⟩ := h
    exact hts.tail

theorem Marked.length_le {t : Text} {marked : Bool} {ts us : List Token}
    (h : Marked t marked ts us) : us.length ≤ ts.length := by
  cases marked with
  | false =>
    obtain rfl : ts = us := h
    exact Nat.le_refl _
  | true =>
    obtain ⟨token, rfl, -⟩ := h
    exact Nat.le_succ _

/-! ## Expressions -/

/-- An expression is a function, or a chain where no function starts. -/
theorem gives_expression {ts rest : List Token} {n : Node} (h : Gives .expression ts rest n) :
    Gives .arrowFunction ts rest n ∨
      Declines (.rule .arrowFunction) ts ∧ Gives .binaryChain ts rest n := by
  obtain ⟨kids, hread, hbuild⟩ := h
  rcases reads_alt_cons.1 hread with h | ⟨hdecl, h⟩
  · obtain ⟨inner, hinner, rfl⟩ := reads_rule_takes.1 h
    rw [build] at hbuild
    exact .inl ⟨inner, hinner, hbuild⟩
  · rcases reads_alt_cons.1 h with h | ⟨-, h⟩
    · obtain ⟨inner, hinner, rfl⟩ := reads_rule_takes.1 h
      rw [build] at hbuild
      exact .inr ⟨hdecl, inner, hinner, hbuild⟩
    · exact absurd h reads_alt_nil

/-- A name by itself. -/
theorem gives_ident {ts rest : List Token} {n : Node} (h : Gives .ident ts rest n) :
    ∃ t, ts = t :: rest ∧ t.cls = .ident ∧ n = .identifier t.pos t.text := by
  obtain ⟨kids, hread, hn⟩ := h
  obtain ⟨t, rfl, hcls, rfl⟩ := reads_token_takes.1 hread
  rw [build] at hn
  exact ⟨t, rfl, hcls, (Checked.pure_eq_ok.1 hn).symm⟩

/-- The parameters of a function: a single name, or names in parentheses. -/
inductive GivenParams (ts rest : List Token) : List Node → Prop
  | single {n : Node} (h : Gives .ident ts rest n) : GivenParams ts rest [n]
  | list {first last : Token} {us : List Token} {ns : List Node} (hts : ts = first :: us)
      (hfirst : hasText (lit "(") first = true) (hlast : hasText (lit ")") last = true)
      (hnames : Listed .ident us ns (last :: rest)) : GivenParams ts rest ns

theorem givenParams_of_arrowHead {ts rest : List Token} {trees : List ParseTree}
    {params : List Node} (h : Reads arrowHead ts (.takes trees rest))
    (hbuild : buildAll trees = ⟨params, none⟩) :
    GivenParams ts rest params ∧ startsAsync trees = false := by
  rcases reads_alt_cons.1 h with h | ⟨-, h⟩
  · obtain ⟨first, us, last, rfl, hfirst, hlast, hnames⟩ := listed_of_between h hbuild
    obtain ⟨_, _, more, heq, htext, -, rfl⟩ := reads_seq_text h
    obtain ⟨rfl, rfl⟩ := List.cons.inj heq
    refine ⟨.list rfl hfirst hlast hnames, ?_⟩
    rw [startsAsync, (hasText_eq_true.1 htext).2]
    decide
  · rcases reads_alt_cons.1 h with h | ⟨-, h⟩
    · obtain ⟨n, rfl, hn⟩ := gives_of_buildAll h hbuild
      obtain ⟨kids, -, rfl⟩ := reads_rule_takes.1 h
      exact ⟨.single hn, rfl⟩
    · exact absurd h reads_alt_nil

theorem GivenParams.isParam {ts rest : List Token} {params : List Node}
    (h : GivenParams ts rest params) (hts : Sourced ts) : ∀ p ∈ params, IsParam p := by
  have hparam : ∀ us vs n, Sourced us → Gives .ident us vs n → IsParam n := by
    intro us vs n hus hn
    obtain ⟨t, rfl, hcls, rfl⟩ := gives_ident hn
    exact ⟨t.pos, t.text, rfl, hus.isName hcls⟩
  cases h with
  | single hn =>
    intro p hp
    obtain rfl := List.mem_singleton.1 hp
    exact hparam _ _ _ hts hn
  | list hlist hfirst hlast hnames =>
    subst hlist
    exact hnames.forall (by decide) hts.tail fun us vs n _ => hparam us vs n

/-- A function has parameters and a body, and starts with its marker word if it has one. -/
theorem gives_arrowFunction {ts rest : List Token} {n : Node}
    (h : Gives .arrowFunction ts rest n) :
    ∃ params body async mid arrow us, n = .function (startOf ts) params body async ∧
      Marked (lit "async") async ts mid ∧ GivenParams mid (arrow :: us) params ∧
      hasText (lit "=>") arrow = true ∧ us.length < ts.length ∧ (Sourced ts → Sourced us) ∧
      Gives .expression us rest body := by
  obtain ⟨kids, hread, hbuild⟩ := h
  obtain ⟨marker, mid, trees, hmarker, hmore, rfl⟩ := reads_seq_cons.1 hread
  obtain ⟨head, mid', back, hhead, hback, rfl⟩ := reads_seq_cons.1 hmore
  obtain ⟨arrow, us, tail, rfl, harrow, htail, rfl⟩ := reads_seq_text hback
  rw [build, Checked.bind_eq_ok] at hbuild
  obtain ⟨parts, hparts, hn⟩ := hbuild
  obtain ⟨ms, ns, hms, hns, rfl⟩ := buildAll_append_eq_ok hparts
  obtain ⟨params, bs, hparams, hbs, rfl⟩ := buildAll_append_eq_ok hns
  rw [buildAll] at hbs
  obtain ⟨body, rfl, hbody⟩ := gives_of_buildAll (reads_seq_single htail) hbs
  obtain ⟨hgiven, hhead'⟩ := givenParams_of_arrowHead hhead hparams
  have hlength : us.length < ts.length := by
    have h₁ := hmarker.length_le
    have h₂ := hhead.length_le
    simp only [List.length_cons] at h₂
    omega
  -- The marker word is a token that is left out, or there is none.
  have hmark : ms = [] ∧ Marked (lit "async")
      (startsAsync (marker ++ (head ++ .leaf arrow :: tail))) ts mid := by
    rcases reads_opt.1 hmarker with htext | ⟨-, rfl, rfl⟩
    · obtain ⟨t, rfl, ht, rfl⟩ := reads_text_takes.1 htext
      refine ⟨(congrArg Checked.val hms).symm, ?_⟩
      have hasync :
          startsAsync ([ParseTree.leaf t] ++ (head ++ ParseTree.leaf arrow :: tail)) = true := by
        simp [startsAsync, (hasText_eq_true.1 ht).2]
      rw [hasync]
      exact ⟨t, rfl, ht⟩
    · refine ⟨(congrArg Checked.val hms).symm, ?_⟩
      have hasync : startsAsync (head ++ .leaf arrow :: tail) = false := by
        cases head with
        | nil =>
          exfalso
          have hlt := hhead.length_lt rfl
          have heq := hhead.eq_append
          rw [heq] at hlt
          simp [ParseTree.leavesAll] at hlt
        | cons tree head =>
          cases tree with
          | leaf t => exact hhead'
          | branch r p k => rfl
      rw [List.nil_append, hasync]
      rfl
  obtain ⟨rfl, hasync⟩ := hmark
  rw [List.nil_append, List.dropLast_concat, List.getLastD_concat] at hn
  exact ⟨params, body, _, mid, arrow, us, (Checked.pure_eq_ok.1 hn).symm, hasync, hgiven, harrow,
    hlength, fun hts => ((hts.rest hmarker).rest hhead).tail, hbody⟩

/-- Operators and operands, one after the other. -/
inductive Joins : List Token → List (Text × Node) → List Token → Prop
  | nil {ts : List Token} : Joins ts [] ts
  | cons {t : Token} {us mid rest : List Token} {x : Node} {links : List (Text × Node)}
      (hop : t.text ∈ binaryOperators.map lit) (hx : Gives .unary us mid x)
      (more : Joins mid links rest) : Joins (t :: us) ((t.text, x) :: links) rest

/-- The links of a chain. -/
theorem joins_of_repeats {ts rest : List Token} {trees : List ParseTree} {ms : List Node}
    (h : Repeats (.rule .binaryOp) ts trees rest) (hbuild : buildAll trees = ⟨ms, none⟩) :
    Joins ts ((trees.filterMap operator?).zip ms) rest := by
  induction h generalizing ms with
  | nil => exact .nil
  | @cons ts mid rest front back first more ih =>
    obtain ⟨xs, ys, hxs, hys, rfl⟩ := buildAll_append_eq_ok hbuild
    obtain ⟨kids, hkids, rfl⟩ := reads_rule_takes.1 first
    obtain ⟨x, zs, hx, hzs, rfl⟩ := buildAll_branch_eq_ok hxs
    obtain rfl : [] = zs := congrArg Checked.val hzs
    obtain ⟨op, mid', operand, hop, hoperand, rfl⟩ := reads_seq_cons.1 hkids
    obtain ⟨t, rfl, -, htext, rfl⟩ := reads_oneOf_takes.1 hop
    obtain ⟨inner, hinner, rfl⟩ := reads_rule_takes.1 (reads_seq_single hoperand)
    rw [List.singleton_append, build] at hx
    exact .cons htext ⟨inner, hinner, hx⟩ (ih hys)

/-- A chain has a first operand and links, nested by the precedence of their operators. -/
theorem gives_binaryChain {ts rest : List Token} {n : Node} (h : Gives .binaryChain ts rest n) :
    ∃ mid x links, Gives .unary ts mid x ∧ Joins mid links rest ∧ n = Operator.fold x links := by
  obtain ⟨kids, hread, hbuild⟩ := h
  obtain ⟨inner, mid, trees, hinner, hmany, rfl⟩ := reads_seq_rule hread
  rw [build, Checked.bind_eq_ok] at hbuild
  obtain ⟨x, hx, hbuild⟩ := hbuild
  rw [Checked.bind_eq_ok] at hbuild
  obtain ⟨ms, hms, hn⟩ := hbuild
  exact ⟨mid, x, _, ⟨inner, hinner, hx⟩,
    joins_of_repeats (reads_seq_single hmany).repeats hms, (Checked.pure_eq_ok.1 hn).symm⟩

/-- A unary operator in front of an operand. -/
def unaryOperation : Pattern := .seq [.oneOf unaryOperators, .rule .unary]

/-- An operand has a unary operator, or is read where none of them has an operand. -/
theorem gives_unary {ts rest : List Token} {n : Node} (h : Gives .unary ts rest n) :
    (∃ t us x, ts = t :: us ∧ t.text ∈ unaryOperators.map lit ∧ Gives .unary us rest x ∧
      n = .unary (startOf ts) t.text x) ∨
      Declines unaryOperation ts ∧ Gives .suffixed ts rest n := by
  obtain ⟨kids, hread, hbuild⟩ := h
  rcases reads_alt_cons.1 hread with h | ⟨hdecl, h⟩
  · obtain ⟨op, mid, operand, hop, hoperand, rfl⟩ := reads_seq_cons.1 h
    obtain ⟨t, rfl, -, htext, rfl⟩ := reads_oneOf_takes.1 hop
    obtain ⟨inner, hinner, rfl⟩ := reads_rule_takes.1 (reads_seq_single hoperand)
    rw [List.singleton_append, build, Checked.bind_eq_ok] at hbuild
    obtain ⟨x, hx, hn⟩ := hbuild
    exact .inl ⟨t, mid, x, rfl, htext, ⟨inner, hinner, hx⟩, (Checked.pure_eq_ok.1 hn).symm⟩
  · rcases reads_alt_cons.1 h with h | ⟨-, h⟩
    · obtain ⟨inner, hinner, rfl⟩ := reads_rule_takes.1 h
      rw [build] at hbuild
      exact .inr ⟨hdecl, inner, hinner, hbuild⟩
    · exact absurd h reads_alt_nil

/-- An operand without a unary operator is a primary with calls and member accesses. -/
theorem gives_suffixed {ts rest : List Token} {n : Node} (h : Gives .suffixed ts rest n) :
    ∃ mid x trees, Gives .primary ts mid x ∧ Repeats (.rule .suffix) mid trees rest ∧
      buildSuffixes x trees = ⟨n, none⟩ := by
  obtain ⟨kids, hread, hbuild⟩ := h
  obtain ⟨inner, mid, trees, hinner, hmany, rfl⟩ := reads_seq_rule hread
  rw [build, Checked.bind_eq_ok] at hbuild
  obtain ⟨x, hx, hn⟩ := hbuild
  exact ⟨mid, x, trees, ⟨inner, hinner, hx⟩, (reads_seq_single hmany).repeats, hn⟩

/-! ## Primaries -/

/-- A text in quotes has escapes that can be decoded. -/
theorem stringNode_eq_ok {pos : Position} {raw : Text} {n : Node}
    (h : stringNode pos raw = ⟨n, none⟩) :
    ∃ value, Text.unescape (raw.drop 1).dropLast = some value ∧
      n = .stringLiteral pos value raw := by
  unfold stringNode at h
  split at h
  · rename_i value hvalue
    exact ⟨value, hvalue, (Checked.pure_eq_ok.1 h).symm⟩
  · rw [Checked.bind_eq_ok] at h
    obtain ⟨u, hreport, -⟩ := h
    simp [Checked.report] at hreport

/-- What a primary is read from. -/
inductive GivenPrimary (ts rest : List Token) : Node → Prop
  | keyword {t : Token} (hts : ts = t :: rest) (htext : t.text ∈ keywordValues.map lit) :
      GivenPrimary ts rest (.keywordLiteral t.pos t.text)
  | number {t : Token} (hts : ts = t :: rest) (hcls : t.cls = .number) :
      GivenPrimary ts rest (.numberLiteral t.pos t.text)
  | string {t : Token} {value : Text} (hts : ts = t :: rest) (hcls : t.cls = .string)
      (hvalue : Text.unescape (t.text.drop 1).dropLast = some value) :
      GivenPrimary ts rest (.stringLiteral t.pos value t.text)
  | name {t : Token} (hts : ts = t :: rest) (hcls : t.cls = .ident)
      (htext : t.text ∉ keywordValues.map lit) : GivenPrimary ts rest (.identifier t.pos t.text)
  | rule {r : Rule} {n : Node} (hr : r ∈ [Rule.templateLiteral, .arrayLiteral, .objectLiteral])
      (h : Gives r ts rest n) : GivenPrimary ts rest n
  | paren {first last : Token} {us : List Token} {x : Node} (hts : ts = first :: us)
      (hfirst : hasText (lit "(") first = true) (hlast : hasText (lit ")") last = true)
      (hx : Gives .expression us (last :: rest) x) : GivenPrimary ts rest (.paren first.pos x)

/-- A token that is a primary by itself is no word with a value, unless it is read as one. -/
theorem givenPrimary_leaf {ts rest : List Token} {n : Node} {t : Token} (hts : ts = t :: rest)
    (hcls : t.cls = .number ∨ t.cls = .string ∨ t.cls = .ident)
    (hkey : Declines (.oneOf keywordValues) ts)
    (hbuild : primaryNode (startOf ts) t = ⟨n, none⟩) : GivenPrimary ts rest n := by
  have hne : t.cls ≠ .eof := by rcases hcls with h | h | h <;> rw [h] <;> decide
  have htext : t.text ∉ keywordValues.map lit := by
    intro hmem
    exact hkey.not_takes (reads_oneOf_takes.2 ⟨t, hts, hne, hmem, rfl⟩)
  rw [primaryNode, if_neg (by simpa using htext), show startOf ts = t.pos by rw [hts]; rfl]
    at hbuild
  rcases hcls with hcls | hcls | hcls
  · simp only [hcls] at hbuild
    obtain rfl := Checked.pure_eq_ok.1 hbuild
    exact .number hts hcls
  · simp only [hcls] at hbuild
    obtain ⟨value, hvalue, rfl⟩ := stringNode_eq_ok hbuild
    exact .string hts hcls hvalue
  · simp only [hcls] at hbuild
    obtain rfl := Checked.pure_eq_ok.1 hbuild
    exact .name hts hcls htext

theorem gives_primary {ts rest : List Token} {n : Node} (h : Gives .primary ts rest n) :
    GivenPrimary ts rest n := by
  obtain ⟨kids, hread, hbuild⟩ := h
  -- A rule by itself is handed on.
  have hrule : ∀ r ∈ [Rule.templateLiteral, .arrayLiteral, .objectLiteral],
      Reads (.rule r) ts (.takes kids rest) → GivenPrimary ts rest n := by
    intro r hr h
    obtain ⟨inner, hinner, rfl⟩ := reads_rule_takes.1 h
    rw [build] at hbuild
    · exact .rule hr ⟨inner, hinner, hbuild⟩
    · simp
  rcases reads_alt_cons.1 hread with h | ⟨hkey, h⟩
  · obtain ⟨t, rfl, -, htext, rfl⟩ := reads_oneOf_takes.1 h
    rw [build, primaryNode, if_pos (by simpa using htext)] at hbuild
    obtain rfl := Checked.pure_eq_ok.1 hbuild
    exact .keyword rfl htext
  rcases reads_alt_cons.1 h with h | ⟨-, h⟩
  · obtain ⟨t, hts, hcls, rfl⟩ := reads_token_takes.1 h
    rw [build] at hbuild
    exact givenPrimary_leaf hts (.inl hcls) hkey hbuild
  rcases reads_alt_cons.1 h with h | ⟨-, h⟩
  · obtain ⟨t, hts, hcls, rfl⟩ := reads_token_takes.1 h
    rw [build] at hbuild
    exact givenPrimary_leaf hts (.inr (.inl hcls)) hkey hbuild
  rcases reads_alt_cons.1 h with h | ⟨-, h⟩
  · exact hrule _ (by decide) h
  rcases reads_alt_cons.1 h with h | ⟨-, h⟩
  · exact hrule _ (by decide) h
  rcases reads_alt_cons.1 h with h | ⟨-, h⟩
  · exact hrule _ (by decide) h
  rcases reads_alt_cons.1 h with h | ⟨-, h⟩
  · obtain ⟨first, us, inner, last, rfl, hfirst, hinner, hlast, rfl⟩ := reads_between h
    rw [build, Checked.bind_eq_ok] at hbuild
    obtain ⟨x, hx, hn⟩ := hbuild
    obtain rfl := Checked.pure_eq_ok.1 hn
    exact .paren rfl hfirst hlast ⟨inner, hinner, hx⟩
  rcases reads_alt_cons.1 h with h | ⟨-, h⟩
  · obtain ⟨t, hts, hcls, rfl⟩ := reads_token_takes.1 h
    rw [build] at hbuild
    exact givenPrimary_leaf hts (.inr (.inr hcls)) hkey hbuild
  · exact absurd h reads_alt_nil

/-! ## Calls and member accesses -/

/-- What makes a call or a member access of `x`, read from `ts`. -/
inductive GivenSuffix (ts rest : List Token) (x : Node) : Node → Prop
  | call {args : List Node} {optional : Bool} {paren close : Token} {us : List Token}
      (hts : Marked (lit "?.") optional ts (paren :: us)) (hparen : hasText (lit "(") paren = true)
      (hclose : hasText (lit ")") close = true) (hargs : Listed .element us args (close :: rest)) :
      GivenSuffix ts rest x (.call x args optional)
  | index {prop : Node} {optional : Bool} {bracket close : Token} {us : List Token}
      (hts : Marked (lit "?.") optional ts (bracket :: us))
      (hbracket : hasText (lit "[") bracket = true) (hclose : hasText (lit "]") close = true)
      (hprop : Gives .expression us (close :: rest) prop) :
      GivenSuffix ts rest x (.member x prop true optional)
  | member {point t : Token} {optional : Bool} (hts : ts = point :: t :: rest)
      (hpoint : hasText (lit (if optional then "?." else ".")) point = true)
      (hcls : t.cls = .ident) :
      GivenSuffix ts rest x (.member x (.identifier t.pos t.text) false optional)

/-- Arguments in parentheses, behind a mark or not. -/
theorem givenSuffix_call {ts us rest : List Token} {kids : List ParseTree} {x n : Node}
    {optional : Bool} (hmark : Marked (lit "?.") optional ts us)
    (h : Reads (.rule .callArgs) us (.takes kids rest))
    (hbuild : buildSuffix optional x kids = ⟨n, none⟩) : GivenSuffix ts rest x n := by
  obtain ⟨inner, hinner, rfl⟩ := reads_rule_takes.1 h
  rw [buildSuffix, Checked.bind_eq_ok] at hbuild
  obtain ⟨args, hargs, hn⟩ := hbuild
  obtain rfl := Checked.pure_eq_ok.1 hn
  obtain ⟨paren, vs, close, rfl, hparen, hclose, hitems⟩ := listed_of_between hinner hargs
  exact .call hmark hparen hclose hitems

/-- An index in brackets, behind a mark or not. -/
theorem givenSuffix_index {ts us rest : List Token} {kids : List ParseTree} {x n : Node}
    {optional : Bool} (hmark : Marked (lit "?.") optional ts us)
    (h : Reads (.seq [.text (lit "["), .rule .expression, .text (lit "]")]) us (.takes kids rest))
    (hbuild : buildSuffix optional x kids = ⟨n, none⟩) : GivenSuffix ts rest x n := by
  obtain ⟨bracket, vs, inner, close, rfl, hbracket, hinner, hclose, rfl⟩ := reads_between h
  rw [buildSuffix, Checked.bind_eq_ok] at hbuild
  obtain ⟨prop, hprop, hn⟩ := hbuild
  obtain rfl := Checked.pure_eq_ok.1 hn
  exact .index hmark hbracket hclose ⟨inner, hinner, hprop⟩

theorem gives_suffix {ts rest : List Token} {trees : List ParseTree} {x n : Node}
    (h : Reads (.rule .suffix) ts (.takes trees rest))
    (hbuild : buildSuffixes x trees = ⟨n, none⟩) : GivenSuffix ts rest x n := by
  obtain ⟨kids, hkids, rfl⟩ := reads_rule_takes.1 h
  rw [buildSuffixes_cons, Checked.bind_eq_ok] at hbuild
  obtain ⟨y, hstep, hy⟩ := hbuild
  obtain rfl : y = n := congrArg Checked.val hy
  -- A suffix is a call, an index, a field, or one of these three behind a question mark.
  rcases reads_alt_cons.1 hkids with h | ⟨-, h⟩
  · have hbuild : buildSuffix false x kids = ⟨y, none⟩ := by
      obtain ⟨inner, -, rfl⟩ := reads_rule_takes.1 h
      exact hstep
    exact givenSuffix_call (show Marked (lit "?.") false ts ts from rfl) h hbuild
  rcases reads_alt_cons.1 h with h | ⟨-, h⟩
  · have hbuild : buildSuffix false x kids = ⟨y, none⟩ := by
      obtain ⟨bracket, vs, inner, close, -, -, -, -, rfl⟩ := reads_between h
      exact hstep
    exact givenSuffix_index (show Marked (lit "?.") false ts ts from rfl) h hbuild
  rcases reads_alt_cons.1 h with h | ⟨-, h⟩
  · obtain ⟨point, us, more, rfl, hpoint, hname, rfl⟩ := reads_seq_text h
    obtain ⟨inner, hinner, rfl⟩ := reads_rule_takes.1 (reads_seq_single hname)
    have hbuild : buildSuffix false x [.leaf point, .branch .ident (startOf us) inner] =
        ⟨y, none⟩ := hstep
    rw [buildSuffix, Checked.bind_eq_ok] at hbuild
    obtain ⟨prop, hprop, hn⟩ := hbuild
    obtain rfl := Checked.pure_eq_ok.1 hn
    obtain ⟨t, rfl, hcls, rfl⟩ := gives_ident ⟨inner, hinner, hprop⟩
    exact .member rfl hpoint hcls
  rcases reads_alt_cons.1 h with h | ⟨-, h⟩
  · obtain ⟨mark, us, more, rfl, hmark, hoptional, rfl⟩ := reads_seq_text h
    obtain ⟨inner, hinner, rfl⟩ := reads_rule_takes.1 (reads_seq_single hoptional)
    have hbuild : buildSuffix true x inner = ⟨y, none⟩ := hstep
    have hmarked : Marked (lit "?.") true (mark :: us) us := ⟨mark, rfl, hmark⟩
    rcases reads_alt_cons.1 hinner with h | ⟨-, h⟩
    · exact givenSuffix_call hmarked h hbuild
    rcases reads_alt_cons.1 h with h | ⟨-, h⟩
    · exact givenSuffix_index hmarked h hbuild
    rcases reads_alt_cons.1 h with h | ⟨-, h⟩
    · obtain ⟨leaves, hleaves, rfl⟩ := reads_rule_takes.1 h
      rw [buildSuffix, Checked.bind_eq_ok] at hbuild
      · obtain ⟨prop, hprop, hn⟩ := hbuild
        obtain rfl := Checked.pure_eq_ok.1 hn
        obtain ⟨t, rfl, hcls, rfl⟩ := gives_ident ⟨leaves, hleaves, hprop⟩
        exact .member rfl hmark hcls
      · simp
    · exact absurd h reads_alt_nil
  · exact absurd h reads_alt_nil

/-! ## Elements and members -/

/-- An element is an expression, or the contents of one. -/
theorem gives_element {ts rest : List Token} {n : Node} (h : Gives .element ts rest n) :
    Gives .expression ts rest n ∨
      ∃ t us x, ts = t :: us ∧ hasText (lit "...") t = true ∧ Gives .expression us rest x ∧
        n = .spread t.pos x := by
  obtain ⟨kids, hread, hbuild⟩ := h
  obtain ⟨front, mid, back, hdots, hback, rfl⟩ := reads_seq_cons.1 hread
  obtain ⟨inner, hinner, rfl⟩ := reads_rule_takes.1 (reads_seq_single hback)
  rcases reads_opt.1 hdots with htext | ⟨-, rfl, rfl⟩
  · obtain ⟨t, rfl, ht, rfl⟩ := reads_text_takes.1 htext
    rw [List.singleton_append, build, Checked.bind_eq_ok] at hbuild
    obtain ⟨x, hx, hn⟩ := hbuild
    exact .inr ⟨t, mid, x, rfl, ht, ⟨inner, hinner, hx⟩, (Checked.pure_eq_ok.1 hn).symm⟩
  · rw [List.nil_append, build] at hbuild
    exact .inl ⟨inner, hinner, hbuild⟩

/-- What a member of an object is read from. -/
inductive GivenMember (ts rest : List Token) : Node → Prop
  | spread {t : Token} {us : List Token} {x : Node} (hts : ts = t :: us)
      (hdots : hasText (lit "...") t = true) (hx : Gives .expression us rest x) :
      GivenMember ts rest (.spread t.pos x)
  | shorthand {t : Token} (hts : ts = t :: rest) (hcls : t.cls = .ident) :
      GivenMember ts rest
        (.property t.pos (.identifier t.pos t.text) (.identifier t.pos t.text) false true)
  | property {t colon : Token} {us : List Token} {key value : Node} (hts : ts = t :: colon :: us)
      (hcls : t.cls = .string ∨ t.cls = .number ∨ t.cls = .ident)
      (hkey : keyNode t.pos t = ⟨key, none⟩) (hcolon : hasText (lit ":") colon = true)
      (hvalue : Gives .expression us rest value) :
      GivenMember ts rest (.property t.pos key value false false)
  | computed {first last colon : Token} {us vs : List Token} {key value : Node}
      (hts : ts = first :: us) (hfirst : hasText (lit "[") first = true)
      (hlast : hasText (lit "]") last = true) (hkey : Gives .expression us (last :: colon :: vs) key)
      (hcolon : hasText (lit ":") colon = true) (hvalue : Gives .expression vs rest value) :
      GivenMember ts rest (.property first.pos key value true false)

/-- A key that is a token by itself. -/
theorem plainKey_of_keyNode {t : Token} {ts : List Token} {pos : Position} {key : Node}
    (hts : Sourced (t :: ts)) (hcls : t.cls = .string ∨ t.cls = .number ∨ t.cls = .ident)
    (h : keyNode pos t = ⟨key, none⟩) : PlainKey key := by
  rw [keyNode] at h
  rcases hcls with hcls | hcls | hcls
  · simp only [hcls] at h
    obtain ⟨value, hvalue, rfl⟩ := stringNode_eq_ok h
    exact .string (hts.isString hcls) hvalue
  · simp only [hcls] at h
    obtain rfl := Checked.pure_eq_ok.1 h
    exact .number (hts.isNumber hcls)
  · simp only [hcls] at h
    obtain rfl := Checked.pure_eq_ok.1 h
    exact .name (hts.isName hcls)

/-- A property without a value has a plain name for its key. -/
theorem shorthandNode_eq_ok {pos : Position} {key n : Node} {computed : Bool}
    (h : shorthandNode pos key computed = ⟨n, none⟩) : ∃ kpos name, key = .identifier kpos name ∧
      computed = false ∧
      n = .property pos (.identifier kpos name) (.identifier kpos name) false true := by
  unfold shorthandNode at h
  split at h
  · exact ⟨_, _, rfl, rfl, (Checked.pure_eq_ok.1 h).symm⟩
  · rw [Checked.bind_eq_ok] at h
    obtain ⟨u, hreport, -⟩ := h
    simp [Checked.report] at hreport

/-- The key of a property: computed, or a single token. -/
theorem reads_propertyKey_takes {ts rest : List Token} {kids : List ParseTree}
    (h : Reads Rule.propertyKey.pattern ts (.takes kids rest)) :
    (∃ first us inner last, ts = first :: us ∧ hasText (lit "[") first = true ∧
      Reads Rule.expression.pattern us (.takes inner (last :: rest)) ∧
      hasText (lit "]") last = true ∧
      kids = [.leaf first, .branch .expression (startOf us) inner, .leaf last]) ∨
    ∃ t, ts = t :: rest ∧ (t.cls = .string ∨ t.cls = .number ∨ t.cls = .ident) ∧
      kids = [.leaf t] := by
  rcases reads_alt_cons.1 h with h | ⟨-, h⟩
  · obtain ⟨first, us, inner, last, rfl, hfirst, hinner, hlast, rfl⟩ := reads_between h
    exact .inl ⟨first, us, inner, last, rfl, hfirst, hinner, hlast, rfl⟩
  rcases reads_alt_cons.1 h with h | ⟨-, h⟩
  · obtain ⟨t, rfl, hcls, rfl⟩ := reads_token_takes.1 h
    exact .inr ⟨t, rfl, .inl hcls, rfl⟩
  rcases reads_alt_cons.1 h with h | ⟨-, h⟩
  · obtain ⟨t, rfl, hcls, rfl⟩ := reads_token_takes.1 h
    exact .inr ⟨t, rfl, .inr (.inl hcls), rfl⟩
  rcases reads_alt_cons.1 h with h | ⟨-, h⟩
  · obtain ⟨t, rfl, hcls, rfl⟩ := reads_token_takes.1 h
    exact .inr ⟨t, rfl, .inr (.inr hcls), rfl⟩
  · exact absurd h reads_alt_nil

theorem gives_property {ts rest : List Token} {n : Node} (h : Gives .property ts rest n) :
    GivenMember ts rest n := by
  obtain ⟨kids, hread, hbuild⟩ := h
  obtain ⟨key, mid, more, hkey, hmore, rfl⟩ := reads_seq_rule hread
  rcases reads_opt.1 (reads_seq_single hmore) with hread | ⟨-, rfl, rfl⟩
  · -- A key with a value.
    obtain ⟨colon, vs, trees, rfl, hcolon, hvalue, rfl⟩ := reads_seq_text hread
    obtain ⟨inner, hinner, rfl⟩ := reads_rule_takes.1 (reads_seq_single hvalue)
    rcases reads_propertyKey_takes hkey with ⟨first, us, kinner, last, rfl, hfirst, hk, hlast, rfl⟩ |
      ⟨t, rfl, hcls, rfl⟩
    · rw [build, Checked.bind_eq_ok] at hbuild
      obtain ⟨k, hkbuild, hbuild⟩ := hbuild
      rw [Checked.bind_eq_ok] at hbuild
      obtain ⟨v, hvbuild, hn⟩ := hbuild
      obtain rfl := Checked.pure_eq_ok.1 hn
      exact .computed rfl hfirst hlast ⟨kinner, hk, hkbuild⟩ hcolon ⟨inner, hinner, hvbuild⟩
    · rw [build, Checked.bind_eq_ok] at hbuild
      obtain ⟨k, hkbuild, hbuild⟩ := hbuild
      rw [Checked.bind_eq_ok] at hbuild
      obtain ⟨v, hvbuild, hn⟩ := hbuild
      obtain rfl := Checked.pure_eq_ok.1 hn
      exact .property rfl hcls hkbuild hcolon ⟨inner, hinner, hvbuild⟩
  · -- A key alone.
    rcases reads_propertyKey_takes hkey with ⟨first, us, kinner, last, rfl, -, hk, -, rfl⟩ |
      ⟨t, rfl, hcls, rfl⟩
    · rw [build, Checked.bind_eq_ok] at hbuild
      obtain ⟨k, hkbuild, hbuild⟩ := hbuild
      obtain ⟨_, _, _, hfalse, _⟩ := shorthandNode_eq_ok hbuild
      simp at hfalse
    · rw [build, Checked.bind_eq_ok] at hbuild
      obtain ⟨k, hkbuild, hbuild⟩ := hbuild
      obtain ⟨kpos, name, rfl, -, rfl⟩ := shorthandNode_eq_ok hbuild
      -- Only a name is a key of this form.
      rw [keyNode] at hkbuild
      rcases hcls with hcls | hcls | hcls
      · simp only [hcls] at hkbuild
        obtain ⟨value, -, hkey⟩ := stringNode_eq_ok hkbuild
        simp at hkey
      · simp only [hcls] at hkbuild
        have hkey := Checked.pure_eq_ok.1 hkbuild
        simp at hkey
      · simp only [hcls] at hkbuild
        obtain ⟨rfl, rfl⟩ := Node.identifier.inj (Checked.pure_eq_ok.1 hkbuild)
        exact .shorthand rfl hcls

theorem gives_objectMember {ts rest : List Token} {n : Node} (h : Gives .objectMember ts rest n) :
    GivenMember ts rest n := by
  obtain ⟨kids, hread, hbuild⟩ := h
  rcases reads_alt_cons.1 hread with h | ⟨-, h⟩
  · obtain ⟨dots, us, trees, rfl, hdots, hx, rfl⟩ := reads_seq_text h
    obtain ⟨inner, hinner, rfl⟩ := reads_rule_takes.1 (reads_seq_single hx)
    rw [build, Checked.bind_eq_ok] at hbuild
    obtain ⟨x, hx, hn⟩ := hbuild
    obtain rfl := Checked.pure_eq_ok.1 hn
    exact .spread rfl hdots ⟨inner, hinner, hx⟩
  rcases reads_alt_cons.1 h with h | ⟨-, h⟩
  · obtain ⟨inner, hinner, rfl⟩ := reads_rule_takes.1 h
    rw [build] at hbuild
    exact gives_property ⟨inner, hinner, hbuild⟩
  · exact absurd h reads_alt_nil

/-! ## Brackets and templates -/

theorem gives_arrayLiteral {ts rest : List Token} {n : Node} (h : Gives .arrayLiteral ts rest n) :
    ∃ first us last elements, ts = first :: us ∧ hasText (lit "[") first = true ∧
      hasText (lit "]") last = true ∧ Listed .element us elements (last :: rest) ∧
      n = .array first.pos elements := by
  obtain ⟨kids, hread, hbuild⟩ := h
  rw [build, Checked.bind_eq_ok] at hbuild
  obtain ⟨elements, helements, hn⟩ := hbuild
  obtain ⟨first, us, last, rfl, hfirst, hlast, hlist⟩ := listed_of_between hread helements
  exact ⟨first, us, last, elements, rfl, hfirst, hlast, hlist, (Checked.pure_eq_ok.1 hn).symm⟩

theorem gives_objectLiteral {ts rest : List Token} {n : Node} (h : Gives .objectLiteral ts rest n) :
    ∃ first us last members, ts = first :: us ∧ hasText (lit "\x7b") first = true ∧
      hasText (lit "\x7d") last = true ∧ Listed .objectMember us members (last :: rest) ∧
      n = .object first.pos (members.filter fun m => !m.isAbsent) := by
  obtain ⟨kids, hread, hbuild⟩ := h
  rw [build, Checked.bind_eq_ok] at hbuild
  obtain ⟨members, hmembers, hn⟩ := hbuild
  obtain ⟨first, us, last, rfl, hfirst, hlast, hlist⟩ := listed_of_between hread hmembers
  exact ⟨first, us, last, members, rfl, hfirst, hlast, hlist, (Checked.pure_eq_ok.1 hn).symm⟩

theorem quasiOf_eq_ok {pos : Position} {raw : Text} {q : Quasi} (h : quasiOf pos raw = ⟨q, none⟩) :
    q.raw = raw ∧ q.raw.unescape = some q.cooked := by
  unfold quasiOf at h
  split at h
  · rename_i cooked hcooked
    obtain rfl := Checked.pure_eq_ok.1 h
    exact ⟨rfl, hcooked⟩
  · rw [Checked.bind_eq_ok] at h
    obtain ⟨u, hreport, -⟩ := h
    simp [Checked.report] at hreport

/-- A part of a template: some of its characters, or an expression. -/
theorem reads_templatePart_takes {ts rest : List Token} {kids : List ParseTree}
    (h : Reads Rule.templatePart.pattern ts (.takes kids rest)) :
    (∃ t, ts = t :: rest ∧ (t.cls = .templateChars ∨ t.cls = .dollar) ∧ kids = [.leaf t]) ∨
    ∃ first us inner last, ts = first :: us ∧ first.cls = .exprStart ∧
      Reads Rule.expression.pattern us (.takes inner (last :: rest)) ∧ last.cls = .exprEnd ∧
      kids = [.leaf first, .branch .expression (startOf us) inner, .leaf last] := by
  rcases reads_alt_cons.1 h with h | ⟨-, h⟩
  · rcases reads_alt_cons.1 h with h | ⟨-, h⟩
    · obtain ⟨t, rfl, hcls, rfl⟩ := reads_token_takes.1 h
      exact .inl ⟨t, rfl, .inl hcls, rfl⟩
    rcases reads_alt_cons.1 h with h | ⟨-, h⟩
    · obtain ⟨t, rfl, hcls, rfl⟩ := reads_token_takes.1 h
      exact .inl ⟨t, rfl, .inr hcls, rfl⟩
    · exact absurd h reads_alt_nil
  rcases reads_alt_cons.1 h with h | ⟨-, h⟩
  · obtain ⟨front, mid, back, hfirst, hback, rfl⟩ := reads_seq_cons.1 h
    obtain ⟨first, rfl, hstart, rfl⟩ := reads_token_takes.1 hfirst
    obtain ⟨inner, mid', more, hinner, hmore, rfl⟩ := reads_seq_rule hback
    obtain ⟨last, rfl, hend, rfl⟩ := reads_token_takes.1 (reads_seq_single hmore)
    exact .inr ⟨first, mid, inner, last, rfl, hstart, hinner, hend, rfl⟩
  · exact absurd h reads_alt_nil

/-- A token inside a template is not empty. -/
theorem Sourced.ne_nil_of_part {t : Token} {ts : List Token} (h : Sourced (t :: ts))
    (hcls : t.cls = .templateChars ∨ t.cls = .dollar) : t.text ≠ [] := by
  have hsound := h.sound
  rcases hcls with hcls | hcls
  · rw [BareToken.IsSound, show t.bare.cls = .templateChars from hcls] at hsound
    exact hsound.1
  · rw [BareToken.IsSound, show t.bare.cls = .dollar from hcls] at hsound
    rw [show t.text = [36] from hsound]
    simp

/-- The chunks and expressions of a template, where `raw` is the front of the first chunk. -/
inductive Parts : Text → List Token → List Quasi → List Node → List Token → Prop
  | done {q : Quasi} {ts : List Token} (hcooked : q.raw.unescape = some q.cooked) :
      Parts q.raw ts [q] [] ts
  | chars {raw : Text} {t : Token} {ts rest : List Token} {quasis : List Quasi} {exprs : List Node}
      (hcls : t.cls = .templateChars ∨ t.cls = .dollar)
      (more : Parts (raw ++ t.text) ts quasis exprs rest) : Parts raw (t :: ts) quasis exprs rest
  | hole {q : Quasi} {first last : Token} {us ts rest : List Token} {x : Node}
      {quasis : List Quasi} {exprs : List Node} (hcooked : q.raw.unescape = some q.cooked)
      (hfirst : first.cls = .exprStart) (hx : Gives .expression us (last :: ts) x)
      (hlast : last.cls = .exprEnd) (more : Parts [] ts quasis exprs rest) :
      Parts q.raw (first :: us) (q :: quasis) (x :: exprs) rest

theorem parts_of_repeats {pos : Position} {ts rest : List Token} {trees : List ParseTree}
    {raw : Text} {last : Token} {quasis : List Quasi} {exprs : List Node}
    (h : Repeats (.rule .templatePart) ts trees rest)
    (hbuild : buildParts pos raw (trees ++ [ParseTree.leaf last]) = ⟨(quasis, exprs), none⟩) :
    Parts raw ts quasis exprs rest := by
  induction h generalizing raw quasis exprs with
  | nil =>
    rw [List.nil_append, buildParts, buildParts, Checked.bind_eq_ok] at hbuild
    · obtain ⟨q, hq, hn⟩ := hbuild
      obtain ⟨rfl, rfl⟩ := Prod.mk.inj (Checked.pure_eq_ok.1 hn)
      obtain ⟨rfl, hcooked⟩ := quasiOf_eq_ok hq
      exact .done hcooked
    · simp
    · simp
  | @cons ts mid rest front back first more ih =>
    obtain ⟨kids, hkids, rfl⟩ := reads_rule_takes.1 first
    -- Characters belong to the chunk that is being collected, a hole ends it.
    rcases reads_templatePart_takes hkids with ⟨t, rfl, hcls, rfl⟩ |
      ⟨start, us, inner, close, rfl, hstart, hinner, hend, rfl⟩
    · rw [List.singleton_append, List.cons_append, buildParts] at hbuild
      exact .chars hcls (ih hbuild)
    · rw [List.singleton_append, List.cons_append, buildParts, Checked.bind_eq_ok] at hbuild
      obtain ⟨q, hq, hbuild⟩ := hbuild
      rw [Checked.bind_eq_ok] at hbuild
      obtain ⟨x, hx, hbuild⟩ := hbuild
      rw [Checked.bind_eq_ok] at hbuild
      obtain ⟨⟨qs, xs⟩, hqs, hn⟩ := hbuild
      obtain ⟨rfl, rfl⟩ := Prod.mk.inj (Checked.pure_eq_ok.1 hn)
      obtain ⟨rfl, hcooked⟩ := quasiOf_eq_ok hq
      exact .hole hcooked hstart ⟨inner, hinner, hx⟩ hend (ih hqs)

/-- The first chunk goes on behind `raw` with characters that start as the first token does, which
keeps a dollar sign in front of them from starting an interpolation. -/
theorem Parts.isRead {raw : Text} {ts rest : List Token} {quasis : List Quasi} {exprs : List Node}
    (h : Parts raw ts quasis exprs rest) (hts : Sourced ts) :
    ∃ w q qs, quasis = q :: qs ∧ q.raw = raw ++ w ∧ isChunk w = true ∧
      (w = [] ∨ ∃ t us, ts = t :: us ∧ w.head? = t.text.head?) ∧
      q.raw.unescape = some q.cooked ∧ (∀ q ∈ qs, q.IsRead) ∧ qs.length = exprs.length := by
  induction h with
  | @done q ts hcooked =>
    exact ⟨[], q, [], rfl, (List.append_nil _).symm, rfl, .inl rfl, hcooked,
      fun _ h => absurd h List.not_mem_nil, rfl⟩
  | @chars raw t ts rest quasis exprs hcls more ih =>
    obtain ⟨w, q, qs, rfl, hraw, hchunk, hhead, hcooked, hqs, hlength⟩ := ih hts.tail
    refine ⟨t.text ++ w, q, qs, rfl, by rw [hraw, List.append_assoc], ?_, ?_, hcooked, hqs,
      hlength⟩
    · have hsound := hts.sound
      rcases hcls with hcls | hcls
      · rw [BareToken.IsSound, show t.bare.cls = .templateChars from hcls] at hsound
        exact (hsound.2 w).trans hchunk
      · rw [BareToken.IsSound, show t.bare.cls = .dollar from hcls] at hsound
        have htext : t.text = [36] := hsound
        -- A dollar sign is plain, since what follows it is not an opening brace.
        rw [htext, List.singleton_append, isChunk_plain (by decide) (by decide) w fun _ => ?_]
        · exact hchunk
        · rcases hhead with rfl | ⟨u, us, rfl, hu⟩
          · simp
          · rw [hu]
            exact hts.dollar hcls
    · refine .inr ⟨t, ts, rfl, ?_⟩
      rw [List.head?_append, Option.or_of_isSome (by simpa using hts.ne_nil_of_part hcls)]
  | @hole q first last us ts rest x quasis exprs hcooked hfirst hx hlast more ih =>
    obtain ⟨w, p, ps, rfl, hpraw, hchunk, -, hpcooked, hps, hlength⟩ :=
      ih (hx.sourced hts.tail).tail
    rw [List.nil_append] at hpraw
    refine ⟨[], q, p :: ps, rfl, (List.append_nil _).symm, rfl, .inl rfl, hcooked, ?_,
      by simp [hlength]⟩
    intro r hr
    rcases List.mem_cons.1 hr with rfl | hr
    · exact ⟨by rw [hpraw]; exact hchunk, hpcooked⟩
    · exact hps r hr

/-- What holds of every expression that is read from some of the tokens holds of all parts. -/
theorem Parts.forall {raw : Text} {ts rest : List Token} {quasis : List Quasi} {exprs : List Node}
    (h : Parts raw ts quasis exprs rest) (hts : Sourced ts) {p : Node → Prop}
    (hp : ∀ us vs n, us.length ≤ ts.length → Sourced us → Gives .expression us vs n → p n) :
    ∀ x ∈ exprs, p x := by
  induction h with
  | done _ => exact fun x hx => absurd hx List.not_mem_nil
  | chars _ _ ih =>
    exact ih hts.tail fun us vs n hle hus hn => hp us vs n (Nat.le_succ_of_le hle) hus hn
  | @hole q first last us ts rest x quasis exprs _ _ hx _ _ ih =>
    have hlt := hx.length_lt (by decide)
    simp only [List.length_cons] at hlt
    intro y hy
    rcases List.mem_cons.1 hy with rfl | hy
    · exact hp us _ y (by simp) hts.tail hx
    · exact ih (hx.sourced hts.tail).tail
        (fun vs ws n hle hvs hn => hp vs ws n (by simp only [List.length_cons]; omega) hvs hn) y hy

theorem gives_templateLiteral {ts rest : List Token} {n : Node}
    (h : Gives .templateLiteral ts rest n) :
    ∃ first us last quasis exprs, ts = first :: us ∧ first.cls = .backtick ∧
      last.cls = .templateEnd ∧ Parts [] us quasis exprs (last :: rest) ∧
      n = .templateLiteral first.pos quasis exprs := by
  obtain ⟨kids, hread, hbuild⟩ := h
  obtain ⟨front, mid, more, hfirst, hmore, rfl⟩ := reads_seq_cons.1 hread
  obtain ⟨tick, rfl, hopen, rfl⟩ := reads_token_takes.1 hfirst
  obtain ⟨trees, mid', back, hmany, hback, rfl⟩ := reads_seq_cons.1 hmore
  obtain ⟨last, rfl, hclose, rfl⟩ := reads_token_takes.1 (reads_seq_single hback)
  rw [List.singleton_append, build, Checked.bind_eq_ok] at hbuild
  obtain ⟨⟨quasis, exprs⟩, hparts, hn⟩ := hbuild
  rw [buildParts] at hparts
  · exact ⟨tick, mid, last, quasis, exprs, rfl, hopen, hclose,
      parts_of_repeats hmany.repeats hparts, (Checked.pure_eq_ok.1 hn).symm⟩
  · simp
  · simp

/-! ## Statements -/

/-- What a statement is read from. -/
inductive GivenStatement (ts rest : List Token) : Node → Prop
  | bareDecl {word t : Token} (hts : ts = word :: t :: rest)
      (hkeyword : word.text ∈ declarationWords.map lit) (hcls : t.cls = .ident) :
      GivenStatement ts rest (.varDecl word.pos word.text (.identifier t.pos t.text) .absent)
  | varDecl {word t equals : Token} {us : List Token} {init : Node}
      (hts : ts = word :: t :: equals :: us) (hkeyword : word.text ∈ declarationWords.map lit)
      (hcls : t.cls = .ident) (hequals : hasText (lit "=") equals = true)
      (hinit : Gives .expression us rest init) :
      GivenStatement ts rest (.varDecl word.pos word.text (.identifier t.pos t.text) init)
  | exprStmt {x : Node} (hdecl : Declines (.rule .varDecl) ts) (hx : Gives .expression ts rest x) :
      GivenStatement ts rest (.exprStmt x)

theorem gives_statement {ts rest : List Token} {n : Node} (h : Gives .statement ts rest n) :
    GivenStatement ts rest n := by
  obtain ⟨kids, hread, hbuild⟩ := h
  rcases reads_alt_cons.1 hread with h | ⟨hdecl, h⟩
  · obtain ⟨inner, hinner, rfl⟩ := reads_rule_takes.1 h
    obtain ⟨front, mid, more, hword, hmore, rfl⟩ := reads_seq_cons.1 hinner
    obtain ⟨word, rfl, -, hkeyword, rfl⟩ := reads_oneOf_takes.1 hword
    obtain ⟨ident, mid', back, hident, hback, rfl⟩ := reads_seq_rule hmore
    rw [List.singleton_append, build, Checked.bind_eq_ok] at hbuild
    obtain ⟨declared, hdeclared, hbuild⟩ := hbuild
    obtain ⟨t, rfl, hcls, rfl⟩ := gives_ident ⟨ident, hident, hdeclared⟩
    rw [Checked.bind_eq_ok] at hbuild
    obtain ⟨inits, hinits, hn⟩ := hbuild
    obtain rfl := Checked.pure_eq_ok.1 hn
    -- A declaration has an initial value or none.
    rcases reads_opt.1 (reads_seq_single hback) with hread | ⟨-, rfl, rfl⟩
    · obtain ⟨equals, us, trees, rfl, hequals, hinit, rfl⟩ := reads_seq_text hread
      rw [buildAll] at hinits
      obtain ⟨init, rfl, hinit⟩ := gives_of_buildAll (reads_seq_single hinit) hinits
      exact .varDecl rfl hkeyword hcls hequals hinit
    · obtain rfl : [] = inits := congrArg Checked.val hinits
      exact .bareDecl rfl hkeyword hcls
  rcases reads_alt_cons.1 h with h | ⟨-, h⟩
  · obtain ⟨inner, hinner, rfl⟩ := reads_rule_takes.1 h
    rw [build, Checked.bind_eq_ok] at hbuild
    · obtain ⟨x, hx, hn⟩ := hbuild
      obtain rfl := Checked.pure_eq_ok.1 hn
      exact .exprStmt hdecl ⟨inner, hinner, hx⟩
    · simp
  · exact absurd h reads_alt_nil

section

variable {limit : Option Nat} {n : Nat} {ts mid rest : List Token} {trees : List ParseTree}
  {ns ms : List Node}

/-- Semicolons leave no trees. -/
theorem buildAll_texts {t : Text} (h : Rounds limit (.text t) n ts trees rest) :
    buildAll trees = ⟨[], none⟩ := by
  induction h with
  | nil => rfl
  | cons first _ ih =>
    obtain ⟨token, -, -, rfl⟩ := reads_text_takes.1 first
    rw [List.singleton_append, buildAll, ih]

/-- Statements and semicolons, one after the other. -/
inductive Statements (limit : Option Nat) : List Token → List Node → List Token → Prop
  | nil {ts : List Token} : Statements limit ts [] ts
  | semicolon {t : Token} {ts rest : List Token} {ns : List Node}
      (ht : hasText (lit ";") t = true) (more : Statements limit ts ns rest) :
      Statements limit (t :: ts) ns rest
  | cons {ts mid rest : List Token} {n : Node} {ns : List Node}
      (first : Gives .statement ts mid n limit) (more : Statements limit mid ns rest) :
      Statements limit ts (n :: ns) rest

theorem Statements.append (h : Statements limit ts ns mid) (hm : Statements limit mid ms rest) :
    Statements limit ts (ns ++ ms) rest := by
  induction h with
  | nil => exact hm
  | semicolon ht _ ih => exact .semicolon ht (ih hm)
  | cons first _ ih => exact .cons first (ih hm)

theorem statements_of_texts (h : Rounds limit (.text (lit ";")) n ts trees rest) :
    Statements limit ts [] rest := by
  induction h with
  | nil => exact .nil
  | cons first _ ih =>
    obtain ⟨token, rfl, ht, -⟩ := reads_text_takes.1 first
    exact .semicolon ht ih

/-- Each line holds one statement. -/
theorem statements_of_lines (h : Rounds limit statementLine n ts trees rest)
    (hbuild : buildAll trees = ⟨ns, none⟩) : Statements limit ts ns rest ∧ ns.length = n := by
  induction h generalizing ns with
  | nil =>
    obtain rfl : [] = ns := congrArg Checked.val hbuild
    exact ⟨.nil, rfl⟩
  | @cons n ts mid rest front back first more ih =>
    obtain ⟨xs, ys, hxs, hys, rfl⟩ := buildAll_append_eq_ok hbuild
    obtain ⟨kids, mid', semis, hkids, hsemis, rfl⟩ := reads_seq_rule first
    obtain ⟨x, zs, hx, hzs, rfl⟩ := buildAll_branch_eq_ok hxs
    obtain ⟨k, hsemis, -⟩ := (reads_seq_single hsemis).rounds
    rw [buildAll_texts hsemis] at hzs
    obtain rfl : [] = zs := congrArg Checked.val hzs
    obtain ⟨hmore, hlength⟩ := ih hys
    exact ⟨.cons ⟨kids, hkids, hx⟩ ((statements_of_texts hsemis).append hmore),
      congrArg (· + 1) hlength⟩

end

/-- What holds of every statement holds of all of them. -/
theorem Statements.forall {ts rest : List Token} {ns : List Node} (h : Statements none ts ns rest)
    (hts : Sourced ts) {p : Node → Prop}
    (hp : ∀ us vs n, Sourced us → Gives .statement us vs n → p n) : ∀ n ∈ ns, p n := by
  induction h with
  | nil => exact fun n hn => absurd hn List.not_mem_nil
  | semicolon _ _ ih => exact ih hts.tail
  | cons first _ ih =>
    intro m hm
    rcases List.mem_cons.1 hm with rfl | hm
    · exact hp _ _ m hts first
    · exact ih (first.sourced hts) m hm

/-- A program is made of semicolons and then lines, within the limit. -/
theorem lines_of_program {limit : Option Nat} {ts rest : List Token} {n : Node}
    (h : Gives .program ts rest n limit) :
    ∃ k semis mid m trees body, Rounds limit (.text (lit ";")) k ts semis mid ∧ Allows limit k ∧
      Rounds limit statementLine m mid trees rest ∧ Allows limit m ∧
        buildAll trees = ⟨body, none⟩ ∧ n = .program (startOf ts) body := by
  obtain ⟨kids, hread, hbuild⟩ := h
  obtain ⟨semis, mid, trees, hsemis, hmany, rfl⟩ := reads_seq_cons.1 hread
  obtain ⟨k, hsemis, hk⟩ := hsemis.rounds
  obtain ⟨m, hlines, hm⟩ := (reads_seq_single hmany).rounds
  rw [build, Checked.bind_eq_ok] at hbuild
  obtain ⟨body, hbody, hn⟩ := hbuild
  obtain ⟨xs, ys, hxs, hys, rfl⟩ := buildAll_append_eq_ok hbody
  rw [buildAll_texts hsemis] at hxs
  obtain rfl : [] = xs := congrArg Checked.val hxs
  exact ⟨k, semis, mid, m, trees, ys, hsemis, hk, hlines, hm, hys,
    (Checked.pure_eq_ok.1 hn).symm⟩

theorem gives_program {ts rest : List Token} {n : Node} (h : Gives .program ts rest n) :
    ∃ body, n = .program (startOf ts) body ∧ Statements none ts body rest := by
  obtain ⟨k, semis, mid, m, trees, body, hsemis, -, hlines, -, hbuild, rfl⟩ := lines_of_program h
  exact ⟨body, rfl, (statements_of_texts hsemis).append (statements_of_lines hlines hbuild).1⟩

/-- The tree of a source is given by the rule for programs, from all of its tokens. -/
theorem gives_of_parse {limit : Option Nat} {file src : Text} {n : Node}
    (h : parse file src limit = .ok n) :
    ∃ ts rest, tokens file src = .ok ts ∧ Gives .program ts rest n limit ∧ AtEnd rest := by
  unfold parse at h
  split at h
  · simp at h
  · rename_i ts hts
    split at h
    · simp at h
    · rename_i tree hderive
      obtain ⟨rest, hread, hend⟩ := derive_eq_ok_iff.1 hderive
      obtain ⟨kids, hkids, heq⟩ := reads_rule_takes.1 hread
      obtain rfl := (List.cons.inj heq).1
      have hbuild : build (.branch .program (startOf ts) kids) = ⟨n, none⟩ := by
        unfold Checked.toExcept at h
        split at h
        · simp at h
        · rename_i herror
          rw [Checked.eq_ok herror]
          exact congrArg (Checked.mk · none) (Except.ok.inj h)
      exact ⟨ts, rest, hts, ⟨kids, hkids, hbuild⟩, hend⟩

end CubeSchema
