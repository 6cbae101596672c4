import CubeSchema.Proofs.Tree.Given
import CubeSchema.Proofs.Tree.Primary

/-!
# Trees of sources

Every tree that is read from a source has the form that `FormedProgram` describes. The proof goes by
the number of tokens: an expression is put together from parts that have fewer. Along the way it is
kept how a tree starts, because four conditions say what the grammar would have made of the tokens
otherwise. Where a word like `typeof` stands by itself, no operand follows it; where a call of
`async` starts an expression, the search for an arrow was given up nearby.
-/

namespace CubeSchema

open Lexeme Lexer Grammar Node ParseTree Operator

/-! ## How a tree starts -/

/-- What the first tokens of a tree tell. -/
structure Leads (n : Node) (ts rest : List Token) : Prop where
  /-- A name is a token by itself. -/
  name : ∀ pos name, n = .identifier pos name → ∃ t, ts = t :: rest ∧ t.cls = .ident ∧ t.text = name
  /-- So is a word. -/
  word : n.isWord = true → ∃ t, ts = t :: rest ∧ IsName t.text
  /-- A tree that starts with a word has its token in front. -/
  start : n.startsWithWord = true → ∃ t us, ts = t :: us ∧ IsName t.text

/-- A tree that is no word by itself starts as its first part does. -/
theorem Leads.extend {x n : Node} {ts mid rest : List Token} (h : Leads x ts mid)
    (hword : n.isWord = false) (hstart : n.startsWithWord = true → x.startsWithWord = true) :
    Leads n ts rest := by
  refine ⟨?_, fun h => by simp [hword] at h, fun hn => h.start (hstart hn)⟩
  rintro pos name rfl
  simp [isWord] at hword

/-- A tree that does not start with a word. -/
theorem leads_other {n : Node} (h : n.startsWithWord = false) (ts rest : List Token) :
    Leads n ts rest := by
  have hword : n.isWord = false := by
    cases n <;> first | rfl | simp [startsWithWord] at h
  refine ⟨?_, fun hn => by simp [hword] at hn, fun hn => by simp [h] at hn⟩
  rintro pos name rfl
  simp [isWord] at hword

/-- An expression that has been read. -/
structure IsExpression (n : Node) (ts rest : List Token) : Prop where
  /-- It has its form. -/
  formed : Formed n
  /-- The search for an arrow does not break it. -/
  entire : n.isEntire = true
  /-- What its first tokens tell. -/
  leads : Leads n ts rest
  /-- Where no declaration is read, it may start a statement. -/
  opens : Declines (.rule .varDecl) ts → n.opensStatement = true

/-- Expressions of fewer than `k` tokens and what follows have their form. -/
def ReadsBelow (k : Nat) : Prop :=
  ∀ ts rest n, ts.length < k → Sourced ts → Gives .expression ts rest n → IsExpression n ts rest

section

variable {k : Nat} (hbelow : ReadsBelow k)

include hbelow

theorem element_of_below {ts rest : List Token} {n : Node} (hlt : ts.length < k) (hts : Sourced ts)
    (h : Gives .element ts rest n) : Formed n ∧ n.isElement = true ∧ Leads n ts rest := by
  rcases gives_element h with h | ⟨t, us, x, rfl, -, hx, rfl⟩
  · have hn := hbelow ts rest n hlt hts h
    exact ⟨hn.formed, by simp [isElement, hn.entire], hn.leads⟩
  · have hn := hbelow us rest x (by simp only [List.length_cons] at hlt; omega) hts.tail hx
    exact ⟨.spread hn.formed hn.entire, rfl, leads_other rfl _ _⟩

theorem member_of_below {ts rest : List Token} {n : Node} (hlt : ts.length < k) (hts : Sourced ts)
    (h : Gives .objectMember ts rest n) : Formed n ∧ n.fits .objectMember = true := by
  cases gives_objectMember h with
  | @spread t us x hus hdots hx =>
    subst hus
    have hn := hbelow us rest x (by simp only [List.length_cons] at hlt; omega) hts.tail hx
    exact ⟨.spread hn.formed hn.entire, rfl⟩
  | shorthand hus hcls =>
    subst hus
    exact ⟨.shorthand (hts.isName hcls), rfl⟩
  | @property t colon us key value hus hcls hkey hcolon hvalue =>
    subst hus
    have hn := hbelow us rest value (by simp only [List.length_cons] at hlt; omega) hts.tail.tail
      hvalue
    exact ⟨.property (plainKey_of_keyNode hts hcls hkey) hn.formed hn.entire, rfl⟩
  | @computed first last colon us vs key value hus hfirst hlast hkey hcolon hvalue =>
    subst hus
    have hshort := hkey.length_lt (by decide)
    simp only [List.length_cons] at hlt hshort
    have hk := hbelow us _ key (by omega) hts.tail hkey
    have hv := hbelow vs rest value (by omega) (hkey.sourced hts.tail).tail.tail hvalue
    exact ⟨.computed hk.formed hk.entire hv.formed hv.entire, rfl⟩

/-! ## Primaries -/

end

/-- An operand without a unary operator that has been read. -/
structure IsSuffixedOf (n : Node) (ts rest : List Token) : Prop where
  /-- It has its form. -/
  formed : Formed n
  /-- It has no unary operator. -/
  suffixed : n.isSuffixed = true
  /-- What its first tokens tell. -/
  leads : Leads n ts rest
  /-- Where no function is read, the search for its arrow was given up nearby. -/
  reach : Declines (.rule .arrowFunction) ts → n.arrowReach ≤ Reader.lookahead

/-- A primary starts with no call. -/
theorem isSuffixedOf_primary {n : Node} {ts rest : List Token} (hn : Formed n)
    (hkind : n.isSuffixed = true) (hleads : Leads n ts rest) (hreach : n.arrowReach = 0) :
    IsSuffixedOf n ts rest :=
  ⟨hn, hkind, hleads, fun _ => by rw [hreach]; exact Nat.zero_le _⟩

theorem primary_of_below {ts rest : List Token} (hbelow : ReadsBelow ts.length) {n : Node}
    (hts : Sourced ts) (h : Gives .primary ts rest n) : IsSuffixedOf n ts rest := by
  cases gives_primary h with
  | @keyword t hrest htext =>
    have hname := isName_of_mem_keywordValues htext
    refine isSuffixedOf_primary (.keywordLiteral htext) rfl ⟨?_, ?_, ?_⟩ rfl
    · exact fun _ _ h => by simp at h
    · exact fun _ => ⟨t, hrest, hname⟩
    · exact fun _ => ⟨t, rest, hrest, hname⟩
  | number hrest hcls =>
    subst hrest
    exact isSuffixedOf_primary (.numberLiteral (hts.isNumber hcls)) rfl (leads_other rfl _ _) rfl
  | string hrest hcls hvalue =>
    subst hrest
    exact isSuffixedOf_primary (.stringLiteral (hts.isString hcls) hvalue) rfl
      (leads_other rfl _ _) rfl
  | @name t hrest hcls htext =>
    subst hrest
    have hname := hts.isName hcls
    refine isSuffixedOf_primary (.identifier hname htext) rfl ⟨?_, ?_, ?_⟩ rfl
    · intro p name heq
      exact ⟨t, rfl, hcls, (Node.identifier.inj heq).2⟩
    · exact fun _ => ⟨t, rfl, hname⟩
    · exact fun _ => ⟨t, rest, rfl, hname⟩
  | @paren first last us x hrest hfirst hlast hx =>
    subst hrest
    have hn := hbelow us _ x (by simp) hts.tail hx
    exact isSuffixedOf_primary (.paren hn.formed hn.entire) rfl (leads_other rfl _ _) rfl
  | @rule r n hr h =>
    -- The parts of these literals are read from fewer tokens.
    simp only [List.mem_cons, List.not_mem_nil, or_false] at hr
    rcases hr with rfl | rfl | rfl
    · obtain ⟨first, us, last, quasis, exprs, rfl, -, -, hparts, rfl⟩ := gives_templateLiteral h
      obtain ⟨w, q, qs, rfl, hraw, hchunk, -, hcooked, hqs, hlength⟩ := hparts.isRead hts.tail
      rw [List.nil_append] at hraw
      have hquasis : ∀ r ∈ q :: qs, r.IsRead := by
        intro r hr
        rcases List.mem_cons.1 hr with rfl | hr
        · exact ⟨by rw [hraw]; exact hchunk, hcooked⟩
        · exact hqs r hr
      have hall : ∀ x ∈ exprs, Formed x ∧ x.isEntire = true := by
        refine hparts.forall hts.tail fun us vs x hle hus hx => ?_
        have hn := hbelow us vs x (Nat.lt_succ_of_le hle) hus hx
        exact ⟨hn.formed, hn.entire⟩
      exact isSuffixedOf_primary (.templateLiteral (by simp [hlength]) hquasis
        (fun x hx => (hall x hx).1) fun x hx => (hall x hx).2) rfl (leads_other rfl _ _) rfl
    · obtain ⟨first, us, last, elements, rfl, -, -, hlist, rfl⟩ := gives_arrayLiteral h
      have hall : ∀ x ∈ elements, Formed x ∧ x.isElement = true := by
        refine hlist.forall (by decide) hts.tail fun us vs x hle hus hx => ?_
        obtain ⟨hformed, hkind, -⟩ := element_of_below hbelow (Nat.lt_succ_of_le hle) hus hx
        exact ⟨hformed, hkind⟩
      exact isSuffixedOf_primary (.array (fun x hx => (hall x hx).1) fun x hx => (hall x hx).2) rfl
        (leads_other rfl _ _) rfl
    · obtain ⟨first, us, last, members, rfl, -, -, hlist, rfl⟩ := gives_objectLiteral h
      have hall : ∀ x ∈ members, Formed x ∧ x.fits .objectMember = true :=
        hlist.forall (by decide) hts.tail fun us vs x hle hus hx =>
          member_of_below hbelow (Nat.lt_succ_of_le hle) hus hx
      refine isSuffixedOf_primary (.object (fun x hx => ?_) fun x hx => ?_) rfl
        (leads_other rfl _ _) rfl
      · exact (hall x (List.mem_filter.1 hx).1).1
      · exact (hall x (List.mem_filter.1 hx).1).2

/-! ## The search for an arrow -/

/-- Names are searched behind a comma as at the start of a list. -/
theorem afterName_eq_afterNames {comma : Token} (hcomma : hasText (lit ",") comma = true)
    (ts : List Token) : afterName (comma :: ts) = afterNames ts := by
  cases ts with
  | nil => simp [afterName, afterNames, skip, hcomma, closing]
  | cons t ts =>
    by_cases ht : t.cls = .ident
    · simp [afterName, afterNames, hcomma, ht]
    · simp [afterName, afterNames, hcomma, ht, skip]

theorem length_closing_le (ts : List Token) : (closing ts).2.length ≤ ts.length := by
  cases ts with
  | nil => exact Nat.le_refl _
  | cons t ts =>
    rw [closing]
    split
    · exact Nat.le_succ _
    · exact Nat.le_refl _

theorem length_skip_le (t : Text) (ts : List Token) : (skip t ts).length ≤ ts.length := by
  cases ts with
  | nil => exact Nat.le_refl _
  | cons u ts =>
    rw [skip]
    split
    · exact Nat.le_succ _
    · exact Nat.le_refl _

theorem length_afterName_le (ts : List Token) : (afterName ts).2.length ≤ ts.length := by
  fun_induction afterName ts with
  | case1 comma name rest h ih =>
    simp only [List.length_cons]
    omega
  | case2 comma name rest h =>
    exact Nat.le_trans (length_closing_le _) (length_skip_le _ _)
  | case3 ts hne => exact Nat.le_trans (length_closing_le _) (length_skip_le _ _)

theorem length_afterNames_le (ts : List Token) : (afterNames ts).2.length ≤ ts.length := by
  cases ts with
  | nil => exact Nat.le_refl _
  | cons t ts =>
    rw [afterNames]
    split
    · exact Nat.le_succ_of_le (length_afterName_le ts)
    · exact length_closing_le _

/-- The end of a list of names, with a last comma or without one. -/
theorem afterName_closed {mid rest : List Token} {close : Token} (hmid : Sourced mid)
    (h : Closed mid (close :: rest)) (hclose : hasText (lit ")") close = true) :
    (afterName mid).1 = true ∧ (afterName mid).2 = rest ∧ rest.length < mid.length := by
  have hcomma : hasText (lit ",") close = false :=
    hasText_eq_false (by rw [(hasText_eq_true.1 hclose).2]; decide)
  have hcls : ∀ {ts : List Token}, Sourced (close :: ts) → close.cls ≠ .ident := by
    intro ts hts hident
    have hname := hts.isName hident
    rw [(hasText_eq_true.1 hclose).2] at hname
    exact absurd hname (by decide)
  rcases h with heq | ⟨comma, heq, htext⟩
  · subst heq
    cases rest with
    | nil => simp [afterName, skip, hcomma, closing, hclose]
    | cons t rest => simp [afterName, skip, hcomma, closing, hclose]
  · subst heq
    rw [afterName_eq_afterNames htext, afterNames, if_neg (hcls hmid.tail), closing, if_pos hclose]
    exact ⟨rfl, rfl, by simp only [List.length_cons]; omega⟩

/-- How far a list of arguments is searched for names. -/
theorem reach_of_items {k : Nat} (hbelow : ReadsBelow k) {ts mid rest : List Token}
    {args : List Node} {close : Token} (h : Items .element ts args mid) (hlt : ts.length < k)
    (hts : Sourced ts) (hcode : ∀ t ∈ ts.head?, t.cls ∉ templateClasses)
    (hclosed : Closed mid (close :: rest)) (hclose : hasText (lit ")") close = true) :
    listReach args + (afterNames ts).2.length ≤ ts.length ∧
      (args.all isWord = true → (afterNames ts).1 = true) := by
  -- A token in code whose text is a name is one.
  have hident : ∀ {t : Token} {us : List Token}, ts = t :: us → IsName t.text →
      t.cls = .ident := by
    rintro t us rfl hname
    exact hts.sound.cls_eq_ident (hcode t rfl) hname
  have hle := length_afterNames_le ts
  induction h with
  | @last ts mid n first =>
    obtain ⟨-, -, hleads⟩ := element_of_below hbelow hlt hts first
    by_cases hword : n.isWord = true
    · obtain ⟨t, rfl, hname⟩ := hleads.word hword
      obtain ⟨hdone, hrest, hlength⟩ := afterName_closed hts.tail hclosed hclose
      rw [afterNames, if_pos (hident rfl hname), hrest]
      refine ⟨?_, fun _ => hdone⟩
      simp only [listReach, hword, if_true, List.length_cons]
      omega
    · refine ⟨?_, fun hall => by simp [hword] at hall⟩
      by_cases hstart : n.startsWithWord = true
      · obtain ⟨t, us, rfl, hname⟩ := hleads.start hstart
        have := length_afterName_le us
        rw [afterNames, if_pos (hident rfl hname)]
        simp only [listReach, hword, hstart, if_true, List.length_cons, Bool.false_eq_true,
          if_false]
        omega
      · simpa [listReach, hword, hstart] using hle
  | @cons ts mid last comma n ns first hcomma more ih =>
    obtain ⟨-, -, hleads⟩ := element_of_below hbelow hlt hts first
    obtain ⟨m, ms, rfl⟩ : ∃ m ms, ns = m :: ms := by cases more <;> exact ⟨_, _, rfl⟩
    by_cases hword : n.isWord = true
    · obtain ⟨t, rfl, hname⟩ := hleads.word hword
      have htcls := hident rfl hname
      -- Behind a name and a comma the list is in code again.
      have htext := (hasText_eq_true.1 hcomma).2
      have hopens : comma.cls ∉ templateOpeners :=
        hts.not_opener (by rw [htcls]; decide) (by rw [htext]; decide) (by rw [htext]; decide)
      have hmid : Sourced mid := hts.tail.tail
      have hcode' := hts.tail.code hopens
      simp only [List.length_cons] at hlt
      obtain ⟨hreach, hdone⟩ := ih (by omega) hmid hcode' hclosed
        (fun heq hname => by subst heq; exact hmid.sound.cls_eq_ident (hcode' _ rfl) hname)
        (length_afterNames_le mid)
      rw [afterNames, if_pos htcls, afterName_eq_afterNames hcomma]
      refine ⟨?_, fun hall => hdone (by simpa [hword] using hall)⟩
      simp only [listReach, hword, if_true, List.length_cons]
      omega
    · refine ⟨?_, fun hall => by simp [hword] at hall⟩
      by_cases hstart : n.startsWithWord = true
      · obtain ⟨t, us, rfl, hname⟩ := hleads.start hstart
        have := length_afterName_le us
        rw [afterNames, if_pos (hident rfl hname)]
        simp only [listReach, hword, hstart, if_true, List.length_cons, Bool.false_eq_true,
          if_false]
        omega
      · simpa [listReach, hword, hstart] using hle

/-- How far the search for an arrow goes in a call of `async`. -/
theorem reach_of_call {k : Nat} (hbelow : ReadsBelow k) {t paren close : Token}
    {us rest : List Token} {args : List Node} (hlt : us.length < k)
    (hts : Sourced (t :: paren :: us)) (hcls : t.cls = .ident) (ht : t.text = asyncWord)
    (hparen : hasText (lit "(") paren = true) (hclose : hasText (lit ")") close = true)
    (hargs : Listed .element us args (close :: rest))
    (h : Declines (.rule .arrowFunction) (t :: paren :: us)) :
    (if args.all isWord then 2 else 1) + listReach args ≤ Reader.lookahead := by
  have hnear := near_of_arrow_declines h (hasText_eq_true.2 ⟨by rw [hcls]; decide, ht⟩) hparen
  rcases hargs with ⟨rfl, rfl⟩ | ⟨mid, hitems, hclosed⟩
  · simp [listReach, Reader.lookahead]
  · have htext := (hasText_eq_true.1 hparen).2
    have hopens : paren.cls ∉ templateOpeners :=
      hts.not_opener (by rw [hcls]; decide) (by rw [htext]; decide) (by rw [htext]; decide)
    obtain ⟨hreach, hdone⟩ :=
      reach_of_items hbelow hitems hlt hts.tail.tail (hts.tail.code hopens) hclosed hclose
    cases hall : args.all isWord with
    | true =>
      rw [hdone hall, if_pos rfl] at hnear
      simp only [if_true]
      omega
    | false =>
      simp only [Bool.false_eq_true, if_false]
      split at hnear <;> omega

/-! ## Operands -/

/-- An index in brackets is an operand by itself. -/
theorem commits_unary_bracket {bracket close : Token} {us rest : List Token}
    {trees : List ParseTree} (hts : Sourced (bracket :: us))
    (hbracket : hasText (lit "[") bracket = true) (hclose : hasText (lit "]") close = true)
    (h : Reads (.rule .expression) us (.takes trees (close :: rest))) :
    Commits (.rule .unary) (bracket :: us) := by
  have htext := (hasText_eq_true.1 hbracket).2
  have hctext := (hasText_eq_true.1 hclose).2
  have hnot : ∀ {t : Token} {ts : List Token} {u : Text}, Sourced (t :: ts) → t.text = u →
      ¬ IsName u → ¬ IsNumber u → ¬ IsString u → u ≠ [96] → t.cls ∉ operandClasses := by
    intro t ts u hts htext hname hnumber hstring htick hmem
    simp only [operandClasses, List.mem_cons, List.not_mem_nil, or_false] at hmem
    rcases hmem with hcls | hcls | hcls | hcls
    · exact hnumber (htext ▸ hts.isNumber hcls)
    · exact hstring (htext ▸ hts.isString hcls)
    · exact hname (htext ▸ hts.isName hcls)
    · have hsound := hts.sound
      rw [BareToken.IsSound, show t.bare.cls = _ from hcls] at hsound
      exact htick (htext.symm.trans hsound)
  -- The index starts with no dots, because no expression does.
  have hdots : Reads (.opt (.text (lit "..."))) us (.takes [] us) := by
    cases us with
    | nil => exact absurd (h.length_lt rfl) (by simp)
    | cons u us =>
      refine Reads.opt_lacks (reads_text_lacks (hasText_eq_false fun hu => ?_))
      have hstart : StartsNothing u :=
        ⟨hnot hts.tail hu (by decide) (by decide) (by decide) (by decide),
          by rw [hu]; decide⟩
      exact absurd (h.unique (hstart.expression_breaks us)) (by simp)
  have helement : Reads (.rule .element) us _ := reads_rule_takes.2 ⟨_, hdots.seq h.seq_last, rfl⟩
  have hcomma : Reads (.text (lit ",")) (close :: rest) .lacks :=
    reads_text_lacks (hasText_eq_false (by rw [hctext]; decide))
  have hlist : Reads (.commaList (.rule .element)) us _ :=
    (helement.seq ((Repeats.nil.reads_many rfl (.inl hcomma.seq_lacks)).seq
      hcomma.opt_lacks.seq_last)).opt
  have harray : Reads (.rule .arrayLiteral) (bracket :: us) _ := reads_rule_takes.2
    ⟨_, (reads_text_cons hbracket us).seq (hlist.seq (reads_text_cons hclose rest).seq_last), rfl⟩
  have hcls : bracket.cls ∉ [TokenClass.number, .string, .backtick] := by
    have hcls := hnot hts htext (by decide) (by decide) (by decide)
      (by decide)
    simp only [operandClasses, List.mem_cons, List.not_mem_nil, or_false, not_or] at hcls ⊢
    exact ⟨hcls.1, hcls.2.1, hcls.2.2.2⟩
  have hprimary : Reads (.rule .primary) (bracket :: us) _ := reads_rule_takes.2
    ⟨_, reads_primary_bracket hcls (by rw [htext]; decide) harray.alt, rfl⟩
  exact commits_unary_of_primary hprimary (by rw [htext]; decide)

/-- A word that is a unary operator stands by itself only where no operand follows. -/
theorem not_commits_of_word {t : Token} {rest : List Token} (hcls : t.cls = .ident)
    (hword : t.text ∈ operatorWords) (h : Declines unaryOperation (t :: rest)) :
    ¬ Commits (.rule .unary) rest := by
  intro hcommits
  have hall : ∀ w ∈ operatorWords, w ∈ unaryOperators.map lit := by decide
  have htake : Reads (.oneOf unaryOperators) (t :: rest) (.takes [.leaf t] rest) :=
    reads_oneOf_takes.2 ⟨t, rfl, by rw [hcls]; decide, hall _ hword, rfl⟩
  exact (hcommits.seq_last.seq htake).not_declines h

/-- One more call or member access. -/
theorem suffix_of_below {k : Nat} (hbelow : ReadsBelow k) {ts mid rest : List Token} {x n : Node}
    (hts : Sourced ts) (hmid : Sourced mid) (hlt : mid.length < k) (hx : IsSuffixedOf x ts mid)
    (hop : Declines unaryOperation ts) (h : GivenSuffix mid rest x n) : IsSuffixedOf n ts rest := by
  cases h with
  | @call args optional paren close us hmark hparen hclose hargs =>
    have hshort : us.length < k := Nat.lt_of_succ_le (Nat.le_trans hmark.length_le (Nat.le_of_lt hlt))
    have hall : ∀ y ∈ args, Formed y ∧ y.isElement = true := by
      refine hargs.forall (by decide) (hmark.sourced hmid).tail fun vs ws y hle hvs hy => ?_
      obtain ⟨hformed, hkind, -⟩ := element_of_below hbelow (Nat.lt_of_le_of_lt hle hshort) hvs hy
      exact ⟨hformed, hkind⟩
    refine ⟨.call hx.formed hx.suffixed (fun y hy => (hall y hy).1) fun y hy => (hall y hy).2, rfl,
      hx.leads.extend rfl id, fun hdecl => ?_⟩
    -- Only a plain call of `async` at the very start is searched for an arrow.
    by_cases hasync : optional = false ∧ ∃ pos, x = .identifier pos asyncWord
    · obtain ⟨rfl, pos, rfl⟩ := hasync
      obtain rfl : mid = paren :: us := hmark
      obtain ⟨t, rfl, hcls, htext⟩ := hx.leads.name pos asyncWord rfl
      simp only [arrowReach, if_true]
      exact reach_of_call hbelow hshort hts hcls htext hparen hclose hargs hdecl
    · have hsame : (Node.call x args optional).arrowReach ≤ x.arrowReach := by
        cases x with
        | identifier pos name =>
          cases optional with
          | false =>
            have hname : name ≠ asyncWord := fun h => hasync ⟨rfl, pos, by rw [h]⟩
            simp [arrowReach, hname]
          | true => simp [arrowReach]
        | _ => simp [arrowReach]
      exact Nat.le_trans hsame (hx.reach hdecl)
  | @index prop optional bracket close us hmark hbracket hclose hprop =>
    have hshort : us.length < k := Nat.lt_of_succ_le (Nat.le_trans hmark.length_le (Nat.le_of_lt hlt))
    have hn := hbelow us _ prop hshort (hmark.sourced hmid).tail hprop
    refine ⟨.index hx.formed hx.suffixed hn.formed hn.entire fun hplain => ?_, rfl,
      hx.leads.extend rfl id, hx.reach⟩
    subst hplain
    obtain rfl : mid = bracket :: us := hmark
    -- Behind a word that is an operator, the index would be its operand.
    cases hword : x.isOperatorWord with
    | false => rfl
    | true =>
      cases x <;> simp [isOperatorWord] at hword
      rename_i pos name
      obtain ⟨t, rfl, hcls, rfl⟩ := hx.leads.name pos name rfl
      obtain ⟨trees, hread⟩ := hprop.reads
      exact absurd (commits_unary_bracket hts.tail hbracket hclose hread)
        (not_commits_of_word hcls hword hop)
  | member hpoint _ hcls =>
    subst hpoint
    exact ⟨.member hx.formed hx.suffixed (hmid.tail.isName hcls), rfl, hx.leads.extend rfl id,
      hx.reach⟩

/-- All calls and member accesses behind a primary. -/
theorem suffixes_of_below {k : Nat} (hbelow : ReadsBelow k) {ts mid rest : List Token} {x n : Node}
    {trees : List ParseTree} (h : Repeats (.rule .suffix) mid trees rest) (hts : Sourced ts)
    (hmid : Sourced mid) (hlt : mid.length < k) (hx : IsSuffixedOf x ts mid)
    (hop : Declines unaryOperation ts) (hbuild : buildSuffixes x trees = ⟨n, none⟩) :
    IsSuffixedOf n ts rest := by
  induction h generalizing x with
  | nil =>
    obtain rfl : x = n := congrArg Checked.val hbuild
    exact hx
  | @cons mid mid' rest front back first more ih =>
    obtain ⟨y, hy, hn⟩ := buildSuffixes_append_eq_ok hbuild
    have hy' := suffix_of_below hbelow hts hmid hlt hx hop (gives_suffix first hy)
    exact ih (hmid.rest first) (Nat.lt_of_le_of_lt first.length_le hlt) hy' hn

/-- An operand that has been read. -/
structure IsOperandOf (n : Node) (ts rest : List Token) : Prop where
  /-- It has its form. -/
  formed : Formed n
  /-- It is an operand. -/
  operand : n.isOperand = true
  /-- What its first tokens tell. -/
  leads : Leads n ts rest
  /-- Where no function is read, the search for its arrow was given up nearby. -/
  reach : Declines (.rule .arrowFunction) ts → n.arrowReach ≤ Reader.lookahead
  /-- Where it ends with a word that is a unary operator, no operand follows. -/
  bare : n.endsBare = true → ¬ Commits (.rule .unary) rest ∧
    ∀ u ∈ rest.head?, u.cls ∉ templateClasses

/-- An operand without a unary operator ends with a word that is one only if it is that word. -/
theorem eq_identifier_of_endsBare {n : Node} (h : n.isSuffixed = true) (hbare : n.endsBare = true) :
    ∃ pos name, n = .identifier pos name ∧ name ∈ operatorWords := by
  cases n with
  | identifier pos name => exact ⟨pos, name, rfl, by simpa [endsBare] using hbare⟩
  | unary => simp [isSuffixed, kind] at h
  | binary => simp [isSuffixed, kind] at h
  | _ => simp [endsBare] at hbare

theorem operand_of_below {k : Nat} (hbelow : ReadsBelow k) {ts rest : List Token} {n : Node}
    (hle : ts.length ≤ k) (hts : Sourced ts) (h : Gives .unary ts rest n) :
    IsOperandOf n ts rest := by
  induction hlength : ts.length using Nat.strong_induction_on generalizing ts n with
  | _ m ih =>
    rcases gives_unary h with ⟨t, us, x, rfl, hop, hx, rfl⟩ | ⟨hop, h⟩
    · simp only [List.length_cons] at hlength hle
      have hn := ih us.length (by omega) (by omega) hts.tail hx rfl
      refine ⟨.unary hop hn.formed hn.operand, rfl, ⟨?_, ?_, fun hstart => ?_⟩,
        fun _ => Nat.zero_le _, hn.bare⟩
      · exact fun _ _ h => by simp at h
      · exact fun h => by simp [isWord] at h
      · exact ⟨t, us, rfl, isName_of_mem_operatorWords (by simpa [startsWithWord] using hstart)⟩
    · obtain ⟨mid, x, trees, hx, hrep, hbuild⟩ := gives_suffixed h
      have hlt := hx.length_lt (by decide)
      have hbelow' : ReadsBelow ts.length :=
        fun us vs y hy => hbelow us vs y (Nat.lt_of_lt_of_le hy hle)
      have hprimary := primary_of_below hbelow' hts hx
      have hn := suffixes_of_below hbelow hrep hts (hx.sourced hts) (by omega) hprimary hop hbuild
      refine ⟨hn.formed, by simp [isOperand, hn.suffixed], hn.leads, hn.reach, fun hbare => ?_⟩
      obtain ⟨pos, name, rfl, hword⟩ := eq_identifier_of_endsBare hn.suffixed hbare
      obtain ⟨t, rfl, hcls, rfl⟩ := hn.leads.name pos name rfl
      exact ⟨not_commits_of_word hcls hword hop, hts.code (by rw [hcls]; decide)⟩

/-! ## Chains -/

/-- The last operand of a chain. -/
def lastOperand : Node → List (Text × Node) → Node
  | x, [] => x
  | _, (_, y) :: links => lastOperand y links

/-- Operands with operators between them, none of which an operand in front of it would turn into an
operator of its own. -/
def Chained : Node → List (Text × Node) → Prop
  | x, [] => Formed x ∧ x.isOperand = true
  | x, (op, y) :: links =>
    (Formed x ∧ x.isOperand = true) ∧ op ∈ binaryOperators.map lit ∧
      (x.endsBare = true → op ∉ clashingOperators) ∧ Chained y links

theorem lastOperand_append (x y : Node) (op : Text) (links links' : List (Text × Node)) :
    lastOperand x (links ++ (op, y) :: links') = lastOperand y links' := by
  induction links generalizing x with
  | nil => rfl
  | cons link links ih => exact ih link.2

/-- A chain is cut at one of its operators. -/
theorem Chained.split {x y : Node} {op : Text} {links links' : List (Text × Node)}
    (h : Chained x (links ++ (op, y) :: links')) :
    Chained x links ∧ op ∈ binaryOperators.map lit ∧
      ((lastOperand x links).endsBare = true → op ∉ clashingOperators) ∧ Chained y links' := by
  induction links generalizing x with
  | nil => exact h
  | cons link links ih =>
    obtain ⟨op', z⟩ := link
    obtain ⟨hx, hop', hclash, hmore⟩ := h
    obtain ⟨hlinks, hop, hlast, hy⟩ := ih hmore
    exact ⟨⟨hx, hop', hclash, hlinks⟩, hop, hlast, hy⟩

theorem isBinary_of_isOperand {n : Node} (h : n.isOperand = true) : n.isBinary = false := by
  cases n <;> first | rfl | simp [isOperand, isSuffixed, kind] at h

theorem Chained.isBinary {x : Node} {links : List (Text × Node)} (h : Chained x links) :
    x.isBinary = false ∧ ∀ link ∈ links, link.2.isBinary = false := by
  induction links generalizing x with
  | nil => exact ⟨isBinary_of_isOperand h.2, fun _ hl => absurd hl List.not_mem_nil⟩
  | cons link links ih =>
    obtain ⟨hx, -, -, hmore⟩ := h
    obtain ⟨hfirst, hrest⟩ := ih hmore
    refine ⟨isBinary_of_isOperand hx.2, fun l hl => ?_⟩
    rcases List.mem_cons.1 hl with rfl | hl
    · exact hfirst
    · exact hrest l hl

/-- A tree whose chain is well put together and nested by precedence has its form. -/
theorem formed_of_chained {n : Node} (hnested : Nested n) (h : Chained n.chainHead n.chainLinks) :
    Formed n ∧ n.isChain = true ∧ n.endsBare = (lastOperand n.chainHead n.chainLinks).endsBare := by
  fun_induction chainLinks n with
  | case1 left op right ihl ihr =>
    obtain ⟨hladmits, hrbinds, hnl, hnr⟩ := hnested
    obtain ⟨hl, hop, hclash, hr⟩ := h.split
    obtain ⟨hleft, hlchain, hlbare⟩ := ihl hnl hl
    obtain ⟨hright, hrchain, hrbare⟩ := ihr hnr hr
    refine ⟨.binary hop hleft hright hlchain hrchain hladmits hrbinds fun hbare => ?_, rfl, ?_⟩
    · exact hclash (by rw [chainHead, ← hlbare]; exact hbare)
    · rw [lastOperand_append, endsBare, hrbare]
  | case2 n hne =>
    have hn : n.isBinary = false := by
      cases n <;> first | rfl | exact absurd rfl (hne _ _ _)
    rw [chainHead_of_not_binary hn] at h ⊢
    exact ⟨h.1, by simp [isChain, h.2], rfl⟩

/-- A chain starts as its first operand does. -/
theorem startsWithWord_chainHead (n : Node) : n.startsWithWord = n.chainHead.startsWithWord := by
  fun_induction chainHead n with
  | case1 left op right ih => exact ih
  | case2 => rfl

theorem arrowReach_chainHead (n : Node) : n.arrowReach = n.chainHead.arrowReach := by
  fun_induction chainHead n with
  | case1 left op right ih => exact ih
  | case2 => rfl

/-- A name is an operand that a binary operator in front of it does not clash with. -/
theorem commits_unary_of_name {t : Token} {ts : List Token} (hts : Sourced (t :: ts))
    (hcls : t.cls = .ident) (hkey : t.text ∉ keywordValues.map lit)
    (hop : t.text ∉ unaryOperators.map lit) : Commits (.rule .unary) (t :: ts) := by
  obtain ⟨pos, kids, hread, -⟩ :=
    isPrimary_identifier (hts.isName hcls) hkey .unknown [t] ts
      (by rw [lexemes, Spells, ← hcls]; rfl)
  exact commits_unary_of_primary hread hop

/-- Behind an operand that ends with a word like `typeof`, no operator comes that an operand could
start with. -/
theorem not_clashing_of_bare {x y : Node} {t : Token} {ts us mid : List Token}
    (hx : IsOperandOf x ts (t :: us)) (hus : Sourced (t :: us)) (hy : Gives .unary us mid y)
    (hbare : x.endsBare = true) : t.text ∉ clashingOperators := by
  obtain ⟨hnot, hcode⟩ := hx.bare hbare
  intro hmem
  refine hnot ?_
  simp only [clashingOperators, List.map_cons, List.map_nil, List.mem_cons, List.not_mem_nil,
    or_false] at hmem
  by_cases hsign : t.text ∈ unaryOperators.map lit
  · -- A sign takes the next operand for its own.
    have hne : t.cls ≠ .eof := by
      intro hcls
      have hsound := hus.sound
      rw [BareToken.IsSound, show t.bare.cls = _ from hcls] at hsound
      rw [show t.text = [] from hsound] at hsign
      exact absurd hsign (by decide)
    have htake : Reads (.oneOf unaryOperators) (t :: us) (.takes [.leaf t] us) :=
      reads_oneOf_takes.2 ⟨t, rfl, hne, hsign, rfl⟩
    obtain ⟨trees, hread⟩ := hy.reads
    exact Commits.rule ((htake.seq hread.seq_last).commits.alt _)
  · -- A word is a name for an operand.
    have hword : t.text ∈ ["in", "instanceof"].map lit := by
      rcases hmem with h | h | h | h
      · exact absurd (by rw [h]; decide) hsign
      · exact absurd (by rw [h]; decide) hsign
      · rw [h]; decide
      · rw [h]; decide
    have hall : ∀ w ∈ ["in", "instanceof"].map lit, IsName w ∧ w ∉ keywordValues.map lit := by
      decide
    have hcls := hus.sound.cls_eq_ident (hcode t rfl) (hall _ hword).1
    exact commits_unary_of_name hus hcls (hall _ hword).2 hsign

/-- The links behind an operand are well put together. -/
theorem chained_of_joins {k : Nat} (hbelow : ReadsBelow k) {ts mid rest : List Token} {x : Node}
    {links : List (Text × Node)} (h : Joins mid links rest) (hx : IsOperandOf x ts mid)
    (hle : mid.length ≤ k) (hmid : Sourced mid) : Chained x links := by
  induction h generalizing ts x with
  | nil => exact ⟨hx.formed, hx.operand⟩
  | @cons t us mid rest y links hop hy more ih =>
    simp only [List.length_cons] at hle
    have hlt := hy.length_lt (by decide)
    have hy' := operand_of_below hbelow (by omega) hmid.tail hy
    exact ⟨⟨hx.formed, hx.operand⟩, hop, not_clashing_of_bare hx hmid hy,
      ih hy' (by omega) (hy.sourced hmid.tail)⟩

/-- A declaration commits once its word and a name are taken. -/
theorem commits_varDecl {t u : Token} {ts : List Token} (ht : t.cls = .ident)
    (hword : t.text ∈ declarationWords.map lit) (hu : u.cls = .ident) :
    Commits (.rule .varDecl) (t :: u :: ts) := by
  have htake : Reads (.oneOf declarationWords) (t :: u :: ts) (.takes [.leaf t] (u :: ts)) :=
    reads_oneOf_takes.2 ⟨t, rfl, by rw [ht]; decide, hword, rfl⟩
  obtain ⟨trees, hname⟩ := passes_name hu ts
  exact Commits.rule (((commits_opt rfl ts).seq_last.seq hname).seq htake)

/-- Where no declaration is read, a word that starts one is followed by no name. -/
theorem opensStatement_of_joins {ts mid rest : List Token} {x : Node} {links : List (Text × Node)}
    (hts : Sourced ts) (hx : Leads x ts mid) (h : Joins mid links rest)
    (hdecl : Declines (.rule .varDecl) ts) {n : Node} (hhead : n.chainHead = x)
    (hlinks : n.chainLinks = links) : n.opensStatement = true := by
  by_contra hnot
  simp only [opensStatement, headName?, headOperator?, hhead, hlinks, Bool.not_eq_true,
    Bool.not_eq_false', Bool.and_eq_true] at hnot
  obtain ⟨hname, hop⟩ := hnot
  cases h with
  | nil => simp at hop
  | @cons u us mid rest y links hbinary hy more =>
    cases x <;> simp [name?] at hname
    rename_i pos name
    obtain ⟨t, rfl, hcls, rfl⟩ := hx.name pos name rfl
    have hword : u.text ∈ ["in", "instanceof"].map lit := by simpa using hop
    have hall : ∀ w ∈ ["in", "instanceof"].map lit, IsName w := by decide
    have hu := hts.tail.sound.cls_eq_ident (hts.next (by rw [hcls]; decide)) (hall _ hword)
    exact (commits_varDecl hcls (by simpa using hname) hu).not_declines hdecl

/-- A chain that has been read. -/
theorem chain_of_below {k : Nat} (hbelow : ReadsBelow k) {ts rest : List Token} {n : Node}
    (hle : ts.length ≤ k) (hts : Sourced ts) (h : Gives .binaryChain ts rest n)
    (hdecl : Declines (.rule .arrowFunction) ts) : IsExpression n ts rest := by
  obtain ⟨mid, x, links, hx, hjoins, rfl⟩ := gives_binaryChain h
  have hlt := hx.length_lt (by decide)
  have hx' := operand_of_below hbelow hle hts hx
  have hchained := chained_of_joins hbelow hjoins hx' (by omega) (hx.sourced hts)
  obtain ⟨hfirst, hothers⟩ := hchained.isBinary
  obtain ⟨hhead, hlinks, hnested⟩ := fold_spec hfirst hothers
  obtain ⟨hformed, hchain, -⟩ := formed_of_chained hnested (by rw [hhead, hlinks]; exact hchained)
  refine ⟨hformed, ?_, ?_, fun hvar => ?_⟩
  · have hreach : (fold x links).arrowReach ≤ Reader.lookahead := by
      rw [arrowReach_chainHead, hhead]
      exact hx'.reach hdecl
    simp [isEntire, hchain, hreach]
  · cases hjoins with
    | nil => exact hx'.leads
    | cons hop hy more =>
      refine hx'.leads.extend ?_ fun hstart => ?_
      · -- A chain with an operator is no single word.
        generalize fold x _ = n at hlinks
        cases n <;> first | rfl | simp [chainLinks] at hlinks
      · rwa [startsWithWord_chainHead, hhead] at hstart
  · exact opensStatement_of_joins hts hx'.leads hjoins hvar hhead hlinks

/-! ## Expressions and programs -/

theorem expression_of_below {ts rest : List Token} (hbelow : ReadsBelow ts.length) {n : Node}
    (hts : Sourced ts) (h : Gives .expression ts rest n) : IsExpression n ts rest := by
  rcases gives_expression h with h | ⟨hdecl, h⟩
  · obtain ⟨params, body, async, mid, arrow, us, rfl, hmark, hparams, -, hlt, hus, hbody⟩ :=
      gives_arrowFunction h
    have hn := hbelow us rest body hlt (hus hts) hbody
    refine ⟨.function (hparams.isParam (hmark.sourced hts)) hn.formed hn.entire, rfl,
      ⟨?_, ?_, fun hstart => ?_⟩, fun _ => rfl⟩
    · exact fun _ _ h => by simp at h
    · exact fun h => by simp [isWord] at h
    · obtain rfl : async = true := hstart
      obtain ⟨t, rfl, ht⟩ := hmark
      exact ⟨t, mid, rfl, by rw [(hasText_eq_true.1 ht).2]; decide⟩
  · exact chain_of_below hbelow (Nat.le_refl _) hts h hdecl

/-- Every expression has its form, whatever its length. -/
theorem readsBelow (k : Nat) : ReadsBelow k := by
  induction k with
  | zero => exact fun ts rest n hlt => absurd hlt (Nat.not_lt_zero _)
  | succ k ih =>
    intro ts rest n hlt hts h
    exact expression_of_below
      (fun us vs m hus => ih us vs m (Nat.lt_of_lt_of_le hus (Nat.lt_succ_iff.1 hlt))) hts h

theorem isExpression_of_gives {ts rest : List Token} {n : Node} (hts : Sourced ts)
    (h : Gives .expression ts rest n) : IsExpression n ts rest :=
  readsBelow (ts.length + 1) ts rest n (Nat.lt_succ_self _) hts h

theorem formedStatement_of_gives {ts rest : List Token} {n : Node} (hts : Sourced ts)
    (h : Gives .statement ts rest n) : FormedStatement n := by
  cases gives_statement h with
  | bareDecl hdecl hkeyword hcls =>
    subst hdecl
    exact .bareDecl hkeyword (hts.tail.isName hcls)
  | varDecl hdecl hkeyword hcls _ hinit =>
    subst hdecl
    have hn := isExpression_of_gives hts.tail.tail.tail hinit
    exact .varDecl hkeyword (hts.tail.isName hcls) hn.formed hn.entire
  | exprStmt hdecl hx =>
    have hn := isExpression_of_gives hts hx
    exact .exprStmt hn.formed hn.entire (hn.opens hdecl)

/-- The tree of a source has the form of a program. -/
theorem formedProgram_of_parse {file src : Text} {t : Node} (h : parse file src = .ok t) :
    FormedProgram t := by
  obtain ⟨ts, rest, hts, hgives, -⟩ := gives_of_parse h
  obtain ⟨body, rfl, hbody⟩ := gives_program hgives
  exact .program (hbody.forall (linked_of_tokens hts) fun us vs n hus hn =>
    formedStatement_of_gives hus hn)

end CubeSchema
