import CubeSchema.Proofs.Tree.Primary

/-!
# How the tokens of a tree begin

Before the grammar reads an expression in the right way it tries others: a function, an operation of
a unary operator that is a word, a declaration. Each of these looks at the first tokens only. This
module says how the tokens of a tree begin, and that the wrong alternatives are given up in front of
them. The statements leave open what follows the tree, so that they go through from the first
operand of a tree to the whole of it.
-/

namespace CubeSchema

open Lexeme Lexer Grammar Node ParseTree

/-! ## First tokens -/

/-- The texts of marks that do not start an expression and are asked for somewhere. -/
def innerMarks : List Text := [",", ")", "]", "=>", "...", ":", ";"].map lit

/-- The first tokens of an expression. -/
structure Begins (n : Node) (b : BareToken) (bs : List BareToken) : Prop where
  /-- The tokens are these. -/
  eq : n.lexemes = b :: bs
  /-- The first one is no mark that stands inside of an expression. -/
  text : b.text ∉ innerMarks
  /-- The first one is a word when the node starts with one. -/
  cls : b.cls = .ident ↔ n.startsWithWord = true
  /-- A single word is a single token. -/
  word : n.isWord = true → bs = []
  /-- A word that is not alone is followed by a token that belongs to no list. -/
  next : n.startsWithWord = true → n.isWord = false →
    ∃ c cs, bs = c :: cs ∧ c.text ∉ innerMarks

/-- A node that starts with another one, followed by a token. -/
theorem Begins.extend {n m : Node} {b c : BareToken} {bs cs : List BareToken} (h : Begins n b bs)
    (heq : m.lexemes = n.lexemes ++ c :: cs) (hc : c.text ∉ innerMarks)
    (hword : m.startsWithWord = n.startsWithWord) (hm : m.isWord = false) :
    Begins m b (bs ++ c :: cs) := by
  refine ⟨by rw [heq, h.eq, List.cons_append], h.text, by rw [h.cls, hword],
    fun h => by simp [hm] at h, fun hstart _ => ?_⟩
  cases hn : n.isWord with
  | true =>
    rw [h.word hn]
    exact ⟨c, cs, rfl, hc⟩
  | false =>
    rw [hword] at hstart
    obtain ⟨d, ds, rfl, hd⟩ := h.next hstart hn
    exact ⟨d, ds ++ c :: cs, rfl, hd⟩

/-- A node that does not start with a word. -/
theorem begins_mark {n : Node} {b : BareToken} {bs : List BareToken} (heq : n.lexemes = b :: bs)
    (htext : b.text ∉ innerMarks) (hcls : b.cls ≠ .ident) (hword : n.startsWithWord = false) :
    Begins n b bs := by
  have hnot : n.isWord = false := by
    cases n <;> first | rfl | simp [startsWithWord] at hword
  refine ⟨heq, htext, ⟨fun h => absurd h hcls, fun h => by simp [hword] at h⟩,
    fun h => by simp [hnot] at h, fun h => by simp [hword] at h⟩

/-- The marks that a call or a member access starts with. -/
def suffixMarks : List BareToken := [mark ".", mark "?.", mark "[", mark "("]

theorem lexemes_member (obj prop : Node) (computed optional : Bool) :
    ∃ c cs, (member obj prop computed optional).lexemes = obj.lexemes ++ c :: cs ∧
      c ∈ suffixMarks := by
  rw [lexemes, List.append_assoc, List.append_assoc]
  cases computed <;> cases optional <;> exact ⟨_, _, rfl, by decide⟩

theorem lexemes_call (callee : Node) (args : List Node) (optional : Bool) :
    ∃ c cs, (call callee args optional).lexemes = callee.lexemes ++ c :: cs ∧ c ∈ suffixMarks := by
  rw [lexemes, List.append_assoc, List.append_assoc]
  cases optional <;> exact ⟨_, _, rfl, by decide⟩

theorem isChain_of_isSuffixed {n : Node} (h : n.isSuffixed = true) : n.isChain = true := by
  simp [isChain, isOperand, h]

/-- Every expression begins with a token that starts an expression. -/
theorem Formed.begins {n : Node} (h : Formed n) (hn : n.isChain = true ∨ n.kind = .function) :
    ∃ b bs, Begins n b bs := by
  have hmarks : ∀ c ∈ suffixMarks, c.text ∉ innerMarks := by decide
  induction h with
  | @identifier pos name hname hvalue =>
    refine ⟨⟨.ident, name⟩, [], rfl, hname.not_mem (by decide), by simp [startsWithWord],
      fun _ => rfl, fun _ h => by simp [isWord] at h⟩
  | @keywordLiteral pos value hvalue =>
    refine ⟨⟨.ident, value⟩, [], rfl, ?_, by simp [startsWithWord], fun _ => rfl,
      fun _ h => by simp [isWord] at h⟩
    exact (isName_of_mem_keywordValues hvalue).not_mem (by decide)
  | @stringLiteral pos value raw hraw hvalue =>
    refine ⟨⟨.string, raw⟩, [], begins_mark rfl (fun h => ?_) (by simp) rfl⟩
    have hall : ∀ t ∈ innerMarks, ¬ IsString t := by decide
    exact hall _ h hraw
  | @numberLiteral pos raw hraw =>
    refine ⟨⟨.number, raw⟩, [], begins_mark rfl (fun h => ?_) (by simp) rfl⟩
    have hall : ∀ t ∈ innerMarks, ¬ IsNumber t := by decide
    exact hall _ h hraw
  | templateLiteral => exact ⟨_, _, begins_mark rfl (by decide) (by simp) rfl⟩
  | array => exact ⟨_, _, begins_mark rfl (by decide) (by simp [mark]) rfl⟩
  | object => exact ⟨_, _, begins_mark rfl (by decide) (by simp) rfl⟩
  | paren => exact ⟨_, _, begins_mark rfl (by decide) (by simp [mark]) rfl⟩
  -- What stands only inside of an object or a list is neither a chain nor a function.
  | shorthand => simp [isChain, isOperand, isSuffixed, kind] at hn
  | property => simp [isChain, isOperand, isSuffixed, kind] at hn
  | computed => simp [isChain, isOperand, isSuffixed, kind] at hn
  | spread => simp [isChain, isOperand, isSuffixed, kind] at hn
  -- A suffix or a binary operator comes behind the token that the front part begins with.
  | @member obj ppos name optional hobj hsuffixed hname ih =>
    obtain ⟨b, bs, hb⟩ := ih (.inl (isChain_of_isSuffixed hsuffixed))
    obtain ⟨c, cs, heq, hc⟩ := lexemes_member obj (.identifier ppos name) false optional
    exact ⟨b, _, hb.extend heq (hmarks c hc) rfl rfl⟩
  | @index obj prop optional hobj hsuffixed hprop hentire hword ih _ =>
    obtain ⟨b, bs, hb⟩ := ih (.inl (isChain_of_isSuffixed hsuffixed))
    obtain ⟨c, cs, heq, hc⟩ := lexemes_member obj prop true optional
    exact ⟨b, _, hb.extend heq (hmarks c hc) rfl rfl⟩
  | @call callee args optional hcallee hsuffixed hargs hkind ih _ =>
    obtain ⟨b, bs, hb⟩ := ih (.inl (isChain_of_isSuffixed hsuffixed))
    obtain ⟨c, cs, heq, hc⟩ := lexemes_call callee args optional
    exact ⟨b, _, hb.extend heq (hmarks c hc) rfl rfl⟩
  | @function pos params body async hparams hbody hentire ih =>
    cases async with
    | false => exact ⟨_, _, begins_mark rfl (by decide) (by simp [mark]) rfl⟩
    | true =>
      refine ⟨⟨.ident, asyncWord⟩, _, rfl, by decide, by simp [startsWithWord],
        fun h => by simp [isWord] at h, fun _ _ => ⟨_, _, rfl, by decide⟩⟩
  | @binary left right op hop hleft hright hlchain hrchain hladmits hrbinds hclash ihl ihr =>
    obtain ⟨b, bs, hb⟩ := ihl (.inl hlchain)
    have hall : ∀ op ∈ binaryOperators.map lit, op ∉ innerMarks := by decide
    exact ⟨b, _, hb.extend (by rw [lexemes]) (hall op hop) rfl rfl⟩
  | @unary pos op x hop hx hoperand ih =>
    have hchain : x.isChain = true := by simp [isChain, hoperand]
    obtain ⟨b, bs, hb⟩ := ih (.inl hchain)
    have htext : ∀ op ∈ unaryOperators.map lit, op ∉ innerMarks := by decide
    have hcls : ∀ op ∈ unaryOperators.map lit,
        (sign op).cls = .ident ↔ operatorWords.contains op = true := by decide
    refine ⟨sign op, x.lexemes, rfl, htext op hop, hcls op hop, fun h => by simp [isWord] at h,
      fun _ _ => ⟨b, bs, hb.eq, hb.text⟩⟩

/-- Tokens that begin as an expression does. -/
theorem Begins.spelled {n : Node} {b : BareToken} {bs : List BareToken} (h : Begins n b bs)
    {ts : List Token} (hts : Spells ts n.lexemes) :
    ∃ t us, ts = t :: us ∧ t.bare = b ∧ Spells us bs := by
  rw [h.eq] at hts
  exact hts.cons

/-! ## Arguments that could be parameters -/

/-- Behind a comma a list of names goes on as it starts. -/
theorem afterName_comma {comma t : Token} {us : List Token}
    (hcomma : hasText (lit ",") comma = true) :
    afterName (comma :: t :: us) = afterNames (t :: us) := by
  rw [afterName, afterNames]
  by_cases ht : t.cls = .ident
  · simp [hcomma, ht]
  · simp [hcomma, ht, skip]

/-- A list of names is closed behind a name. -/
theorem afterName_close {close : Token} (hclose : close.bare = mark ")") (more : List Token) :
    afterName (close :: more) = (true, more) := by
  have hcomma : hasText (lit ",") close = false :=
    hasText_eq_false (by rw [text_of_bare hclose]; decide)
  cases more <;> simp [afterName, hcomma, skip, closing, hasText_mark hclose]

/-- A list of names breaks off at a token that is no mark of a list. -/
theorem closing_other {t : Token} (ht : t.text ≠ lit ")") (us : List Token) :
    closing (t :: us) = (false, t :: us) := by
  simp [closing, hasText_eq_false ht]

/-- What the search for parameters makes of a list of arguments. -/
structure Searches (args : List Node) (total more : List Token) (found : Bool × List Token) :
    Prop where
  /-- The list is one of parameters when all arguments are words. -/
  closed : found.1 = args.all isWord
  /-- So many tokens have been taken. -/
  length : total.length = listReach args + found.2.length
  /-- Behind parameters comes what follows the list. -/
  more : found.1 = true → found.2 = more
  /-- Else the search ends in front of a token that is no arrow. -/
  stop : found.1 = false → ∃ t us, found.2 = t :: us ∧ t.text ≠ lit "=>"

theorem isEntire_iff {n : Node} : n.isEntire = true ↔
    (n.isChain = true ∨ n.kind = .function) ∧ n.arrowReach ≤ Reader.lookahead := by
  simp [isEntire]

theorem isElement_iff {n : Node} : n.isElement = true ↔ n.isEntire = true ∨ n.kind = .spread := by
  simp [isElement]

/-- The first tokens of an argument. -/
theorem Formed.front {x : Node} (hx : Formed x) (hkind : x.isElement = true) {us : List Token}
    (hus : Spells us x.lexemes) :
    ∃ t vs, us = t :: vs ∧ t.text ∉ [",", ")", "=>"].map lit ∧
      (t.cls = .ident ↔ x.startsWithWord = true) ∧ (x.isWord = true → vs = []) ∧
      (x.startsWithWord = true → x.isWord = false →
        ∃ u ws, vs = u :: ws ∧ u.text ∉ [",", ")", "=>"].map lit) := by
  -- None of the three marks occurs within what an expression begins with.
  have hsub : ∀ {u : Text}, u ∉ innerMarks → u ∉ [",", ")", "=>"].map lit := by
    intro u hu hmem
    have hall : ∀ u ∈ [",", ")", "=>"].map lit, u ∈ innerMarks := by decide
    exact hu (hall u hmem)
  rcases isElement_iff.1 hkind with hentire | hspread
  · obtain ⟨b, bs, hb⟩ := hx.begins (isEntire_iff.1 hentire).1
    obtain ⟨t, vs, rfl, ht, hvs⟩ := hb.spelled hus
    refine ⟨t, vs, rfl, ?_, by rw [cls_of_bare ht, hb.cls], fun hword => ?_,
      fun hstart hword => ?_⟩
    · rw [text_of_bare ht]
      exact hsub hb.text
    · rw [hb.word hword] at hvs
      exact hvs.nil
    · obtain ⟨c, cs, rfl, hc⟩ := hb.next hstart hword
      obtain ⟨u, ws, rfl, hu, -⟩ := hvs.cons
      exact ⟨u, ws, rfl, by rw [text_of_bare hu]; exact hsub hc⟩
  · cases hx <;> simp [kind] at hspread
    rw [lexemes] at hus
    obtain ⟨t, vs, rfl, ht, -⟩ := hus.cons
    refine ⟨t, vs, rfl, by rw [text_of_bare ht]; decide, ?_, fun h => by simp [isWord] at h,
      fun h => by simp [startsWithWord] at h⟩
    rw [cls_of_bare ht]
    simp [mark, startsWithWord]

/-- What the search for parameters makes of a list of arguments. -/
theorem searches_args {args : List Node} (hargs : ∀ x ∈ args, Formed x)
    (hkind : ∀ x ∈ args, x.isElement = true) {ts : List Token}
    (hts : Spells ts (commaTokens (lexemesAll args))) {close : Token}
    (hclose : close.bare = mark ")") (more : List Token) :
    Searches args (ts ++ close :: more) more (afterNames (ts ++ close :: more)) := by
  have hend : close.text = lit ")" := text_of_bare hclose
  induction args generalizing ts with
  | nil =>
    obtain rfl := Spells.nil hts
    have hcls : close.cls ≠ .ident := by rw [cls_of_bare hclose]; decide
    have hfound : afterNames (close :: more) = (true, more) := by
      rw [afterNames, if_neg hcls, closing, if_pos (hasText_mark hclose)]
    rw [List.nil_append, hfound]
    exact ⟨rfl, by simp [listReach]; omega, fun _ => rfl, fun h => by simp at h⟩
  | cons x args ih =>
    have hx := hargs x (List.mem_cons_self ..)
    have hxkind := hkind x (List.mem_cons_self ..)
    rw [commaTokens_cons] at hts
    obtain ⟨us, vs, rfl, hus, hvs⟩ := hts.append
    obtain ⟨t, ws, rfl, ht, hcls, hword, hnext⟩ := hx.front hxkind hus
    simp only [List.map_cons, List.map_nil, List.mem_cons, List.not_mem_nil, or_false, not_or] at ht
    rw [List.append_assoc, List.cons_append]
    cases hxword : x.isWord with
    | true =>
      -- The word is taken, and the search goes on behind it.
      obtain rfl := hword hxword
      have hstart : x.startsWithWord = true := by
        cases x <;> simp [isWord] at hxword <;> rfl
      rw [afterNames, if_pos (hcls.2 hstart), List.nil_append]
      cases args with
      | nil =>
        obtain rfl := Spells.nil hvs
        rw [List.nil_append, afterName_close hclose]
        exact ⟨by simp [hxword], by simp [listReach, hxword]; omega, fun _ => rfl,
          fun h => by simp at h⟩
      | cons y args =>
        rw [List.flatMap_cons, List.cons_append] at hvs
        obtain ⟨comma, vs, rfl, hcomma, hvs⟩ := hvs.cons
        have hrest : Spells vs (commaTokens (lexemesAll (y :: args))) := by
          rw [commaTokens_cons]
          exact hvs
        have hfound := ih (fun z hz => hargs z (List.mem_cons_of_mem _ hz))
          (fun z hz => hkind z (List.mem_cons_of_mem _ hz)) hrest
        obtain ⟨u, us, hus⟩ : ∃ u us, vs ++ close :: more = u :: us := by
          cases vs with
          | nil => exact ⟨_, _, rfl⟩
          | cons u us => exact ⟨_, _, rfl⟩
        rw [List.cons_append, hus, afterName_comma (hasText_mark hcomma), ← hus]
        refine ⟨by rw [hfound.closed]; simp [hxword], ?_, hfound.more, hfound.stop⟩
        have := hfound.length
        rw [listReach, if_pos hxword]
        simp only [List.length_cons] at this ⊢
        omega
    | false =>
      have hall : (x :: args).all isWord = false := by simp [hxword]
      have hreach : listReach (x :: args) = if x.startsWithWord then 1 else 0 := by
        cases args <;> simp [listReach, hxword]
      cases hstart : x.startsWithWord with
      | true =>
        obtain ⟨u, ws, rfl, hu⟩ := hnext hstart hxword
        simp only [List.map_cons, List.map_nil, List.mem_cons, List.not_mem_nil, or_false,
          not_or] at hu
        have hfound : ∀ zs, afterName (u :: zs) = (false, u :: zs) := by
          intro zs
          have hcomma := hasText_eq_false hu.1
          cases zs <;> simp [afterName, hcomma, skip, closing_other hu.2.1]
        rw [afterNames, if_pos (hcls.2 hstart), List.cons_append, hfound]
        refine ⟨by rw [hall], ?_, fun h => by simp at h, fun _ => ⟨u, _, rfl, hu.2.2⟩⟩
        rw [hreach, if_pos hstart]
        simp only [List.length_cons]
        omega
      | false =>
        have hnot : t.cls ≠ .ident := fun h => by simp [hcls.1 h] at hstart
        rw [afterNames, if_neg hnot, closing_other ht.2.1]
        refine ⟨by rw [hall], ?_, fun h => by simp at h, fun _ => ⟨t, _, rfl, ht.2.2⟩⟩
        rw [hreach, hstart]
        simp

/-! ## No function -/

/-- No arrow follows. -/
def NoArrow (rest : List Token) : Prop := ∃ t more, rest = t :: more ∧ t.text ≠ lit "=>"

/-- What follows the word `async` is no head of a function. -/
def NoHead (rest : List Token) : Prop :=
  ∃ t more, rest = t :: more ∧ t.text ≠ lit "(" ∧ (t.cls = .ident → NoArrow more)

/-- A token that is neither a name nor an opening parenthesis starts no function. -/
theorem arrow_declines_other {t : Token} {b : BareToken} (ht : t.bare = b) (hcls : b.cls ≠ .ident)
    (htext : b.text ∉ ["(", "async"].map lit) (ts : List Token) :
    Declines (.rule .arrowFunction) (t :: ts) := by
  simp only [List.map_cons, List.map_nil, List.mem_cons, List.not_mem_nil, or_false,
    not_or] at htext
  rw [← text_of_bare ht] at htext
  rw [← cls_of_bare ht] at hcls
  exact (abandons_other hcls htext.1).declines htext.2 (by omega)

/-- A name without an arrow starts no function. -/
theorem arrow_declines_name {t : Token} (hcls : t.cls = .ident) (hparen : t.text ≠ lit "(")
    (hasync : t.text ≠ lit "async") {rest : List Token} (hrest : NoArrow rest) :
    Declines (.rule .arrowFunction) (t :: rest) := by
  obtain ⟨next, more, rfl, hnext⟩ := hrest
  refine (abandons_name hcls hparen hnext).declines hasync ?_
  simp only [List.length_cons, Reader.lookahead]
  omega

/-- The word `async` starts no function without a head behind it. -/
theorem arrow_declines_async {t : Token} (ht : t.bare = ⟨.ident, asyncWord⟩) {rest : List Token}
    (hrest : NoHead rest) : Declines (.rule .arrowFunction) (t :: rest) := by
  obtain ⟨next, more, rfl, hparen, harrow⟩ := hrest
  have hasync : hasText (lit "async") t = true :=
    hasText_eq_true.2 ⟨by rw [cls_of_bare ht]; decide, text_of_bare ht⟩
  by_cases hcls : next.cls = .ident
  · obtain ⟨third, more, rfl, hthird⟩ := harrow hcls
    refine .inr ⟨_, (abandons_name hcls hparen hthird).asyncArrow hasync, isFar_eq_false ?_⟩
    simp only [List.length_cons, Reader.lookahead]
    omega
  · refine .inr ⟨_, (abandons_other hcls hparen).asyncArrow hasync, isFar_eq_false ?_⟩
    simp only [List.length_cons, Reader.lookahead]
    omega

/-- The search for an arrow in front of arguments in parentheses. -/
theorem abandons_args {args : List Node} (hargs : ∀ x ∈ args, Formed x)
    (hkind : ∀ x ∈ args, x.isElement = true) {ts : List Token}
    (hts : Spells ts (commaTokens (lexemesAll args))) {token close : Token}
    (htoken : token.bare = mark "(") (hclose : close.bare = mark ")") {more : List Token}
    (hmore : NoArrow more) (hreach : args.all isWord = false → listReach args < Reader.lookahead) :
    ∃ rest, Abandons (token :: (ts ++ close :: more)) rest ∧
      (token :: (ts ++ close :: more)).length ≤
        (if args.all isWord then 1 + listReach args else 0) + rest.length := by
  have hfound := searches_args hargs hkind hts hclose more
  refine ⟨_, abandons_open (hasText_mark htoken) (by rw [cls_of_bare htoken]; decide) ?_ ?_, ?_⟩
  · intro t ht
    cases hclosed : (afterNames (ts ++ close :: more)).1 with
    | true =>
      rw [hfound.more hclosed] at ht
      obtain ⟨u, us, rfl, hu⟩ := hmore
      obtain rfl := Option.some.inj ht
      exact hu
    | false =>
      obtain ⟨u, us, heq, hu⟩ := hfound.stop hclosed
      rw [heq] at ht
      obtain rfl := Option.some.inj ht
      exact hu
  · intro hclosed
    have hlength := hfound.length
    -- The names end at something else, within the lookahead: the search is given up nearby.
    have := hreach (by rw [← hfound.closed, hclosed])
    refine isFar_eq_false ?_
    rw [List.length_cons]
    omega
  · have hlength := hfound.length
    rw [← hfound.closed]
    split
    · rw [List.length_cons]
      omega
    · omega

/-- What follows the first operand of a call or a member access. -/
theorem noArrow_suffix {c : BareToken} {cs : List BareToken} (hc : c ∈ suffixMarks)
    {ts : List Token} (hts : Spells ts (c :: cs)) (rest : List Token) : NoArrow (ts ++ rest) := by
  have hall : ∀ c ∈ suffixMarks, c.text ≠ lit "=>" := by decide
  obtain ⟨t, us, rfl, ht, -⟩ := hts.cons
  exact ⟨t, _, rfl, by rw [text_of_bare ht]; exact hall c hc⟩

theorem noHead_suffix {c : BareToken} {cs : List BareToken} (hc : c ∈ suffixMarks)
    (hparen : c ≠ mark "(") {ts : List Token} (hts : Spells ts (c :: cs)) (rest : List Token) :
    NoHead (ts ++ rest) := by
  have hall : ∀ c ∈ suffixMarks, c ≠ mark "(" → c.text ≠ lit "(" ∧ c.cls ≠ .ident := by
    decide
  obtain ⟨t, us, rfl, ht, -⟩ := hts.cons
  obtain ⟨htext, hcls⟩ := hall c hc hparen
  refine ⟨t, _, rfl, by rwa [text_of_bare ht], fun h => ?_⟩
  rw [cls_of_bare ht] at h
  exact absurd h hcls

/-- A call of `async` is not the start of a function. -/
theorem arrow_declines_call {args : List Node} (hargs : ∀ x ∈ args, Formed x)
    (hkind : ∀ x ∈ args, x.isElement = true)
    (hreach : (if args.all isWord then 2 else 1) + listReach args ≤ Reader.lookahead)
    {pos : Position} {ts rest : List Token}
    (hts : Spells ts (call (.identifier pos asyncWord) args false).lexemes) (hrest : NoArrow rest) :
    Declines (.rule .arrowFunction) (ts ++ rest) := by
  rw [lexemes] at hts
  obtain ⟨word, us, rfl, hword, hus⟩ := Spells.cons hts
  obtain ⟨paren, us, rfl, hparen, hus⟩ := Spells.cons hus
  obtain ⟨vs, ws, rfl, hvs, hws⟩ := hus.append
  obtain ⟨close, rfl, hclose⟩ := hws.single
  have hasync : hasText (lit "async") word = true :=
    hasText_eq_true.2 ⟨by rw [cls_of_bare hword]; decide, text_of_bare hword⟩
  obtain ⟨out, hout, hlength⟩ := abandons_args hargs hkind hvs hparen hclose hrest
    (fun h => by rw [h] at hreach; simp only [Bool.false_eq_true, if_false] at hreach; omega)
  rw [List.cons_append, List.cons_append, List.append_assoc, List.singleton_append]
  refine .inr ⟨out, hout.asyncArrow hasync, isFar_eq_false ?_⟩
  rw [List.length_cons]
  split at hlength <;> split at hreach <;> simp_all [Reader.lookahead] <;> omega

/-- An expression that is no function is not read as one. -/
theorem Formed.arrow_declines {n : Node} (h : Formed n) (hn : n.isChain = true)
    (hreach : n.arrowReach ≤ Reader.lookahead) {ts rest : List Token} (hts : Spells ts n.lexemes)
    (hrest : NoArrow rest) (hasync : n.name? = some asyncWord → NoHead rest) :
    Declines (.rule .arrowFunction) (ts ++ rest) := by
  induction h generalizing ts rest with
  | @identifier pos name hname hvalue =>
    obtain ⟨t, rfl, ht⟩ := hts.single
    -- Only this name can be followed by a parameter or a list of them.
    by_cases hname' : name = asyncWord
    · exact arrow_declines_async (by rw [ht, hname']) (hasync (by rw [hname']; rfl))
    · refine arrow_declines_name (cls_of_bare ht) ?_ ?_ hrest
      · rw [text_of_bare ht]
        exact hname.ne (by decide)
      · rwa [text_of_bare ht]
  | @keywordLiteral pos value hvalue =>
    obtain ⟨t, rfl, ht⟩ := hts.single
    have hall : ∀ v ∈ keywordValues.map lit, v ≠ lit "(" ∧ v ≠ lit "async" := by decide
    refine arrow_declines_name (cls_of_bare ht) ?_ ?_ hrest
    · rw [text_of_bare ht]
      exact (hall value hvalue).1
    · rw [text_of_bare ht]
      exact (hall value hvalue).2
  | @stringLiteral pos value raw hraw hvalue =>
    obtain ⟨t, rfl, ht⟩ := hts.single
    have hall : ∀ t ∈ ["(", "async"].map lit, ¬ IsString t := by decide
    exact arrow_declines_other ht (by simp) (fun h => hall _ h hraw) _
  | @numberLiteral pos raw hraw =>
    obtain ⟨t, rfl, ht⟩ := hts.single
    have hall : ∀ t ∈ ["(", "async"].map lit, ¬ IsNumber t := by decide
    exact arrow_declines_other ht (by simp) (fun h => hall _ h hraw) _
  | templateLiteral =>
    obtain ⟨t, us, rfl, ht, -⟩ := Spells.cons hts
    exact arrow_declines_other ht (by decide) (by decide) _
  | array =>
    obtain ⟨t, us, rfl, ht, -⟩ := Spells.cons hts
    exact arrow_declines_other ht (by decide) (by decide) _
  | object =>
    obtain ⟨t, us, rfl, ht, -⟩ := Spells.cons hts
    exact arrow_declines_other ht (by decide) (by decide) _
  | shorthand => simp [isChain, isOperand, isSuffixed, kind] at hn
  | property => simp [isChain, isOperand, isSuffixed, kind] at hn
  | computed => simp [isChain, isOperand, isSuffixed, kind] at hn
  | spread => simp [isChain, isOperand, isSuffixed, kind] at hn
  | function => simp [isChain, isOperand, isSuffixed, kind] at hn
  | @member obj ppos name optional hobj hsuffixed hname ih =>
    rw [lexemes, List.append_assoc, List.append_assoc] at hts
    obtain ⟨us, vs, rfl, hus, hvs⟩ := hts.append
    rw [List.append_assoc]
    refine ih (isChain_of_isSuffixed hsuffixed) hreach hus ?_ fun _ => ?_
    · cases optional <;> exact noArrow_suffix (by decide) hvs rest
    · cases optional <;> exact noHead_suffix (by decide) (by decide) hvs rest
  | @index obj prop optional hobj hsuffixed hprop hentire hword ih _ =>
    rw [lexemes, List.append_assoc, List.append_assoc] at hts
    obtain ⟨us, vs, rfl, hus, hvs⟩ := hts.append
    rw [List.append_assoc]
    refine ih (isChain_of_isSuffixed hsuffixed) hreach hus ?_ fun _ => ?_
    · cases optional <;> exact noArrow_suffix (by decide) hvs rest
    · cases optional <;> exact noHead_suffix (by decide) (by decide) hvs rest
  | @call callee args optional hcallee hsuffixed hargs hkind ih _ =>
    -- A call of `async` reads like the head of a function; the search for its arrow is given up
    -- behind the arguments. Every other call is declined as its callee is.
    by_cases hcall : callee.name? = some asyncWord ∧ optional = false
    · obtain ⟨hname, rfl⟩ := hcall
      cases callee <;> simp [name?] at hname
      subst hname
      rw [arrowReach, if_pos rfl] at hreach
      exact arrow_declines_call hargs hkind hreach hts hrest
    · have hcalleeReach : callee.arrowReach ≤ Reader.lookahead := by
        cases callee <;> first | exact hreach | exact Nat.zero_le _
      rw [lexemes, List.append_assoc, List.append_assoc] at hts
      obtain ⟨us, vs, rfl, hus, hvs⟩ := hts.append
      rw [List.append_assoc]
      refine ih (isChain_of_isSuffixed hsuffixed) hcalleeReach hus ?_ fun hname => ?_
      · cases optional <;> exact noArrow_suffix (by decide) hvs rest
      · have hoptional : optional = true := by simpa [hname] using hcall
        subst hoptional
        exact noHead_suffix (by decide) (by decide) hvs rest
  | @binary left right op hop hleft hright hlchain hrchain hladmits hrbinds hclash ihl ihr =>
    rw [lexemes] at hts
    obtain ⟨us, vs, rfl, hus, hvs⟩ := hts.append
    obtain ⟨t, vs, rfl, ht, hvs⟩ := hvs.cons
    have hall : ∀ op ∈ binaryOperators.map lit, op ≠ lit "=>" ∧ op ≠ lit "(" := by decide
    obtain ⟨harrow, hparen⟩ := hall op hop
    have htext : t.text = op := text_of_bare ht
    rw [List.append_assoc]
    refine ihl hlchain hreach hus ⟨t, _, rfl, by rwa [htext]⟩ fun _ => ?_
    refine ⟨t, _, rfl, by rwa [htext], fun _ => ?_⟩
    -- If the operator is a word, an operand stands behind it and no arrow.
    obtain ⟨b, bs, hb⟩ := hright.begins (.inl hrchain)
    obtain ⟨u, ws, rfl, hu, -⟩ := hb.spelled hvs
    refine ⟨u, _, rfl, fun h => hb.text ?_⟩
    rw [← text_of_bare hu, h]
    decide
  | @unary pos op x hop hx hoperand ih =>
    rw [lexemes] at hts
    obtain ⟨t, us, rfl, ht, hus⟩ := hts.cons
    have hall : ∀ op ∈ unaryOperators.map lit, op ∉ ["(", "async"].map lit := by decide
    by_cases hcls : (sign op).cls = .ident
    · have htext := hall op hop
      simp only [List.map_cons, List.map_nil, List.mem_cons, List.not_mem_nil, or_false,
        not_or] at htext
      obtain ⟨b, bs, hb⟩ := hx.begins (.inl (by simp [isChain, hoperand]))
      obtain ⟨u, ws, rfl, hu, -⟩ := hb.spelled hus
      refine arrow_declines_name (by rw [cls_of_bare ht, hcls])
        (by rw [text_of_bare ht]; exact htext.1)
        (by rw [text_of_bare ht]; exact htext.2) ⟨u, _, rfl, fun h => hb.text ?_⟩
      rw [← text_of_bare hu, h]
      decide
    · exact arrow_declines_other ht hcls (hall op hop) _
  | @paren pos x hx hentire ih =>
    rw [lexemes] at hts
    obtain ⟨t, us, rfl, ht, hus⟩ := Spells.cons hts
    obtain ⟨vs, ws, rfl, hvs, hws⟩ := hus.append
    obtain ⟨close, rfl, hclose⟩ := hws.single
    -- The parentheses read like a list of parameters that no arrow follows.
    have hlist : listReach [x] ≤ 2 := by
      simp only [listReach]
      split
      · omega
      · split <;> omega
    have hargs : ∀ y ∈ [x], Formed y := by simpa using hx
    have hkind : ∀ y ∈ [x], y.isElement = true := by simpa using isElement_iff.2 (.inl hentire)
    obtain ⟨out, hout, hlength⟩ := abandons_args hargs hkind hvs ht hclose hrest
      (fun _ => by simp only [Reader.lookahead]; omega)
    rw [List.cons_append, List.append_assoc, List.singleton_append]
    refine hout.declines (by rw [text_of_bare ht]; decide) ?_
    split at hlength <;> simp only [Reader.lookahead] <;> omega

/-! ## No declaration -/

/-- What follows a word that starts a declaration is no name. -/
def NoName (rest : List Token) : Prop := ∃ t more, rest = t :: more ∧ t.cls ≠ .ident

theorem noName_suffix {c : BareToken} {cs : List BareToken} (hc : c ∈ suffixMarks)
    {ts : List Token} (hts : Spells ts (c :: cs)) (rest : List Token) : NoName (ts ++ rest) := by
  have hall : ∀ c ∈ suffixMarks, c.cls ≠ .ident := by decide
  obtain ⟨t, us, rfl, ht, -⟩ := hts.cons
  exact ⟨t, _, rfl, by rw [cls_of_bare ht]; exact hall c hc⟩

/-- A token that is no word for declarations starts none. -/
theorem varDecl_declines_other {t : Token} {b : BareToken} (ht : t.bare = b)
    (htext : b.text ∉ declarationWords.map lit) (ts : List Token) :
    Declines (.rule .varDecl) (t :: ts) := by
  rw [← text_of_bare ht] at htext
  exact .inl (Reads.rule (a := .lacks) (reads_oneOf_lacks htext).seq_lacks)

/-- A first operand of a statement starts it as well. -/
theorem opensStatement_left {left right : Node} {op : Text}
    (h : (binary left op right).opensStatement = true) : left.opensStatement = true ∧
      (left.name?.any (declarationWords.map lit).contains = true →
        op ∉ [lit "in", lit "instanceof"]) := by
  cases hlinks : left.chainLinks with
  | nil =>
    have hnone : left.headOperator? = none := by simp [headOperator?, hlinks]
    refine ⟨by simp [opensStatement, hnone], fun hname hop => ?_⟩
    have hhead : left.chainHead = left := by
      cases left <;> first | rfl | simp [name?] at hname
    simp [opensStatement, headName?, headOperator?, chainHead, chainLinks, hlinks, hhead,
      hname] at h
    simp at hop
    exact hop.elim h.1 h.2
  | cons link links =>
    refine ⟨?_, fun hname => ?_⟩
    · simpa [opensStatement, headName?, headOperator?, chainHead, chainLinks, hlinks] using h
    · cases left <;> first | (simp [chainLinks] at hlinks; done) | simp [name?] at hname

theorem opensStatement_of_isSuffixed {n : Node} (h : n.isSuffixed = true) :
    n.opensStatement = true := by
  have hlinks : n.chainLinks = [] := by
    cases n <;> first | rfl | simp [isSuffixed, kind] at h
  simp [opensStatement, headOperator?, hlinks]

/-- An expression that may start a statement is not read as a declaration. -/
theorem Formed.varDecl_declines {n : Node} (h : Formed n) (hn : n.isChain = true)
    (hopens : n.opensStatement = true) {ts rest : List Token} (hts : Spells ts n.lexemes)
    (hrest : n.name?.any (declarationWords.map lit).contains = true → NoName rest) :
    Declines (.rule .varDecl) (ts ++ rest) := by
  induction h generalizing ts rest with
  | @identifier pos name hname hvalue =>
    obtain ⟨t, rfl, ht⟩ := hts.single
    -- The name may be a word for declarations, which then has no name behind it.
    by_cases hword : name ∈ declarationWords.map lit
    · obtain ⟨next, more, rfl, hnext⟩ := hrest (by simpa [name?] using hword)
      have htake : Reads (.oneOf declarationWords) (t :: next :: more)
          (.takes [.leaf t] (next :: more)) :=
        reads_oneOf_takes.2 ⟨t, rfl, by rw [cls_of_bare ht]; simp, by rwa [text_of_bare ht], rfl⟩
      have hlack : Reads (.rule .ident) (next :: more) .lacks :=
        Reads.rule (a := .lacks) (reads_token_lacks hnext)
      refine .inr ⟨next :: more, Reads.rule (a := .breaks (next :: more)) ?_, isFar_eq_false ?_⟩
      · exact Reads.seq_breaks_later htake (.inr ⟨hlack.seq_lacks, rfl⟩)
      · simp only [List.cons_append, List.nil_append, List.length_cons, Reader.lookahead]
        omega
    · exact varDecl_declines_other ht hword _
  | @keywordLiteral pos value hvalue =>
    obtain ⟨t, rfl, ht⟩ := hts.single
    have hall : ∀ v ∈ keywordValues.map lit, v ∉ declarationWords.map lit := by decide
    exact varDecl_declines_other ht (hall value hvalue) _
  | @stringLiteral pos value raw hraw hvalue =>
    obtain ⟨t, rfl, ht⟩ := hts.single
    exact varDecl_declines_other ht (hraw.not_mem (by decide)) _
  | @numberLiteral pos raw hraw =>
    obtain ⟨t, rfl, ht⟩ := hts.single
    exact varDecl_declines_other ht (hraw.not_mem (by decide)) _
  | templateLiteral =>
    obtain ⟨t, us, rfl, ht, -⟩ := Spells.cons hts
    exact varDecl_declines_other ht (by decide) _
  | array =>
    obtain ⟨t, us, rfl, ht, -⟩ := Spells.cons hts
    exact varDecl_declines_other ht (by decide) _
  | object =>
    obtain ⟨t, us, rfl, ht, -⟩ := Spells.cons hts
    exact varDecl_declines_other ht (by decide) _
  | paren =>
    obtain ⟨t, us, rfl, ht, -⟩ := Spells.cons hts
    exact varDecl_declines_other ht (by decide) _
  | shorthand => simp [isChain, isOperand, isSuffixed, kind] at hn
  | property => simp [isChain, isOperand, isSuffixed, kind] at hn
  | computed => simp [isChain, isOperand, isSuffixed, kind] at hn
  | spread => simp [isChain, isOperand, isSuffixed, kind] at hn
  | function => simp [isChain, isOperand, isSuffixed, kind] at hn
  | @member obj ppos name optional hobj hsuffixed hname ih =>
    rw [lexemes, List.append_assoc, List.append_assoc] at hts
    obtain ⟨us, vs, rfl, hus, hvs⟩ := hts.append
    rw [List.append_assoc]
    refine ih (isChain_of_isSuffixed hsuffixed) (opensStatement_of_isSuffixed hsuffixed) hus
      fun _ => ?_
    cases optional <;> exact noName_suffix (by decide) hvs rest
  | @index obj prop optional hobj hsuffixed hprop hentire hword ih _ =>
    rw [lexemes, List.append_assoc, List.append_assoc] at hts
    obtain ⟨us, vs, rfl, hus, hvs⟩ := hts.append
    rw [List.append_assoc]
    refine ih (isChain_of_isSuffixed hsuffixed) (opensStatement_of_isSuffixed hsuffixed) hus
      fun _ => ?_
    cases optional <;> exact noName_suffix (by decide) hvs rest
  | @call callee args optional hcallee hsuffixed hargs hkind ih _ =>
    rw [lexemes, List.append_assoc, List.append_assoc] at hts
    obtain ⟨us, vs, rfl, hus, hvs⟩ := hts.append
    rw [List.append_assoc]
    refine ih (isChain_of_isSuffixed hsuffixed) (opensStatement_of_isSuffixed hsuffixed) hus
      fun _ => ?_
    cases optional <;> exact noName_suffix (by decide) hvs rest
  | @binary left right op hop hleft hright hlchain hrchain hladmits hrbinds hclash ihl ihr =>
    obtain ⟨hleftOpens, hin⟩ := opensStatement_left hopens
    rw [lexemes] at hts
    obtain ⟨us, vs, rfl, hus, hvs⟩ := hts.append
    obtain ⟨t, vs, rfl, ht, hvs⟩ := hvs.cons
    rw [List.append_assoc]
    refine ihl hlchain hleftOpens hus fun hname => ⟨t, _, rfl, ?_⟩
    have hall : ∀ op ∈ binaryOperators.map lit, op ∉ [lit "in", lit "instanceof"] →
        (sign op).cls ≠ .ident := by decide
    rw [cls_of_bare ht]
    exact hall op hop (hin hname)
  | @unary pos op x hop hx hoperand ih =>
    rw [lexemes] at hts
    obtain ⟨t, us, rfl, ht, hus⟩ := hts.cons
    have hall : ∀ op ∈ unaryOperators.map lit, op ∉ declarationWords.map lit := by decide
    exact varDecl_declines_other ht (hall op hop) _

end CubeSchema
