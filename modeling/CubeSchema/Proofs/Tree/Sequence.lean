import CubeSchema.Proofs.Token.Joining
import CubeSchema.Proofs.Tree.Lines
import CubeSchema.Proofs.Tree.Unplacing

/-!
# Sources one after the other

Two sources that are read can be put together with a semicolon on a line of its own between them,
and the statements of the whole are those of the one and then those of the other. The tokens of the
first source stay the same because a written tree leaves nothing open and has no slash in front of a
star. Its statements stay the same because the grammar does not look behind them: a semicolon ends
them as the end of the input did. The second source is read as it was, at other places.

The limit on repetitions is what can go wrong. The lines of the one and of the other are counted
together, and so are the semicolons around the joint; nothing else is repeated any longer than it
was.
-/

namespace CubeSchema

open Lexeme Lexer Grammar Node ParseTree

/-! ## Slashes in written trees -/

/-- Tokens with no slash at the end and none in front of a star. -/
structure Spaced (ts : List Token) : Prop where
  /-- No slash is followed by a token that starts with a star. -/
  divided : Divided (ts.map Token.bare)
  /-- The last token is no slash. -/
  last : ∀ t ∈ ts.getLast?, t.bare ≠ mark "/"

namespace Spaced

variable {t : Token} {us vs : List Token}

theorem nil : Spaced [] := ⟨.nil, by simp⟩

theorem single (h : t.bare ≠ mark "/") : Spaced [t] := ⟨.singleton _, by simpa using h⟩

theorem append (h : Spaced us) (h' : Spaced vs) : Spaced (us ++ vs) := by
  constructor
  · rw [List.map_append]
    refine List.IsChain.append h.divided h'.divided fun x hx y _ hslash => ?_
    rw [List.getLast?_map] at hx
    obtain ⟨t, ht, rfl⟩ := Option.map_eq_some_iff.1 hx
    exact absurd hslash (h.last t ht)
  · intro t ht
    rw [List.getLast?_append] at ht
    cases hlast : vs.getLast? with
    | none =>
      rw [hlast] at ht
      exact h.last t ht
    | some u =>
      rw [hlast] at ht
      exact h'.last t (hlast.trans ht)

theorem cons (ht : t.bare ≠ mark "/") (h : Spaced us) : Spaced (t :: us) := (single ht).append h

/-- A slash may stand in front of what does not start with a star. -/
theorem operator (h : Spaced (t :: us)) (hstar : t.text.head? ≠ some 42) (op : Token) :
    Spaced (op :: t :: us) :=
  ⟨List.isChain_cons_cons.2 ⟨fun _ => hstar, h.divided⟩, h.last⟩

end Spaced

theorem ne_slash_of_cls {t : Token} (h : t.cls ≠ .punct) : t.bare ≠ mark "/" :=
  fun heq => h (cls_of_bare heq)

theorem spaced_flagged {b : BareToken} {flag : Bool} {ts : List Token} (h : Flagged b flag ts)
    (hb : b ≠ mark "/") : Spaced ts := by
  cases flag with
  | false =>
    obtain rfl := List.map_eq_nil_iff.1 h
    exact .nil
  | true =>
    obtain ⟨t, rfl, ht⟩ := List.map_eq_singleton_iff.1 h
    exact .single (ht ▸ hb)

/-- Nothing starts with a star. -/
theorem head_ne_star {t : Token} (h : Opens t) (hsound : t.bare.IsSound) :
    t.text.head? ≠ some 42 := by
  rcases h with hcls | hbare | hop
  · -- Names, numbers and strings each begin with bytes of their own.
    have hstart : ∀ b : UInt8, isNameStart b = true ∨ (Text.isDigit b = true ∨ b = 46) ∨
        (b = 34 ∨ b = 39) → b ≠ 42 := by
      rintro b hb rfl
      revert hb
      decide
    have hhead : ∃ b u, t.text = b :: u ∧ (isNameStart b = true ∨
        (Text.isDigit b = true ∨ b = 46) ∨ (b = 34 ∨ b = 39)) := by
      simp only [List.mem_cons, List.not_mem_nil, or_false] at hcls
      rcases hcls with hcls | hcls | hcls
      all_goals rw [BareToken.IsSound, show t.bare.cls = _ from hcls] at hsound
      · obtain ⟨b, u, htext, hb⟩ := IsName.head hsound
        exact ⟨b, u, htext, .inl hb⟩
      · obtain ⟨b, u, htext, hb⟩ := IsNumber.head hsound
        exact ⟨b, u, htext, .inr (.inl hb)⟩
      · obtain ⟨b, u, htext, hb⟩ := IsString.head hsound
        exact ⟨b, u, htext, .inr (.inr hb)⟩
    obtain ⟨b, u, htext, hb⟩ := hhead
    rw [htext, List.head?_cons]
    exact fun heq => hstart b hb (Option.some.inj heq)
  · have hall : ∀ b ∈ [(⟨.backtick, [96]⟩ : BareToken), ⟨.lbrace, [123]⟩, mark "[", mark "(",
      mark "..."], b.text.head? ≠ some 42 := by decide
    exact hall t.bare hbare
  · have hall : ∀ op ∈ unaryOperators.map lit, op.head? ≠ some 42 := by decide
    exact hall t.text hop

/-- In a written tree, slashes stand between operands only. -/
theorem Written.spaced {ph : Phrase} {ts : List Token} (h : Written ph ts)
    (hsound : ∀ t ∈ ts, t.bare.IsSound) : Spaced ts := by
  have hname : ∀ {t : Token}, t.cls = .ident → t.bare ≠ mark "/" := fun ht =>
    ne_slash_of_cls (by rw [ht]; decide)
  have hpoint : ∀ optional : Bool, mark (if optional then "?." else ".") ≠ mark "/" := by decide
  induction h with
  | name hcls | keyword hcls _ | shorthand hcls | param hcls => exact .single (hname hcls)
  | number hcls | string hcls => exact .single (ne_slash_of_cls (by rw [hcls]; decide))
  | template hfirst _ hlast ih | array hfirst _ hlast ih | object hfirst _ hlast ih
  | params hfirst _ hlast ih | paren hfirst _ hlast ih =>
    simp only [List.forall_mem_append, List.forall_mem_cons] at hsound
    have hinner := ih hsound.1.2
    exact (hinner.cons (by rw [hfirst]; decide)).append (.single (by rw [hlast]; decide))
  | property _ hcolon _ ihk ihv =>
    simp only [List.forall_mem_cons] at hsound
    have hkey := ihk (by simpa using hsound.1)
    exact hkey.append ((ihv hsound.2.2).cons (by rw [hcolon]; decide))
  | computed hfirst _ hlast hcolon _ ihk ihv =>
    simp only [List.forall_mem_append, List.forall_mem_cons] at hsound
    have hkey := (ihk hsound.1.2).cons (by rw [hfirst]; decide)
    have hvalue := (ihv hsound.2.2.2).cons (by rw [hcolon]; decide)
    exact hkey.append (hvalue.cons (by rw [hlast]; decide))
  | spread hdots _ ih => exact (ih (List.forall_mem_cons.1 hsound).2).cons (by rw [hdots]; decide)
  | @member point t us obj optional _ hbare hcls ih =>
    exact (ih (List.forall_mem_append.1 hsound).1).append
      ((Spaced.single (hname hcls)).cons (by rw [hbare]; exact hpoint optional))
  | index _ hmark hfirst _ hlast iho ihp | call _ hmark hfirst _ hlast iho ihp =>
    simp only [List.forall_mem_append, List.forall_mem_cons] at hsound
    have hfront := (iho hsound.1.1.1).append (spaced_flagged hmark (by decide))
    have hinner := (ihp hsound.1.2.2).cons (by rw [hfirst]; decide)
    exact (hfront.append hinner).append (.single (by rw [hlast]; decide))
  | function hasync _ harrow _ ihp ihb =>
    simp only [List.forall_mem_append, List.forall_mem_cons] at hsound
    have hfront := (spaced_flagged hasync (by decide)).append (ihp hsound.1.2)
    exact hfront.append ((ihb hsound.2.2).cons (by rw [harrow]; decide))
  | @binary op us vs left right _ _ _ hright ihl ihr =>
    simp only [List.forall_mem_append, List.forall_mem_cons] at hsound
    have hoperand := ihr hsound.2.2
    -- The one place of a slash: what is behind it starts an operand.
    obtain ⟨t, ws, rfl, -, hopens⟩ := hright.exists_first
    have hstar := head_ne_star hopens (hsound.2.2 t (List.mem_cons_self ..))
    exact (ihl hsound.1).append (hoperand.operator hstar op)
  | @unary t us x hop _ _ ih =>
    have hunary : ∀ op ∈ unaryOperators.map lit, op ≠ lit "/" := by decide
    have hne : t.bare ≠ mark "/" := fun heq => hunary t.text hop (text_of_bare heq)
    exact (ih (List.forall_mem_cons.1 hsound).2).cons hne
  | item _ ih | list _ ih | exprStmt _ ih => exact ih hsound
  | items _ hcomma _ ihn ihs =>
    simp only [List.forall_mem_append, List.forall_mem_cons] at hsound
    exact (ihn hsound.1).append ((ihs hsound.2.2).cons (by rw [hcomma]; decide))
  | noList | lastChunk | noBody => exact .nil
  | listComma _ hcomma ih =>
    exact (ih (List.forall_mem_append.1 hsound).1).append (.single (by rw [hcomma]; decide))
  | chars hcls _ _ ih =>
    refine (ih (List.forall_mem_cons.1 hsound).2).cons (ne_slash_of_cls ?_)
    rcases hcls with hcls | hcls <;> rw [hcls] <;> decide
  | hole hfirst _ hlast _ ihx ihm =>
    simp only [List.forall_mem_append, List.forall_mem_cons] at hsound
    have hinner := (ihx hsound.1.2).cons (by rw [hfirst]; decide)
    exact hinner.append ((ihm hsound.2.2).cons (by rw [hlast]; decide))
  | bareDecl hword _ hcls => exact (Spaced.single (hname hcls)).cons (hname hword)
  | varDecl hword _ hcls hequals _ ih =>
    simp only [List.forall_mem_cons] at hsound
    have hvalue := (ih hsound.2.2.2).cons (by rw [hequals]; decide)
    exact (hvalue.cons (hname hcls)).cons (hname hword)
  | semicolon ht _ ih => exact (ih (List.forall_mem_cons.1 hsound).2).cons (by rw [ht]; decide)
  | statement _ _ ihn ihm =>
    obtain ⟨hfirst, hmore⟩ := List.forall_mem_append.1 hsound
    exact (ihn hfirst).append (ihm hmore)

/-! ## Statements in front of another tail -/

section

variable {limit : Option Nat} {ts ts' rest tail tail' : List Token}

/-- What a rule gives in front of one end, it gives in front of another. -/
theorem Gives.alike {r : Rule} (hr : r ≠ .program) {n : Node} (h : Gives r ts rest n limit)
    (htail : Halts tail) (htail' : Halts tail') (hfront : SameFront tail tail' ts ts') :
    ∃ n' rest', Gives r ts' rest' n' limit ∧ SameFront tail tail' rest rest' ∧
      n'.unplaced = n.unplaced := by
  obtain ⟨kids, hread, hbuild⟩ := h
  obtain ⟨kids', rest', hread', hrest, hkids⟩ :=
    hread.alike htail htail' (Rule.isBodily_pattern hr) hfront
  obtain ⟨n', hn', hmap⟩ := build_eq_ok_of_bare
    (u := .branch r (startOf ts') kids') (by rw [bare, bare, hkids]) hbuild
  exact ⟨n', rest', ⟨kids', hread', hn'⟩, hrest, hmap⟩

/-- Statements in front of the end are statements in front of another tail. -/
theorem Statements.alike {ns : List Node} (h : Statements limit ts ns rest) {last : Token}
    {more : List Token} (htail : tail = last :: more) (hlast : last.cls = .eof)
    (htail' : Halts tail') (hfront : SameFront tail tail' ts ts') :
    ∃ ns' rest', Statements limit ts' ns' rest' ∧ SameFront tail tail' rest rest' ∧
      ns'.map unplaced = ns.map unplaced := by
  induction h generalizing ts' with
  | nil => exact ⟨[], ts', .nil, hfront, rfl⟩
  | @semicolon t ts rest ns ht _ ih =>
    cases hfront with
    | tail =>
      obtain ⟨rfl, -⟩ := List.cons.inj htail
      simp [hasText, hlast] at ht
    | @cons _ t' _ ts' heq hfront =>
      obtain ⟨ns', rest', hns, hrest, hmap⟩ := ih hfront
      obtain ⟨hcls, htext⟩ := BareToken.mk.inj heq
      exact ⟨ns', rest', .semicolon (by rwa [hasText, ← hcls, ← htext]) hns, hrest, hmap⟩
  | @cons ts mid rest n ns first _ ih =>
    obtain ⟨n', mid', hn', hmid, hmap⟩ :=
      first.alike (by simp) ⟨last, more, htail, .inl hlast⟩ htail' hfront
    obtain ⟨ns', rest', hns, hrest, hmaps⟩ := ih hmid
    exact ⟨n' :: ns', rest', .cons hn' hns, hrest, by
      rw [List.map_cons, List.map_cons, hmap, hmaps]⟩

/-- Statements up to the end are statements in front of what ends them as well. -/
theorem Statements.before {us us' : List Token} {last : Token} {ns : List Node}
    (h : Statements limit (us ++ [last]) ns [last]) (hlast : last.bare = endToken)
    (htail : Halts tail) (hus : us.map Token.bare = us'.map Token.bare) :
    ∃ ns', Statements limit (us' ++ tail) ns' tail ∧ ns'.map unplaced = ns.map unplaced := by
  obtain ⟨ns', rest, hns, hrest, hmap⟩ := h.alike rfl (cls_of_bare hlast) htail (.append hus)
  obtain rfl := hrest.eq_tail
  exact ⟨ns', hns, hmap⟩

end

/-! ## Semicolons around a joint -/

/-- How many semicolons some tokens start with. -/
def openingSemicolons (ts : List Token) : Nat :=
  (ts.takeWhile fun t => t.bare = mark ";").length

/-- How many semicolons some tokens end with. -/
def closingSemicolons (ts : List Token) : Nat := openingSemicolons ts.reverse

/-- Whether a token is a semicolon does not depend on its place. -/
theorem openingSemicolons_eq {us us' : List Token}
    (h : us.map Token.bare = us'.map Token.bare) :
    openingSemicolons us = openingSemicolons us' := by
  have hlength : ∀ ts : List Token, openingSemicolons ts =
      ((ts.map Token.bare).takeWhile fun b => b = mark ";").length := fun ts => by
    rw [List.takeWhile_map, List.length_map]
    rfl
  rw [hlength, hlength, h]

theorem closingSemicolons_eq {us us' : List Token}
    (h : us.map Token.bare = us'.map Token.bare) :
    closingSemicolons us = closingSemicolons us' :=
  openingSemicolons_eq (by rw [List.map_reverse, List.map_reverse, h])

/-- Semicolons at the front are some of those that the tokens start with. -/
theorem length_le_openingSemicolons {us vs : List Token} (hstart : us <+: vs)
    (hus : ∀ t ∈ us, t.bare = mark ";") : us.length ≤ openingSemicolons vs := by
  obtain ⟨ws, rfl⟩ := hstart
  have htake : (us ++ ws).takeWhile (fun t => decide (t.bare = mark ";")) =
      us ++ ws.takeWhile fun t => decide (t.bare = mark ";") :=
    List.takeWhile_append_of_pos fun t ht => decide_eq_true (hus t ht)
  rw [openingSemicolons, htake, List.length_append]
  exact Nat.le_add_right ..

/-- Behind another token the semicolons in front of it are counted no further. -/
theorem openingSemicolons_concat (vs : List Token) {last : Token} (hlast : last.bare ≠ mark ";") :
    openingSemicolons (vs ++ [last]) = openingSemicolons vs := by
  induction vs with
  | nil => simp [openingSemicolons, hlast]
  | cons v vs ih =>
    by_cases hv : v.bare = mark ";"
    · simpa [openingSemicolons, hv] using ih
    · simp [openingSemicolons, hv]

theorem length_le_closingSemicolons {us vs : List Token} (hsuffix : us <:+ vs)
    (hus : ∀ t ∈ us, t.bare = mark ";") : us.length ≤ closingSemicolons vs := by
  rw [← List.length_reverse]
  exact length_le_openingSemicolons (List.reverse_prefix.2 hsuffix) (by simpa using hus)

/-- The semicolons that some tokens start with. -/
theorem exists_openingSemicolons (vs : List Token) : ∃ us, us <+: vs ∧
    (∀ t ∈ us, t.bare = mark ";") ∧ us.length = openingSemicolons vs := by
  refine ⟨_, List.takeWhile_prefix _, fun t ht => ?_, rfl⟩
  have hmark := List.mem_takeWhile_imp ht
  exact of_decide_eq_true hmark

theorem exists_closingSemicolons (vs : List Token) : ∃ us, us <:+ vs ∧
    (∀ t ∈ us, t.bare = mark ";") ∧ us.length = closingSemicolons vs := by
  obtain ⟨us, hstart, hus, hlength⟩ := exists_openingSemicolons vs.reverse
  refine ⟨us.reverse, ?_, by simpa using hus, by rw [List.length_reverse, hlength]; rfl⟩
  rw [← List.reverse_prefix, List.reverse_reverse]
  exact hstart

/-- Around a semicolon the runs are short exactly if they are in both parts, and if the semicolons
on both sides of it and itself are fewer than the limit. -/
theorem shortRuns_around {limit : Option Nat} {us vs : List Token} {semi : Token}
    (hsemi : semi.bare = mark ";") :
    ShortRuns limit (us ++ semi :: vs) ↔ ShortRuns limit us ∧ ShortRuns limit vs ∧
      Allows limit (closingSemicolons us + 1 + openingSemicolons vs) := by
  constructor
  · intro h
    refine ⟨fun ws hws => h ws (hws.trans (List.prefix_append ..).isInfix), fun ws hws =>
      h ws (hws.trans ((List.suffix_cons semi vs).trans (List.suffix_append ..)).isInfix), ?_⟩
    obtain ⟨front, ⟨a, rfl⟩, hfront, hlength⟩ := exists_closingSemicolons us
    obtain ⟨back, ⟨b, rfl⟩, hback, hlength'⟩ := exists_openingSemicolons vs
    have hrun := h (front ++ semi :: back) ⟨a, b, by simp⟩ (by
      rintro t ht
      rcases List.mem_append.1 ht with ht | ht
      · exact hfront t ht
      · rcases List.mem_cons.1 ht with rfl | ht
        · exact hsemi
        · exact hback t ht)
    exact hrun.of_le (by simp only [List.length_append, List.length_cons]; omega)
  · rintro ⟨hus, hvs, hjoint⟩ ws hws hall
    rcases ShortRuns.infix_or_split hws with h | h | ⟨front, back, rfl, hfront, hback⟩
    · exact hus ws h hall
    · exact hvs ws h hall
    · obtain ⟨hall, hmore⟩ := List.forall_mem_append.1 hall
      have hle := length_le_closingSemicolons hfront hall
      have hle' := length_le_openingSemicolons hback (List.forall_mem_cons.1 hmore).2
      exact hjoint.of_le (by simp only [List.length_append, List.length_cons]; omega)

/-! ## One source behind the other -/

/-- A source is cut into its tokens without the one for its end. -/
theorem lexes_of_tokens {file src : Text} {ts : List Token} {last : Token}
    (h : tokens file src = .ok (ts ++ [last])) : Lexes [] src (ts.map Token.bare) := by
  obtain ⟨bs, hbs, heq⟩ := exists_lexes_of_tokens h
  rw [List.map_append] at heq
  obtain ⟨rfl, -⟩ := List.append_inj' heq rfl
  exact hbs

/-- A semicolon is a token, whatever follows. -/
theorem lexes_semicolon {t : Text} {bs : List BareToken} (h : Lexes [] t bs) :
    Lexes [] (lit ";" ++ t) (mark ";" :: bs) :=
  Lexes.cons { cls := .punct, reach := firstOf marks } rfl rfl rfl h

/-- A semicolon on a line of its own is one more token. -/
theorem lexes_semicolonLine {t : Text} {bs : List BareToken} (h : Lexes [] t bs) :
    Lexes [] (10 :: 59 :: 10 :: t) (mark ";" :: bs) := by
  have hline : Lexes [] (10 :: t) bs := .blank inCode_nil (by decide) h
  exact .blank inCode_nil (by decide) (lexes_semicolon hline)

/-- A source that is read may be followed by a line feed and any other text. -/
theorem lexes_in_sequence {file src w : Text} {ts : List Token} {last : Token} {body : List Node}
    (hts : tokens file src = .ok (ts ++ [last])) (hbody : Written (.body body) ts)
    {cs : List BareToken} (hw : Lexes [] (10 :: w) cs) :
    Lexes [] (src ++ 10 :: w) (ts.map Token.bare ++ cs) := by
  have hlinked : Linked ((ts ++ [last]).map Token.bare) := linked_of_tokens hts
  have hsound : ∀ t ∈ ts, t.bare.IsSound := fun t ht =>
    hlinked.isSound t.bare (List.mem_map_of_mem (List.mem_append_left _ ht))
  have hspaced : Spaced ts := hbody.spaced hsound
  exact (lexes_of_tokens hts).append (hbody.modesAfter_eq []) hspaced.divided hw

/-- The tokens of the whole are those of the one, the semicolon and those of the other. -/
theorem tokens_in_sequence {f g a b : Text} {us vs : List Token} {lastU lastV : Token}
    {ms : List Node} (hus : tokens f a = .ok (us ++ [lastU])) (hwritten : Written (.body ms) us)
    (hvs : tokens g b = .ok (vs ++ [lastV])) (file : Text) :
    ∃ us' semi vs' last,
      tokens file (a ++ lit "\n;\n" ++ b) = .ok (us' ++ semi :: (vs' ++ [last])) ∧
        us'.map Token.bare = us.map Token.bare ∧ semi.bare = mark ";" ∧
        vs'.map Token.bare = vs.map Token.bare ∧ last.bare = endToken := by
  have hlexes : Lexes [] (a ++ 10 :: 59 :: 10 :: b)
      (us.map Token.bare ++ mark ";" :: vs.map Token.bare) :=
    lexes_in_sequence hus hwritten (lexes_semicolonLine (lexes_of_tokens hvs))
  obtain ⟨all, hall, hbares⟩ := hlexes.tokens_eq file
  rw [List.append_assoc] at hbares
  obtain ⟨us', rest, rfl, hus', hrest⟩ := List.map_eq_append_iff.1 hbares
  obtain ⟨semi, rest, rfl, hsemi, hrest⟩ := List.map_eq_cons_iff.1 hrest
  obtain ⟨vs', lasts, rfl, hvs', hlasts⟩ := List.map_eq_append_iff.1 hrest
  obtain ⟨last, rfl, hlast⟩ := List.map_eq_singleton_iff.1 hlasts
  have hsource : a ++ lit "\n;\n" ++ b = a ++ 10 :: 59 :: 10 :: b := by
    rw [List.append_assoc]
    rfl
  exact ⟨us', semi, vs', last, by rw [hsource, hall], hus', hsemi, hvs', hlast⟩

/-- The statements of the first end at the semicolon as they did at the end of the input. -/
theorem statements_in_sequence {limit : Option Nat} {us us' vs vs' : List Token}
    {lastU lastV last semi : Token} {ms ns : List Node}
    (hms : Statements limit (us ++ [lastU]) ms [lastU]) (hlastU : lastU.bare = endToken)
    (hns : Statements limit (vs ++ [lastV]) ns [lastV]) (hlastV : lastV.bare = endToken)
    (hus : us'.map Token.bare = us.map Token.bare) (hsemi : semi.bare = mark ";")
    (hvs : vs'.map Token.bare = vs.map Token.bare) (hlast : last.bare = endToken) :
    ∃ body, Statements limit (us' ++ semi :: (vs' ++ [last])) body [last] ∧
      body.map unplaced = ms.map unplaced ++ ns.map unplaced := by
  have hhalts : Halts (semi :: (vs' ++ [last])) :=
    ⟨semi, _, rfl, .inr ⟨cls_of_bare hsemi, text_of_bare hsemi⟩⟩
  obtain ⟨ms', hms', hmaps⟩ := hms.before hlastU hhalts hus.symm
  have hends : Halts [last] := ⟨last, [], rfl, .inl (cls_of_bare hlast)⟩
  obtain ⟨ns', hns', hmaps'⟩ := hns.before hlastV hends hvs.symm
  exact ⟨ms' ++ ns', hms'.append (.semicolon (hasText_mark hsemi) hns'), by
    rw [List.map_append, hmaps, hmaps']⟩

/-- Behind one another, runs of semicolons are as short as they were, but for the one around the
joint. -/
theorem shortRuns_in_sequence {limit : Option Nat} {us us' vs vs' : List Token}
    {lastU lastV last semi : Token} (hruns : ShortRuns limit (us ++ [lastU]))
    (hruns' : ShortRuns limit (vs ++ [lastV])) (hlastV : lastV.bare = endToken)
    (hus : us'.map Token.bare = us.map Token.bare) (hsemi : semi.bare = mark ";")
    (hvs : vs'.map Token.bare = vs.map Token.bare) (hlast : last.bare = endToken) :
    ShortRuns limit (us' ++ semi :: (vs' ++ [last])) ↔
      Allows limit (closingSemicolons us + 1 + openingSemicolons vs) := by
  have hfront : ShortRuns limit us' :=
    (hruns.of_prefix (List.prefix_append us [lastU])).congr hus.symm
  have hback : ShortRuns limit (vs' ++ [last]) := by
    refine hruns'.congr ?_
    rw [List.map_append, List.map_append, hvs, List.map_singleton, List.map_singleton, hlastV,
      hlast]
  rw [shortRuns_around hsemi, and_iff_right hfront, and_iff_right hback,
    openingSemicolons_concat vs' (by rw [hlast]; decide), closingSemicolons_eq hus,
    openingSemicolons_eq hvs]

/-- The tokens of a source in front of its end. -/
def codeTokens (file src : Text) : List Token :=
  match tokens file src with
  | .ok ts => ts.dropLast
  | .error _ => []

theorem codeTokens_eq {file src : Text} {ts : List Token} {last : Token}
    (h : tokens file src = .ok (ts ++ [last])) : codeTokens file src = ts := by
  rw [codeTokens, h]
  exact List.dropLast_concat

/-- Two sources that are read are read one behind the other as well, with a semicolon on a line of
its own between them, exactly if the statements of both together are fewer than the limit, and so
are the semicolons around the joint. The statements are those of the first and then those of the
second. -/
theorem parse_in_sequence {f g a b : Text} {m n : Node} (ha : parse f a (some maxRounds) = .ok m)
    (hb : parse g b (some maxRounds) = .ok n) (file : Text) :
    ∃ p ms q ns pos body, m = .program p ms ∧ n = .program q ns ∧
      body.map unplaced = ms.map unplaced ++ ns.map unplaced ∧
      ∀ t, parse file (a ++ lit "\n;\n" ++ b) (some maxRounds) = .ok t ↔
        t = .program pos body ∧ ms.length + ns.length < maxRounds ∧
          closingSemicolons (codeTokens f a) + 1 + openingSemicolons (codeTokens g b) <
            maxRounds := by
  have hlimit := isAhead_maxRounds
  obtain ⟨us, lastU, ms, hus, hlastU, rfl, hms, -, hruns⟩ := statements_of_limited hlimit ha
  obtain ⟨vs, lastV, ns, hvs, hlastV, rfl, hns, -, hruns'⟩ := statements_of_limited hlimit hb
  have hwritten : Written (.body ms) us := by
    obtain ⟨us', last, heq, -, -, hwritten⟩ :=
      written_of_statements hus (hms.unlimited hlimit) (cls_of_bare hlastU)
    obtain ⟨rfl, -⟩ := List.append_inj' heq rfl
    exact hwritten
  obtain ⟨us', semi, vs', last, hall, hus', hsemi, hvs', hlast⟩ :=
    tokens_in_sequence hus hwritten hvs file
  obtain ⟨body, hbody, hmap⟩ :=
    statements_in_sequence hms hlastU hns hlastV hus' hsemi hvs' hlast
  have hjoint := shortRuns_in_sequence hruns hruns' hlastV hus' hsemi hvs' hlast
  have hlength : body.length = ms.length + ns.length := by
    simpa using congrArg List.length hmap
  refine ⟨_, ms, _, ns, startOf (us' ++ semi :: (vs' ++ [last])), body, rfl, rfl, hmap,
    fun t => ?_⟩
  rw [codeTokens_eq hus, codeTokens_eq hvs, ← allows_some, ← allows_some, ← hjoint, ← hlength]
  constructor
  · intro ht
    obtain ⟨ts, last', body', hts, -, rfl, hbody', hn, hshort⟩ := statements_of_limited hlimit ht
    have heq := Except.ok.inj (hall.symm.trans hts)
    obtain rfl : last = last' := by
      have hlasts := congrArg List.getLast? heq
      simpa [List.getLast?_append, List.getLast?_cons] using hlasts
    rw [← heq] at hbody' hshort ⊢
    -- The tokens determine the statements.
    obtain rfl := hbody.unique hlimit hlast (linked_of_tokens hall) hbody'
    exact ⟨rfl, hn, hshort⟩
  · rintro ⟨rfl, hn, hshort⟩
    exact limited_of_statements hlimit hall hlast hbody hn hshort

/-- A declaration whose line ends in a comment. -/
def remarkedLine : Text := lit "let a = b / c // *"

/-- A template with a hole, on its own. -/
def loneTemplate : Text := lit "`x$\x7b\x7by: z\x7d.y\x7d`"

theorem exists_of_isOk {α ε : Type} {x : Except ε α} (h : x.isOk = true) : ∃ a, x = .ok a := by
  cases x with
  | ok a => exact ⟨a, rfl⟩
  | error e => cases h

/-- The comment ends at the line, and the template is read as it is alone. -/
theorem remarkedLine_in_sequence : ∃ p ms q ns pos body,
    parse [] remarkedLine (some maxRounds) = .ok (.program p ms) ∧
      parse [] loneTemplate (some maxRounds) = .ok (.program q ns) ∧
      parse [] (remarkedLine ++ lit "\n;\n" ++ loneTemplate) (some maxRounds) =
        .ok (.program pos body) ∧
      body.map unplaced = ms.map unplaced ++ ns.map unplaced := by
  obtain ⟨m, ha⟩ := exists_of_isOk
    (show (parse [] remarkedLine (some maxRounds)).isOk = true by decide +kernel)
  obtain ⟨n, hb⟩ := exists_of_isOk
    (show (parse [] loneTemplate (some maxRounds)).isOk = true by decide +kernel)
  obtain ⟨t, ht⟩ := exists_of_isOk
    (show (parse [] (remarkedLine ++ lit "\n;\n" ++ loneTemplate) (some maxRounds)).isOk = true by
      decide +kernel)
  obtain ⟨p, ms, q, ns, pos, body, rfl, rfl, hmap, hiff⟩ := parse_in_sequence ha hb []
  obtain ⟨rfl, -, -⟩ := (hiff t).1 ht
  exact ⟨p, ms, q, ns, pos, body, ha, hb, ht, hmap⟩

/-! ## Nothing but semicolons -/

/-- Semicolons in front of a text are as many tokens. -/
theorem lexes_semicolons (k : Nat) {t : Text} {bs : List BareToken} (h : Lexes [] t bs) :
    Lexes [] (List.replicate k 59 ++ t) (List.replicate k (mark ";") ++ bs) := by
  induction k with
  | zero => exact h
  | succ k ih => exact lexes_semicolon ih

theorem statements_of_semicolons {limit : Option Nat} {ts rest : List Token}
    (h : ∀ t ∈ ts, t.bare = mark ";") : Statements limit (ts ++ rest) [] rest := by
  induction ts with
  | nil => exact .nil
  | cons t ts ih =>
    obtain ⟨ht, hts⟩ := List.forall_mem_cons.1 h
    exact .semicolon (hasText_mark ht) (ih hts)

/-- A source that is nothing but semicolons is read exactly if the limit allows as many. -/
theorem parse_semicolons_iff {limit : Option Nat} (hlimit : IsAhead limit) {file src : Text}
    {k : Nat} (h : Lexes [] src (List.replicate k (mark ";"))) :
    (∃ t, parse file src limit = .ok t) ↔ Allows limit k := by
  obtain ⟨all, hall, hbares⟩ := h.tokens_eq file
  obtain ⟨us, lasts, rfl, hus, hlasts⟩ := List.map_eq_append_iff.1 hbares
  obtain ⟨last, rfl, hlast⟩ := List.map_eq_singleton_iff.1 hlasts
  have hlength : us.length = k := by simpa using congrArg List.length hus
  have hmarks : ∀ t ∈ us, t.bare = mark ";" := fun t ht =>
    (List.mem_replicate.1 (hus ▸ List.mem_map_of_mem ht)).2
  constructor
  · rintro ⟨t, ht⟩
    obtain ⟨ts, last', body, hts, -, -, -, -, hruns⟩ := statements_of_limited hlimit ht
    rw [← Except.ok.inj (hall.symm.trans hts)] at hruns
    rw [← hlength]
    exact hruns us (List.prefix_append us [last]).isInfix hmarks
  · intro hk
    have hnil : ShortRuns limit [] := fun ws hws _ => by
      obtain rfl := List.infix_nil.1 hws
      exact hlimit.allows_zero
    have hruns : ShortRuns limit (us ++ [last]) :=
      .behind (by rw [hlength]; exact hk) hnil (by rw [hlast]; decide)
    exact ⟨_, limited_of_statements hlimit hall hlast (statements_of_semicolons hmarks)
      hlimit.allows_zero hruns⟩

/-- Half as many semicolons as the limit. -/
def semicolonHalf : Text := List.replicate 500000 59

/-- Each half is read, and one behind the other they are not. -/
theorem semicolonHalf_not_in_sequence : (∃ m, parse [] semicolonHalf (some maxRounds) = .ok m) ∧
    ∀ t, parse [] (semicolonHalf ++ lit "\n;\n" ++ semicolonHalf) (some maxRounds) ≠ .ok t := by
  have hhalf : Lexes [] semicolonHalf (List.replicate 500000 (mark ";")) := by
    have hall := lexes_semicolons 500000 (@Lexes.done [])
    rwa [List.append_nil, List.append_nil] at hall
  have hwhole : Lexes [] (semicolonHalf ++ lit "\n;\n" ++ semicolonHalf)
      (List.replicate (500000 + (1 + 500000)) (mark ";")) := by
    rw [List.replicate_add, List.replicate_add, List.append_assoc]
    exact lexes_semicolons 500000 (lexes_semicolonLine hhalf)
  constructor
  · refine (parse_semicolons_iff isAhead_maxRounds hhalf).2 (allows_some.2 ?_)
    decide
  · intro t ht
    have hlt := allows_some.1 ((parse_semicolons_iff isAhead_maxRounds hwhole).1 ⟨t, ht⟩)
    exact absurd hlt (by decide)

end CubeSchema
