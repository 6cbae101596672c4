import CubeSchema.Proofs.Grammar.Derivation
import CubeSchema.Proofs.Grammar.Limits
import CubeSchema.Proofs.Grammar.Tails
import CubeSchema.Proofs.Tree.Program
import CubeSchema.Proofs.Tree.Written

/-!
# Programs line by line

A program is some semicolons and then lines, each a statement with the semicolons behind it. Both
repetitions are subject to the limit, and so are the ones inside the statements. No statement starts
with a semicolon or holds one, so the lines are where the semicolons are, and the limit on them is a
matter of the token list alone: a source is accepted exactly when its tokens are statements and
semicolons up to the end, fewer statements than the limit, and nowhere as many semicolons in a row
(`limited_of_statements`, `statements_of_limited`).
-/

namespace CubeSchema

open Lexer Grammar Node ParseTree

variable {limit : Option Nat}

/-! ## Statements without the limit -/

theorem Gives.unlimited (hlimit : IsAhead limit) {r : Rule} {ts rest : List Token} {n : Node}
    (h : Gives r ts rest n limit) : Gives r ts rest n := by
  obtain ⟨kids, hread, hbuild⟩ := h
  exact ⟨kids, hread.unlimited hlimit r.repeatsTokens_pattern, hbuild⟩

theorem Statements.unlimited (hlimit : IsAhead limit) {ts rest : List Token} {ns : List Node}
    (h : Statements limit ts ns rest) : Statements none ts ns rest := by
  induction h with
  | nil => exact .nil
  | semicolon ht _ ih => exact .semicolon ht ih
  | cons first _ ih => exact .cons (first.unlimited hlimit) ih

/-! ## Statements and semicolons -/

theorem startsNothing_semicolon {t : Token} (hsound : t.bare.IsSound) (ht : t.text = lit ";") :
    StartsNothing t := by
  refine ⟨fun hcls => ?_, by rw [ht]; decide⟩
  have htext : t.bare.text = lit ";" := ht
  simp only [operandClasses, List.mem_cons, List.not_mem_nil, or_false] at hcls
  rcases hcls with hcls | hcls | hcls | hcls
  all_goals
    rw [BareToken.IsSound, show t.bare.cls = _ from hcls, htext] at hsound
    exact absurd hsound (by decide)

/-- No statement starts with a semicolon. -/
theorem hasText_semicolon_eq_false (hlimit : IsAhead limit) {t : Token} {ts mid : List Token}
    {n : Node} (hts : Sourced (t :: ts)) (h : Gives .statement (t :: ts) mid n limit) :
    hasText (lit ";") t = false := by
  obtain ⟨trees, hread⟩ := (h.unlimited hlimit).reads
  refine hasText_eq_false fun htext => ?_
  have hstart := startsNothing_semicolon hts.sound htext
  exact (statement_declines hstart (by rw [htext]; decide) ts).not_takes hread

/-- The statements up to the end of the input are determined by the tokens. -/
theorem Statements.unique (hlimit : IsAhead limit) {ts : List Token} {ms ns : List Node}
    {last : Token} (hlast : last.bare = endToken) (hts : Sourced ts)
    (hm : Statements limit ts ms [last]) (hn : Statements limit ts ns [last]) : ms = ns := by
  have hnone : ∀ {mid : List Token} {n : Node}, ¬ Gives .statement [last] mid n limit := by
    intro mid n h
    obtain ⟨trees, hread⟩ := (h.unlimited hlimit).reads
    exact (statement_declines_end hlast []).not_takes hread
  have heof : hasText (lit ";") last = false :=
    hasText_eq_false (by rw [text_of_bare hlast]; decide)
  generalize hrest : [last] = rest at hm
  induction hm generalizing ns with
  | nil =>
    subst hrest
    cases hn with
    | nil => rfl
    | semicolon ht _ => exact absurd (heof.symm.trans ht) Bool.false_ne_true
    | cons first _ => exact absurd first hnone
  | semicolon ht _ ih =>
    cases hn with
    | nil => exact absurd (heof.symm.trans ht) Bool.false_ne_true
    | semicolon _ more => exact ih hts.tail more hrest
    | cons first _ =>
      have hfalse := hasText_semicolon_eq_false hlimit hts first
      exact absurd (hfalse.symm.trans ht) Bool.false_ne_true
  | @cons ts mid rest m ms first _ ih =>
    cases hn with
    | nil => exact absurd first hnone
    | semicolon ht _ =>
      have hfalse := hasText_semicolon_eq_false hlimit hts first
      exact absurd (hfalse.symm.trans ht) Bool.false_ne_true
    | @cons _ mid' _ n ns first' more =>
      have hmid := first.sourced hts
      obtain ⟨kids, hread, hm⟩ := first
      obtain ⟨kids', hread', hn⟩ := first'
      obtain ⟨rfl, rfl⟩ := Answer.takes.inj (hread.unique hread')
      obtain rfl : m = n := congrArg Checked.val (hm.symm.trans hn)
      rw [ih hmid more hrest]

/-- No pattern that is used in statements takes a semicolon. -/
theorem Grammar.Derives.no_semicolon {p : Pattern} {ts rest : List Token} {trees : List ParseTree}
    (h : Derives p ts trees rest) (hp : p.isBodily = true) :
    ∃ us, ts = us ++ rest ∧ ∀ t ∈ us, t.bare ≠ mark ";" := by
  induction h with
  | @text t token rest ht =>
    refine ⟨[token], rfl, fun u hu hmark => ?_⟩
    obtain rfl := List.mem_singleton.1 hu
    have htext := (hasText_eq_true.1 ht).2
    rw [text_of_bare hmark] at htext
    simp [Pattern.isBodily, ← htext, mark] at hp
  | @token cls token rest ht =>
    refine ⟨[token], rfl, fun u hu hmark => ?_⟩
    obtain rfl := List.mem_singleton.1 hu
    rw [← ht, cls_of_bare hmark] at hp
    simp [Pattern.isBodily, mark] at hp
  | @rule r ts rest kids _ ih =>
    exact ih (Rule.isBodily_pattern (by simpa [Pattern.isBodily] using hp))
  | noParts | absent | stop => exact ⟨[], rfl, by simp⟩
  | @parts p ps ts mid rest front back _ _ ih ih' =>
    obtain ⟨hp, hps⟩ : p.isBodily = true ∧ Pattern.allBodily ps = true := by
      simpa [Pattern.isBodily, Pattern.allBodily] using hp
    obtain ⟨us, rfl, hus⟩ := ih hp
    obtain ⟨vs, rfl, hvs⟩ := ih' hps
    exact ⟨us ++ vs, by simp, List.forall_mem_append.2 ⟨hus, hvs⟩⟩
  | choice hq _ ih => exact ih (Pattern.isBodily_of_allBodily hp hq)
  | present _ ih => exact ih hp
  | round _ _ ih ih' =>
    obtain ⟨hinner, -⟩ := Bool.and_eq_true_iff.1 hp
    obtain ⟨us, rfl, hus⟩ := ih hinner
    obtain ⟨vs, rfl, hvs⟩ := ih' hp
    exact ⟨us ++ vs, by simp, List.forall_mem_append.2 ⟨hus, hvs⟩⟩

/-- The tokens of some semicolons. -/
theorem Grammar.Rounds.exists_semicolons {k : Nat} {ts rest : List Token} {trees : List ParseTree}
    (h : Rounds limit (.text (lit ";")) k ts trees rest) :
    ∃ us, ts = us ++ rest ∧ us.length = k ∧ ∀ t ∈ us, hasText (lit ";") t = true := by
  induction h with
  | nil => exact ⟨[], rfl, rfl, by simp⟩
  | cons first _ ih =>
    obtain ⟨token, rfl, ht, -⟩ := reads_text_takes.1 first
    obtain ⟨us, rfl, hlength, hus⟩ := ih
    exact ⟨token :: us, rfl, congrArg (· + 1) hlength, List.forall_mem_cons.2 ⟨ht, hus⟩⟩

/-! ## Runs of semicolons -/

/-- Semicolons in a row are fewer than the limit. -/
def ShortRuns (limit : Option Nat) (ts : List Token) : Prop :=
  ∀ us, us <:+: ts → (∀ t ∈ us, t.bare = mark ";") → Allows limit us.length

namespace ShortRuns

variable {t : Token} {us vs ts : List Token}

/-- A run within two parts and a token between them lies in one part or holds the token. -/
theorem infix_or_split (h : us <:+: ts ++ t :: vs) :
    us <:+: ts ∨ us <:+: vs ∨
      ∃ front back, us = front ++ t :: back ∧ front <:+ ts ∧ back <+: vs := by
  obtain ⟨a, b, hab⟩ := h
  rcases List.append_eq_append_iff.1 hab with ⟨c, rfl, -⟩ | ⟨c, hc, hb⟩
  · exact .inl ⟨a, c, rfl⟩
  cases c with
  | nil => exact .inl ⟨a, [], by simpa using hc⟩
  | cons x c =>
    obtain ⟨rfl, rfl⟩ := List.cons.inj hb
    rcases List.append_eq_append_iff.1 hc with ⟨d, rfl, hus⟩ | ⟨d, rfl, hd⟩
    · exact .inr (.inr ⟨d, c, hus, ⟨a, rfl⟩, ⟨b, rfl⟩⟩)
    · cases d with
      | nil => exact .inr (.inr ⟨[], c, hd.symm, List.nil_suffix, ⟨b, rfl⟩⟩)
      | cons y d =>
        obtain ⟨-, rfl⟩ := List.cons.inj hd
        exact .inr (.inl ⟨d, b, rfl⟩)

theorem of_suffix (h : ShortRuns limit ts) (hs : us <:+ ts) : ShortRuns limit us :=
  fun ws hws => h ws (hws.trans hs.isInfix)

theorem of_prefix (h : ShortRuns limit ts) (hs : us <+: ts) : ShortRuns limit us :=
  fun ws hws => h ws (hws.trans hs.isInfix)

/-- Where the tokens stand makes no difference. -/
theorem congr (h : ShortRuns limit us) (heq : us.map Token.bare = vs.map Token.bare) :
    ShortRuns limit vs := by
  rintro ws ⟨a, b, rfl⟩ hws
  rw [List.map_append, List.map_append] at heq
  obtain ⟨us', b', rfl, heq, -⟩ := List.map_eq_append_iff.1 heq
  obtain ⟨a', ws', rfl, -, hsame⟩ := List.map_eq_append_iff.1 heq
  have hlength : ws'.length = ws.length := by simpa using congrArg List.length hsame
  rw [← hlength]
  refine h ws' ⟨a', b', rfl⟩ fun t ht => ?_
  obtain ⟨u, hu, hbare⟩ := List.mem_map.1 (hsame ▸ List.mem_map_of_mem (f := Token.bare) ht)
  exact hbare ▸ hws u hu

/-- What stands in front of a run that is no semicolon does not make it longer. -/
theorem behind (hus : Allows limit us.length) (hvs : ShortRuns limit vs)
    (ht : t.bare ≠ mark ";") : ShortRuns limit (us ++ t :: vs) := by
  intro ws hws hall
  rcases infix_or_split hws with h | h | ⟨front, back, rfl, -, -⟩
  · exact hus.of_le h.length_le
  · exact hvs ws h hall
  · exact absurd (hall t (by simp)) ht

theorem cons (ht : t.bare ≠ mark ";") (hvs : ShortRuns limit vs) (hzero : Allows limit 0) :
    ShortRuns limit (t :: vs) := @behind limit t [] vs hzero hvs ht

theorem append (hus : ∀ t ∈ us, t.bare ≠ mark ";") (hvs : ShortRuns limit vs)
    (hzero : Allows limit 0) : ShortRuns limit (us ++ vs) := by
  induction us with
  | nil => exact hvs
  | cons t us ih =>
    obtain ⟨ht, hus⟩ := List.forall_mem_cons.1 hus
    exact cons ht (ih hus) hzero

theorem none : ShortRuns none ts := fun _ _ _ => by simp [Allows]

end ShortRuns

theorem Grammar.IsAhead.allows_zero (hlimit : IsAhead limit) : Allows limit 0 :=
  fun most hmost => Nat.lt_of_le_of_lt (Nat.zero_le _) (hlimit most hmost)

/-! ## Lines -/

/-- What has been read line by line starts with no semicolon and has short runs of them. -/
theorem shortRuns_of_lines {m : Nat} {ts : List Token} {trees : List ParseTree} {last : Token}
    (hlimit : IsAhead limit) (hlast : last.bare = endToken)
    (h : Rounds limit statementLine m ts trees [last]) :
    ∃ t us, ts = t :: us ∧ t.bare ≠ mark ";" ∧ ShortRuns limit us := by
  have hzero := hlimit.allows_zero
  generalize hrest : [last] = rest at h
  induction h with
  | nil =>
    subst hrest
    refine ⟨last, [], rfl, by rw [hlast]; decide, fun us hus _ => ?_⟩
    obtain rfl := List.infix_nil.1 hus
    exact hzero
  | @cons m ts mid rest front back first _ ih =>
    obtain ⟨x, vs, rfl, hx, hvs⟩ := ih hrest
    obtain ⟨kids, behind, semis, hkids, hsemis, -⟩ := reads_seq_rule first
    obtain ⟨k, hsemis, hk⟩ := (reads_seq_single hsemis).rounds
    obtain ⟨ws, rfl, rfl, -⟩ := hsemis.exists_semicolons
    have hruns : ShortRuns limit (ws ++ x :: vs) := .behind hk hvs hx
    -- The statement takes a token at least, and no semicolon.
    have hlt : (ws ++ x :: vs).length < ts.length := hkids.length_lt (by decide)
    obtain ⟨us, rfl, hus⟩ := hkids.derives.no_semicolon (by decide)
    cases us with
    | nil => exact absurd hlt (Nat.lt_irrefl _)
    | cons t us =>
      obtain ⟨ht, hus⟩ := List.forall_mem_cons.1 hus
      exact ⟨t, us ++ (ws ++ x :: vs), rfl, ht, .append hus hruns hzero⟩

/-- Tokens of a run in code are semicolons. -/
theorem bare_of_texts {stack : List Mode} (hcode : InCode stack) {us rest : List Token}
    (hts : Staged stack (us ++ rest)) (hus : ∀ t ∈ us, hasText (lit ";") t = true) :
    ∀ t ∈ us, t.bare = mark ";" := by
  induction us with
  | nil => simp
  | cons u us ih =>
    obtain ⟨hu, hus⟩ := List.forall_mem_cons.1 hus
    have hbare := hts.bare_mark hcode hu (by decide)
    exact List.forall_mem_cons.2 ⟨hbare, ih (hts.behind_mark hbare) hus⟩

/-- The semicolons at the front are as many as the limit allows. -/
theorem ShortRuns.allows_front {stack : List Mode} (hcode : InCode stack) {k : Nat}
    {ts rest : List Token} {trees : List ParseTree} (hts : Staged stack ts)
    (hruns : ShortRuns limit ts) (h : Rounds limit (.text (lit ";")) k ts trees rest) :
    Allows limit k := by
  obtain ⟨us, rfl, rfl, hus⟩ := h.exists_semicolons
  exact hruns us (List.prefix_append us rest).isInfix (bare_of_texts hcode hts hus)

/-- Statements are read line by line, where no semicolon is left. -/
theorem Statements.lines (hlimit : IsAhead limit) {stack : List Mode} (hcode : InCode stack)
    {ts rest : List Token} {ns : List Node} (h : Statements limit ts ns rest)
    (hts : Staged stack ts) (hruns : ShortRuns limit ts)
    (hrest : Reads (.text (lit ";")) rest .lacks limit) :
    ∃ k semis mid trees, Rounds limit (.text (lit ";")) k ts semis mid ∧
      Reads (.text (lit ";")) mid .lacks limit ∧
        Rounds limit statementLine ns.length mid trees rest ∧ buildAll trees = ⟨ns, none⟩ := by
  induction h with
  | @nil ts => exact ⟨0, [], ts, [], .nil, hrest, .nil, rfl⟩
  | @semicolon t ts rest ns ht _ ih =>
    have hbare := hts.bare_mark hcode ht (by decide)
    obtain ⟨k, semis, mid, trees, hsemis, hlines⟩ :=
      ih (hts.behind_mark hbare) (hruns.of_suffix (List.suffix_cons t ts)) hrest
    exact ⟨k + 1, [ParseTree.leaf t] ++ semis, mid, trees,
      .cons (reads_text_takes.2 ⟨t, rfl, ht, rfl⟩) hsemis, hlines⟩
  | @cons ts mid rest n ns first _ ih =>
    obtain ⟨us, rfl, hus⟩ := spans_statement hcode hts (first.unlimited hlimit)
    have hmid := hts.behind hus
    have hshort := hruns.of_suffix (List.suffix_append us mid)
    obtain ⟨k, semis, next, trees, hsemis, hnext, hlines, hbuild⟩ := ih hmid hshort hrest
    have hmany : Reads (.many (.text (lit ";"))) mid (.takes semis next) limit :=
      hsemis.reads_many rfl (.inl hnext) (hshort.allows_front hcode hmid hsemis)
    have hlacks : Reads (.text (lit ";")) (us ++ mid) .lacks limit := by
      have hlt := first.length_lt (by decide)
      cases us with
      | nil => exact absurd hlt (Nat.lt_irrefl _)
      | cons t us => exact reads_text_lacks (hasText_semicolon_eq_false hlimit hts.sourced first)
    obtain ⟨kids, hread, hn⟩ := first
    have hline : Reads statementLine (us ++ mid)
        (.takes ([ParseTree.branch .statement (startOf (us ++ mid)) kids] ++ semis) next) limit :=
      (reads_rule_takes.2 ⟨kids, hread, rfl⟩).seq hmany.seq_last
    have hfirst : buildAll [.branch .statement (startOf (us ++ mid)) kids] = ⟨[n], none⟩ := by
      rw [buildAll, hn]
      rfl
    refine ⟨0, [], _, _, .nil, hlacks, .cons hline hlines, ?_⟩
    exact buildAll_append (buildAll_append hfirst (buildAll_texts hsemis)) hbuild

/-- A source whose tokens are statements up to the end is read, if the limit allows it. -/
theorem limited_of_statements (hlimit : IsAhead limit) {file src : Text} {ts : List Token}
    {last : Token} {ns : List Node} (hts : tokens file src = .ok ts) (hlast : last.bare = endToken)
    (h : Statements limit ts ns [last]) (hn : Allows limit ns.length)
    (hruns : ShortRuns limit ts) : parse file src limit = .ok (.program (startOf ts) ns) := by
  have hstaged := staged_of_tokens hts
  have hend : Reads (.text (lit ";")) [last] .lacks limit :=
    reads_text_lacks (hasText_eq_false (by rw [text_of_bare hlast]; decide))
  obtain ⟨k, semis, mid, trees, hsemis, hmid, hlines, hbuild⟩ :=
    h.lines hlimit inCode_nil hstaged hruns hend
  have hfront : Reads (.many (.text (lit ";"))) ts (.takes semis mid) limit :=
    hsemis.reads_many rfl (.inl hmid) (hruns.allows_front inCode_nil hstaged hsemis)
  have hdeclines : Declines statementLine [last] limit := by
    have hshort : ∀ most ∈ limit, [last].length < most := fun most hmost =>
      Nat.lt_trans (show 1 < Reader.lookahead by decide) (hlimit most hmost)
    rcases line_declines_end hlast with h | ⟨rest, h, hfar⟩
    · exact .inl (h.limited hlimit (by decide) hshort)
    · exact .inr ⟨rest, h.limited hlimit (by decide) hshort, hfar⟩
  refine parse_of_lines hts hfront (hlines.reads_many rfl hdeclines hn) hlast ?_
  have hall := buildAll_append (buildAll_texts hsemis) hbuild
  simpa using hall

/-- A source whose tokens are statements up to the end is read where there is no limit. -/
theorem parse_of_statements {file src : Text} {ts : List Token} {last : Token} {ns : List Node}
    (hts : tokens file src = .ok ts) (hlast : last.bare = endToken)
    (h : Statements none ts ns [last]) : parse file src = .ok (.program (startOf ts) ns) :=
  limited_of_statements (by simp [IsAhead]) hts hlast h (by simp [Allows]) .none

/-- A source that is read is made of statements and semicolons up to the end, fewer statements than
the limit and nowhere as many semicolons in a row. -/
theorem statements_of_limited (hlimit : IsAhead limit) {file src : Text} {n : Node}
    (h : parse file src limit = .ok n) :
    ∃ ts last body, tokens file src = .ok (ts ++ [last]) ∧ last.bare = endToken ∧
      n = .program (startOf (ts ++ [last])) body ∧ Statements limit (ts ++ [last]) body [last] ∧
        Allows limit body.length ∧ ShortRuns limit (ts ++ [last]) := by
  obtain ⟨all, rest, hts, hgives, hend⟩ := gives_of_parse h
  obtain ⟨k, semis, mid, m, trees, body, hsemis, hk, hlines, hm, hbuild, rfl⟩ :=
    lines_of_program hgives
  obtain ⟨hstatements, rfl⟩ := statements_of_lines hlines hbuild
  have hbody := (statements_of_texts hsemis).append hstatements
  obtain ⟨ts, last, rfl, rfl, hlast, -⟩ :=
    written_of_statements hts (hbody.unlimited hlimit) hend
  -- The semicolons at the front, and then the lines.
  obtain ⟨x, us, rfl, hx, hus⟩ := shortRuns_of_lines hlimit hlast hlines
  obtain ⟨vs, heq, rfl, -⟩ := hsemis.exists_semicolons
  have hruns : ShortRuns limit (ts ++ [last]) := heq ▸ .behind hk hus hx
  exact ⟨ts, last, body, hts, hlast, rfl, hbody, hm, hruns⟩

end CubeSchema
