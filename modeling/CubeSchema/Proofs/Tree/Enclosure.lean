import CubeSchema.Proofs.Grammar.Derivation
import CubeSchema.Proofs.Token.Brackets
import CubeSchema.Proofs.Tree.Written

/-!
# Braces in the grammar

The grammar asks for the braces of an object by their texts, and an interpolation ends with the same
text. What tells them apart are the modes of the lexer. `Pattern.shift?` follows the modes that have
been entered within a rule through its pattern: an opening text or class enters one, and a closing
one is allowed only where what it closes was entered last. Every rule passes this check and leaves
no mode entered (`Rule.shift?_pattern`), so that by induction over derivations the tokens of each
rule close all that they open, and each stands in the modes that the check has followed.
-/

namespace CubeSchema

open Lexer Grammar ParseTree

/-! ## Modes within a rule -/

/-- Whether a rule stands in code; the parts of a template do not. -/
def Rule.isCode (r : Rule) : Bool := r ≠ .templatePart

/-- Whether the innermost mode is one of code; `code` says it of the modes around a rule. -/
def Lexer.isCode (code : Bool) : List Mode → Bool
  | [] => code
  | m :: _ => m ≠ .template

/-- The modes entered within a rule, behind a token of a class. -/
def TokenClass.shift? (cls : TokenClass) (modes : List Mode) : Option (List Mode) :=
  match effectOf cls with
  | .keep => some modes
  | .enter m => some (m :: modes)
  | .leave =>
    match modes with
    | m :: modes => if cls.opener? = some (openerOf m) then some modes else none
    | [] => none

namespace Pattern

/-- The modes entered within a rule, behind a token of which the text is told. -/
def shiftText? (code : Bool) (t : Text) (modes : List Mode) : Option (List Mode) :=
  if t = lit "\x7b" then if isCode code modes then some (.block :: modes) else none
  else if t = lit "\x7d" then if modes.head? = some .block then some modes.tail else none
  else if t ∈ [lit "`", lit "$\x7b"] then none
  else some modes

mutual

/-- The modes entered within a rule, behind what a pattern takes; none if they cannot be told. -/
def shift? (code : Bool) : Pattern → List Mode → Option (List Mode)
  | text t, modes => shiftText? code t modes
  | token cls, modes => cls.shift? modes
  | rule r, modes => if !r.isCode || isCode code modes then some modes else none
  | seq parts, modes => shiftSeq? code parts modes
  | alt choices, modes => if allNeutral code choices modes then some modes else none
  | opt inner, modes => if inner.shift? code modes = some modes then some modes else none
  | many inner, modes => if inner.shift? code modes = some modes then some modes else none

/-- The modes behind what the parts of a sequence take. -/
def shiftSeq? (code : Bool) : List Pattern → List Mode → Option (List Mode)
  | [], modes => some modes
  | p :: ps, modes => (p.shift? code modes).bind (shiftSeq? code ps)

/-- Whether each pattern of a list leaves the modes as they are. -/
def allNeutral (code : Bool) : List Pattern → List Mode → Bool
  | [], _ => true
  | p :: ps, modes => p.shift? code modes = some modes && allNeutral code ps modes

end

end Pattern

/-- Every rule leaves the modes that it enters. -/
theorem Rule.shift?_pattern (r : Rule) : r.pattern.shift? r.isCode [] = some [] := by
  cases r <;> decide

/-- The modes around a rule and those entered within it are those of code. -/
theorem Lexer.inCode_of_isCode {code : Bool} {modes base : List Mode}
    (h : isCode code modes = true) (hbase : code = true → InCode base) :
    InCode (modes ++ base) := by
  cases modes with
  | nil => exact hbase h
  | cons m modes =>
    have hm : m ≠ .template := of_decide_eq_true h
    simpa [InCode] using hm

/-! ## One token -/

/-- A token of a class takes the lexer from some modes to others. -/
inductive TokenClass.Turns (cls : TokenClass) : List Mode → List Mode → Prop
  | keep {modes : List Mode} (h : effectOf cls = .keep) : Turns cls modes modes
  | enter {m : Mode} {modes : List Mode} (h : effectOf cls = .enter m) :
      Turns cls modes (m :: modes)
  | leave {m : Mode} {modes : List Mode} (h : cls.opener? = some (openerOf m)) :
      Turns cls (m :: modes) modes

/-- The same with any modes below. -/
theorem TokenClass.Turns.apply_eq {cls : TokenClass} {modes modes' : List Mode}
    (h : cls.Turns modes modes') (base : List Mode) :
    StackEffect.apply (effectOf cls) (modes ++ base) = modes' ++ base := by
  cases h with
  | keep h => rw [h]; rfl
  | enter h => rw [h]; rfl
  | leave h =>
    rw [effectOf_eq_leave.2 (Option.isSome_of_eq_some h)]
    rfl

theorem TokenClass.turns_of_shift? {cls : TokenClass} {modes modes' : List Mode}
    (h : cls.shift? modes = some modes') : cls.Turns modes modes' := by
  unfold TokenClass.shift? at h
  split at h
  · rename_i hkind
    obtain rfl := Option.some.inj h
    exact .keep hkind
  · rename_i m hkind
    obtain rfl := Option.some.inj h
    exact .enter hkind
  · split at h
    · split at h
      · rename_i hcls
        obtain rfl := Option.some.inj h
        exact .leave hcls
      · cases h
    · cases h

/-- A token that has not the text of an opening or closing token is none. -/
theorem BareToken.IsSound.effect_keep {b : BareToken} (h : b.IsSound)
    (htext : b.text ∉ [[123], [125], [96], [36, 123]]) : effectOf b.cls = .keep := by
  unfold IsSound at h
  cases hcls : b.cls <;> simp only [hcls] at h
  case backtick | templateEnd | lbrace | rbrace | exprEnd | exprStart =>
    exact absurd (by simp [h]) htext
  all_goals rfl

/-- Where its modes are followed, the text of a token tells what it does to them. -/
theorem Staged.turns_of_shiftText? {code : Bool} {modes modes' base : List Mode} {t : Token}
    {ts : List Token} (hts : Staged (modes ++ base) (t :: ts)) (hbase : code = true → InCode base)
    (h : Pattern.shiftText? code t.text modes = some modes') : t.cls.Turns modes modes' := by
  unfold Pattern.shiftText? at h
  split at h
  · rename_i hopen
    split at h
    · rename_i hcode
      obtain rfl := Option.some.inj h
      have hbare := hts.bare_lbrace (inCode_of_isCode hcode hbase) hopen
      exact .enter (by rw [cls_of_bare hbare]; rfl)
    · cases h
  · rename_i hopen
    split at h
    · rename_i hclose
      split at h
      · rename_i hhead
        obtain ⟨modes, rfl⟩ := List.head?_eq_some_iff.1 hhead
        obtain rfl := Option.some.inj h
        have hbare := hts.bare_rbrace hclose
        exact .leave (by rw [cls_of_bare hbare]; rfl)
      · cases h
    · rename_i hclose
      split at h
      · cases h
      · rename_i hothers
        obtain rfl := Option.some.inj h
        -- A text that is none of the four marks belongs to a token that keeps the modes.
        have hnone : t.bare.text ∉ [[123], [125], [96], [36, 123]] := by
          intro hmem
          rcases List.mem_cons.1 hmem with htext | hmem
          · exact hopen htext
          · rcases List.mem_cons.1 hmem with htext | hmem
            · exact hclose htext
            · exact hothers hmem
        exact .keep (hts.sourced.sound.effect_keep hnone)

/-! ## Many tokens -/

/-- Tokens of which the unclosed ones, in modes entered before and among the tokens, take the place
of those that had entered the modes before. -/
def Shifts (modes modes' : List Mode) (ts : List Token) : Prop :=
  ∀ opened others : List Token, Entered opened modes →
    ∃ opened', ts.foldl bracket (opened ++ others) = opened' ++ others ∧ Entered opened' modes'

namespace Shifts

variable {modes modes' modes'' : List Mode} {ts us : List Token}

theorem nil : Shifts modes modes [] := fun opened _ h => ⟨opened, rfl, h⟩

theorem append (h : Shifts modes modes' ts) (hmore : Shifts modes' modes'' us) :
    Shifts modes modes'' (ts ++ us) := by
  intro opened others hopened
  obtain ⟨opened', heq, hopened'⟩ := h opened others hopened
  rw [List.foldl_append, heq]
  exact hmore opened' others hopened'

/-- Tokens that close all that they open do so in any modes. -/
theorem foldl_eq (h : Shifts [] [] ts) (opened : List Token) :
    ts.foldl bracket opened = opened := by
  obtain ⟨opened', heq, hopened'⟩ := h [] opened .nil
  obtain rfl := List.map_eq_nil_iff.1 hopened'
  exact heq

theorem within (h : Shifts [] [] ts) : Shifts modes modes ts :=
  fun opened others hopened => ⟨opened, h.foldl_eq (opened ++ others), hopened⟩

end Shifts

theorem TokenClass.Turns.shifts {t : Token} {modes modes' : List Mode}
    (h : t.cls.Turns modes modes') : Shifts modes modes' [t] := by
  intro opened others hopened
  show ∃ opened', bracket (opened ++ others) t = _ ∧ _
  cases h with
  | keep h => exact ⟨opened, bracket_of_keep h _, hopened⟩
  | enter h => exact ⟨t :: opened, bracket_of_enter h _, .cons (effectOf_eq_enter.1 h) hopened⟩
  | leave h =>
    obtain ⟨o, more, rfl, ho, hmore⟩ := List.map_eq_cons_iff.1 hopened
    exact ⟨more, bracket_of_closes (ho ▸ h) _, hmore⟩

/-! ## Derivations -/

namespace Pattern

theorem shift?_of_allNeutral {code : Bool} {ps : List Pattern} {modes : List Mode}
    (h : allNeutral code ps modes = true) {p : Pattern} (hp : p ∈ ps) :
    p.shift? code modes = some modes := by
  induction ps with
  | nil => cases hp
  | cons q ps ih =>
    rw [allNeutral, Bool.and_eq_true, decide_eq_true_eq] at h
    rcases List.mem_cons.1 hp with rfl | hp
    · exact h.1
    · exact ih h.2 hp

end Pattern

/-- The parts of a rule have been taken from tokens in their modes. -/
def Grown (r : Rule) (kids : List ParseTree) : Prop :=
  ∃ stack us vs, (r.isCode = true → InCode stack) ∧ Staged stack us ∧ Derives r.pattern us kids vs

/-- What is known of trees in front of `rest` that shift the modes within a rule. -/
structure Settles (base modes modes' : List Mode) (trees : List ParseTree) (rest : List Token) :
    Prop where
  /-- The tokens behind them stand in the modes that the shift tells. -/
  staged : Staged (modes' ++ base) rest
  /-- Of their own tokens those are unclosed that have entered these modes. -/
  shifts : Shifts modes modes' (leavesAll trees)
  /-- Each rule in them has been taken from tokens in their modes. -/
  grown : ∀ {r pos kids before}, (ParseTree.branch r pos kids).OccursIn before trees → Grown r kids

namespace Settles

variable {base modes modes' modes'' : List Mode} {trees more : List ParseTree}
  {mid rest : List Token}

theorem nil (h : Staged (modes ++ base) rest) : Settles base modes modes [] rest :=
  ⟨h, .nil, fun hx => by cases hx⟩

theorem token {t : Token} (h : Staged (modes ++ base) (t :: rest)) (ht : t.cls.Turns modes modes') :
    Settles base modes modes' [.leaf t] rest := by
  refine ⟨ht.apply_eq base ▸ h.next, ht.shifts, fun hx => ?_⟩
  cases hx with
  | behind hx => cases hx

theorem append (h : Settles base modes modes' trees mid)
    (hmore : Settles base modes' modes'' more rest) :
    Settles base modes modes'' (trees ++ more) rest := by
  refine ⟨hmore.staged, ?_, fun hx => ?_⟩
  · rw [leavesAll_append]
    exact h.shifts.append hmore.shifts
  · rcases hx.of_append with hx | ⟨before, hx, -⟩
    · exact h.grown hx
    · exact hmore.grown hx

theorem branch {r : Rule} {pos : Position} {kids : List ParseTree} (hr : Grown r kids)
    (h : Settles (modes ++ base) [] [] kids rest) :
    Settles base modes modes [.branch r pos kids] rest := by
  refine ⟨h.staged, ?_, fun hx => ?_⟩
  · have hleaves : leavesAll [.branch r pos kids] = leavesAll kids := List.append_nil _
    rw [hleaves]
    exact h.shifts.within
  · rcases hx.of_branch with heq | hx
    · obtain ⟨rfl, rfl, rfl⟩ := ParseTree.branch.inj heq
      exact hr
    · exact h.grown hx

end Settles

/-- What a pattern takes from tokens in their modes shifts these as the pattern tells. -/
theorem Grammar.Derives.settles {p : Pattern} {ts rest : List Token} {trees : List ParseTree}
    (h : Derives p ts trees rest) {code : Bool} {modes modes' base : List Mode}
    (hshift : p.shift? code modes = some modes') (hbase : code = true → InCode base)
    (hts : Staged (modes ++ base) ts) : Settles base modes modes' trees rest := by
  -- Where a pattern has to be neutral, its check gives back the modes in front.
  have hneutral : ∀ {c : Prop} [Decidable c] {modes modes' : List Mode},
      (if c then some modes else none) = some modes' → c ∧ modes = modes' := by
    intro c _ modes modes' h
    obtain ⟨hc, hmodes⟩ := Option.ite_none_right_eq_some.1 h
    exact ⟨hc, Option.some.inj hmodes⟩
  induction h generalizing code modes modes' base with
  | text ht =>
    obtain ⟨-, rfl⟩ := hasText_eq_true.1 ht
    exact .token hts (hts.turns_of_shiftText? hbase hshift)
  | token ht =>
    subst ht
    exact .token hts (TokenClass.turns_of_shift? hshift)
  | @rule r ts rest kids body ih =>
    -- A rule has been checked by itself, so that all modes in front of it are around it.
    obtain ⟨hcode, rfl⟩ := hneutral hshift
    have hinner : r.isCode = true → InCode (modes ++ base) := by
      intro hr
      rw [hr] at hcode
      exact inCode_of_isCode hcode hbase
    exact .branch ⟨_, ts, rest, hinner, hts, body⟩ (ih r.shift?_pattern hinner hts)
  | noParts =>
    obtain rfl := Option.some.inj hshift
    exact .nil hts
  | parts _ _ ihfirst ihmore =>
    obtain ⟨mid, hmid, hmore⟩ := Option.bind_eq_some_iff.1 hshift
    have hfirst := ihfirst hmid hbase hts
    exact hfirst.append (ihmore hmore hbase hfirst.staged)
  | choice hp _ ih =>
    obtain ⟨hall, rfl⟩ := hneutral hshift
    exact ih (Pattern.shift?_of_allNeutral hall hp) hbase hts
  | absent =>
    obtain ⟨-, rfl⟩ := hneutral hshift
    exact .nil hts
  | present _ ih =>
    obtain ⟨hinner, rfl⟩ := hneutral hshift
    exact ih hinner hbase hts
  | stop =>
    obtain ⟨-, rfl⟩ := hneutral hshift
    exact .nil hts
  | round _ _ ihfirst ihmore =>
    -- One round leaves the modes as they are, and the others start as this one did.
    obtain ⟨hinner, rfl⟩ := hneutral hshift
    have hfirst := ihfirst hinner hbase hts
    exact hfirst.append (ihmore hshift hbase hfirst.staged)

/-! ## Objects -/

/-- The parts of an object literal behind the tokens `before`: between its braces, which are those
of a block, nothing stays open, so that the closing brace ends what the opening one began. -/
def Encloses (before : List Token) (kids : List ParseTree) : Prop :=
  ∃ first inner last, kids = .leaf first :: inner ++ [ParseTree.leaf last] ∧
    first.bare = ⟨.lbrace, lit "\x7b"⟩ ∧ last.bare = ⟨.rbrace, lit "\x7d"⟩ ∧
    unclosed (before ++ first :: leavesAll inner) = first :: unclosed before ∧
    unclosed (before ++ first :: leavesAll inner ++ [last]) = unclosed before

theorem Grown.encloses {kids : List ParseTree} (h : Grown .objectLiteral kids)
    (before : List Token) : Encloses before kids := by
  obtain ⟨stack, us, vs, hcode, hstaged, hderives⟩ := h
  obtain ⟨_, _, _, hfirst, hmore, rfl⟩ := hderives.exists_parts
  obtain ⟨inner, _, _, hinner, hclosing, rfl⟩ := hmore.exists_parts
  obtain ⟨_, _, _, hlast, hnone, rfl⟩ := hclosing.exists_parts
  obtain ⟨first, rfl, hbegin, rfl⟩ := hfirst.exists_token
  obtain ⟨last, rfl, hend, rfl⟩ := hlast.exists_token
  cases hnone
  -- The opening brace enters a block, and behind the members the lexer is in this block again.
  have hopen := hstaged.bare_lbrace (hcode rfl) (hasText_eq_true.1 hbegin).2
  have hnext := hstaged.next
  rw [cls_of_bare hopen] at hnext
  have hblock : Staged ([] ++ .block :: stack) _ := hnext
  have hmembers : (Pattern.commaList (.rule .objectMember)).shift? true [] = some [] := rfl
  have hsettles := hinner.settles hmembers (fun _ => inCode_block stack) hblock
  have hclose := hsettles.staged.bare_rbrace (hasText_eq_true.1 hend).2
  have hopened : unclosed (before ++ first :: leavesAll inner) = first :: unclosed before := by
    have henter : effectOf first.cls = .enter .block := by
      rw [cls_of_bare hopen]
      rfl
    rw [unclosed_append, List.foldl_cons, bracket_of_enter henter]
    exact hsettles.shifts.foldl_eq _
  refine ⟨first, inner, last, by simp, hopen, hclose, hopened, ?_⟩
  rw [unclosed_append, hopened]
  refine bracket_of_closes ?_ _
  rw [cls_of_bare hopen, cls_of_bare hclose]
  rfl

/-! ## Sources that are read -/

theorem derive_of_parse {file src : Text} {n : Node} (h : parse file src = .ok n) :
    ∃ ts tree, allTokens file src = .ok ts ∧
      derive (ts.filter fun t => !t.cls.isDropped) = .ok tree ∧ tree.build.toExcept = .ok n := by
  unfold parse tokens at h
  cases hall : allTokens file src with
  | error e => simp [hall, Except.map] at h
  | ok ts =>
    simp only [hall, Except.map] at h
    split at h
    · cases h
    · rename_i tree htree
      exact ⟨ts, tree, rfl, htree, h⟩

/-- The tokens of a source that is read, and its match, close all that they open. -/
structure Balances (file src : Text) (ts : List Token) (tree : ParseTree) : Prop where
  /-- No token is unclosed. -/
  unclosed : unclosed ts = []
  /-- The lexer comes to the end outside of all modes. -/
  modes : ∀ us last p, ts = us ++ [last] → Reaches (.start file src) us p → p.stack = []
  /-- Wherever an object literal stands in the match, its braces belong together. -/
  objects : ∀ before pos kids, (ParseTree.branch .objectLiteral pos kids).OccursIn before [tree] →
    Encloses before kids ∧ ∃ after, (ts.filter fun t => !t.cls.isDropped) =
      before ++ leavesAll kids ++ after

/-- The tokens of a source nest as the modes of the lexer do, and in a source that is read they
close all that they open: the closing brace of an object, which the grammar tells by its text,
belongs to the opening brace of that object. -/
theorem brackets_nest (file src : Text) :
    (∀ ts, allTokens file src = .ok ts → Nests file src ts) ∧
      ∀ n, parse file src = .ok n → ∃ ts tree, allTokens file src = .ok ts ∧
        derive (ts.filter fun t => !t.cls.isDropped) = .ok tree ∧ tree.build.toExcept = .ok n ∧
        Balances file src ts tree := by
  refine ⟨fun ts => nests_of_allTokens, fun n h => ?_⟩
  obtain ⟨ts, tree, hall, htree, hbuild⟩ := derive_of_parse h
  refine ⟨ts, tree, hall, htree, hbuild, ?_⟩
  have hseen : tokens file src = .ok (ts.filter fun t => !t.cls.isDropped) := by
    rw [tokens, hall]
    rfl
  obtain ⟨rest, hread, hend⟩ := derive_eq_ok_iff.1 htree
  have hstaged : Staged ([] ++ []) _ := staged_of_tokens hseen
  have hprogram : (Pattern.rule .program).shift? true [] = some [] := rfl
  have hsettles := hread.derives.settles hprogram (fun _ => inCode_nil) hstaged
  have hsplit := hread.eq_append
  -- Behind the match only the end is left, which opens nothing.
  have hrest : rest.foldl bracket [] = [] := by
    rw [hsplit] at hseen
    rcases rest_of_atEnd hseen hend with rfl | ⟨last, rfl, hlast⟩
    · rfl
    · exact bracket_of_keep (by rw [cls_of_bare hlast]; rfl) _
  have hclosed : unclosed ts = [] := by
    rw [← unclosed_filter, hsplit, unclosed_append]
    show rest.foldl bracket (List.foldl bracket [] _) = []
    rw [hsettles.shifts.foldl_eq, hrest]
  refine ⟨hclosed, fun us last p hts hcuts => ?_, fun before pos kids hx => ?_⟩
  · have hnests := nests_of_allTokens hall
    obtain ⟨us', pos, hends⟩ := hnests.ends
    obtain ⟨rfl, -⟩ := List.append_inj' (hends.symm.trans hts) rfl
    obtain ⟨p', honly, -, hentered⟩ := hnests.modes us' last [] hts
    have hopen : unclosed us' = [] := by
      rw [hends, unclosed_append, List.foldl_cons, bracket_of_keep rfl] at hclosed
      exact hclosed
    rw [hopen, ← (honly p).1 hcuts] at hentered
    exact List.map_eq_nil_iff.1 hentered.symm
  · refine ⟨(hsettles.grown hx).encloses before, ?_⟩
    obtain ⟨after, hafter⟩ := hx.leaves_eq
    refine ⟨after ++ rest, ?_⟩
    rw [hsplit, hafter, List.append_assoc]
    rfl

/-- A source with an object in an interpolation of a template in an object. -/
def objectInTemplate : Text := lit "f(\x7ba: `x$\x7b \x7bb\x7d \x7d`\x7d)"

/-- Behind the name in the inner object, all four brackets are open. -/
theorem objectInTemplate_nests : ∃ n ts tree, parse (lit "t.js") objectInTemplate = .ok n ∧
    Nests (lit "t.js") objectInTemplate ts ∧ Balances (lit "t.js") objectInTemplate ts tree ∧
    (unclosed (ts.take 12)).map Token.cls = [.lbrace, .exprStart, .backtick, .lbrace] := by
  have hparse : ∃ n, parse (lit "t.js") objectInTemplate = .ok n := by
    have hok : (parse (lit "t.js") objectInTemplate).isOk = true := by decide +kernel
    cases h : parse (lit "t.js") objectInTemplate with
    | ok n => exact ⟨n, rfl⟩
    | error e =>
      rw [h] at hok
      cases hok
  have hopen : (allTokens (lit "t.js") objectInTemplate).map (fun ts =>
      (unclosed (ts.take 12)).map Token.cls) =
        .ok [.lbrace, .exprStart, .backtick, .lbrace] := by decide +kernel
  obtain ⟨n, hn⟩ := hparse
  obtain ⟨ts, tree, hall, -, -, hbalances⟩ := (brackets_nest (lit "t.js") objectInTemplate).2 n hn
  rw [hall] at hopen
  exact ⟨n, ts, tree, hn, (brackets_nest (lit "t.js") objectInTemplate).1 ts hall, hbalances,
    Except.ok.inj hopen⟩

end CubeSchema
