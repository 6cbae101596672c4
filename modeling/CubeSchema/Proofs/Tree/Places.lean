import CubeSchema.Proofs.Grammar.Faults
import CubeSchema.Proofs.Token.Places
import CubeSchema.Proofs.Tree.Nodes
import CubeSchema.Proofs.Tree.Written

/-!
# Places in trees

Every place that a source is answered with is the place of a token, of the end or of the text that
is no token, and these are right by `CubeSchema.Proofs.Token.Places`. For errors this is followed
through the matcher and the builder. For trees it is read off the tokens that spell them: `Laid`
lists the nodes of a tree as they come up in the source, each with its own stretch of tokens, which
gives the order of their places, the texts of the leaves and the slices of the templates.
-/

namespace CubeSchema

open Lexeme Lexer Grammar Node ParseTree

/-! ## Errors of the builder -/

/-- If there is an error, then at a place that passes the test. -/
def Checked.FailsAt {α : Type} (P : Position → Prop) (x : Checked α) : Prop :=
  ∀ e, x.error = some e → P e.pos

namespace Checked

variable {P : Position → Prop} {α β : Type}

@[simp] theorem failsAt_pure (a : α) : (pure a : Checked α).FailsAt P := fun _ h => nomatch h

@[simp] theorem failsAt_report {pos : Position} {cause : ParseCause} :
    (report pos cause).FailsAt P ↔ P pos :=
  ⟨fun h => h _ rfl, fun h _ he => Option.some.inj he ▸ h⟩

@[simp] theorem failsAt_bind {x : Checked α} {f : α → Checked β} :
    (x >>= f).FailsAt P ↔ x.FailsAt P ∧ (x.error = none → (f x.val).FailsAt P) := by
  obtain ⟨a, e⟩ := x
  cases e with
  | none => exact ⟨fun h => ⟨fun _ he => (nomatch he), fun _ => h⟩, fun h => h.2 rfl⟩
  | some e => exact ⟨fun h => ⟨h, fun hnone => (nomatch hnone)⟩, fun h => h.1⟩

end Checked

namespace ParseTree

variable {P : Position → Prop} {pos : Position}

theorem failsAt_stringNode (h : P pos) (raw : Text) : (stringNode pos raw).FailsAt P := by
  unfold stringNode
  split <;> simp [h]

theorem failsAt_quasiOf (h : P pos) (raw : Text) : (quasiOf pos raw).FailsAt P := by
  unfold quasiOf
  split <;> simp [h]

theorem failsAt_keyNode (h : P pos) (token : Token) : (keyNode pos token).FailsAt P := by
  unfold keyNode
  split
  · simp
  · exact failsAt_stringNode h _
  · simp

theorem failsAt_primaryNode (h : P pos) (token : Token) : (primaryNode pos token).FailsAt P := by
  unfold primaryNode
  split
  · simp
  · split
    · simp
    · exact failsAt_stringNode h _
    · simp

theorem failsAt_shorthandNode (h : P pos) (key : Node) (computed : Bool) :
    (shorthandNode pos key computed).FailsAt P := by
  unfold shorthandNode
  split <;> simp [h]

/-- The builder reports errors at places of the match. -/
theorem failsAt_build :
    (∀ tree, (∀ p ∈ tree.places, P p) → (build tree).FailsAt P) ∧
    (∀ pos raw trees, (∀ p ∈ placesAll trees, P p) → P pos →
      (buildParts pos raw trees).FailsAt P) ∧
    (∀ x trees, (∀ p ∈ placesAll trees, P p) → (buildSuffixes x trees).FailsAt P) ∧
    (∀ optional x trees, (∀ p ∈ placesAll trees, P p) →
      (buildSuffix optional x trees).FailsAt P) ∧
    ∀ trees, (∀ p ∈ placesAll trees, P p) → (buildAll trees).FailsAt P := by
  apply build.mutual_induct
  case case39 =>
    intro optional x name hne ih h
    rw [buildSuffix]
    · simp_all [placesAll]
    · exact hne
  -- An error comes from a part, whose places are places of the whole, or is at the place itself.
  all_goals intros
  all_goals simp_all [places, placesAll, build, buildAll, buildParts, buildSuffixes, buildSuffix,
    failsAt_quasiOf, failsAt_keyNode, failsAt_primaryNode, failsAt_shorthandNode]

end ParseTree

/-! ## Nodes among the tokens -/

/-- The nodes of a phrase in source order. -/
def Phrase.nodes : Phrase → List Node
  | .node n => n.nodes
  | .items ns | .list ns | .params ns | .body ns => nodesAll ns
  | .chunks _ _ exprs => nodesAll exprs

/-- The nodes come up in this order among the tokens: each is written there, and none starts in
front of the one before it. -/
inductive Laid : List Node → List Token → Prop
  | nil {ts : List Token} : Laid [] ts
  | skip {t : Token} {ns : List Node} {ts : List Token} (more : Laid ns ts) : Laid ns (t :: ts)
  | pick {n : Node} {ns : List Node} {us vs : List Token} (hn : Written (.node n) us)
      (more : Laid ns (us ++ vs)) : Laid (n :: ns) (us ++ vs)

namespace Laid

variable {ns ms : List Node} {us vs ts : List Token}

theorem right (h : Laid ns vs) (us : List Token) : Laid ns (us ++ vs) := by
  induction us with
  | nil => exact h
  | cons u us ih => exact .skip ih

theorem append (h : Laid ns us) (h' : Laid ms vs) : Laid (ns ++ ms) (us ++ vs) := by
  induction h with
  | nil => exact h'.right _
  | skip _ ih => exact .skip ih
  | @pick n ns us ws hn _ ih =>
    rw [List.append_assoc] at ih ⊢
    exact .pick hn ih

theorem left (h : Laid ns us) (vs : List Token) : Laid ns (us ++ vs) := by
  have hnil : Laid [] vs := .nil
  simpa using h.append hnil

/-- A node with the nodes below it. -/
theorem cons {n : Node} (h : Laid ns us) (hn : Written (.node n) us) : Laid (n :: ns) us := by
  have hpick : Laid (n :: ns) (us ++ []) := .pick hn (by rwa [List.append_nil])
  rwa [List.append_nil] at hpick

/-- Each node has a stretch of tokens of its own. -/
theorem exists_stretch (h : Laid ns ts) {n : Node} (hn : n ∈ ns) :
    ∃ us, us <:+: ts ∧ Written (.node n) us := by
  induction h with
  | nil => cases hn
  | skip _ ih =>
    obtain ⟨us, hpart, hus⟩ := ih hn
    exact ⟨us, hpart.trans (List.suffix_cons _ _).isInfix, hus⟩
  | @pick m ms us vs hm _ ih =>
    rcases List.mem_cons.1 hn with rfl | hn
    · exact ⟨us, (List.prefix_append us vs).isInfix, hm⟩
    · exact ih hn

end Laid

/-- Nodes start where tokens start. -/
theorem Laid.exists_start {ns : List Node} {ts : List Token} (h : Laid ns ts) {n : Node}
    (hn : n ∈ ns) : ∃ t ∈ ts, n.position = t.pos := by
  obtain ⟨us, hpart, hus⟩ := h.exists_stretch hn
  obtain ⟨t, us', rfl, hpos, -⟩ := hus.exists_first
  exact ⟨t, hpart.subset (List.mem_cons_self ..), hpos⟩

/-- The nodes of a phrase are laid out among its tokens. -/
theorem Written.laid {ph : Phrase} {ts : List Token} (h : Written ph ts) : Laid ph.nodes ts := by
  induction h with
  | name hcls => exact Laid.nil.cons (.name hcls)
  | keyword hcls htext => exact Laid.nil.cons (.keyword hcls htext)
  | number hcls => exact Laid.nil.cons (.number hcls)
  | string hcls => exact Laid.nil.cons (.string hcls)
  | template hfirst hchunks hlast ih => exact (ih.left _).skip.cons (.template hfirst hchunks hlast)
  | array hfirst helements hlast ih => exact (ih.left _).skip.cons (.array hfirst helements hlast)
  | object hfirst hmembers hlast ih => exact (ih.left _).skip.cons (.object hfirst hmembers hlast)
  | shorthand hcls =>
    -- The name stands for the key and for the value.
    exact ((Laid.nil.cons (.name hcls)).cons (.name hcls)).cons (.shorthand hcls)
  | @property t colon vs key value hkey hcolon hvalue ihk ihv =>
    exact (ihk.append ihv.skip).cons (.property hkey hcolon hvalue)
  | computed hfirst hkey hlast hcolon hvalue ihk ihv =>
    exact (ihk.append ihv.skip.skip).skip.cons (.computed hfirst hkey hlast hcolon hvalue)
  | spread hdots hx ih => exact ih.skip.cons (.spread hdots hx)
  | member hobj hpoint hcls ih =>
    exact (ih.append (Laid.nil.cons (.name hcls)).skip).cons (.member hobj hpoint hcls)
  | index hobj hmark hfirst hprop hlast iho ihp =>
    refine Laid.cons ?_ (.index hobj hmark hfirst hprop hlast)
    simp only [List.append_assoc]
    exact iho.append (((ihp.left _).skip).right _)
  | call hcallee hmark hfirst hargs hlast ihc iha =>
    refine Laid.cons ?_ (.call hcallee hmark hfirst hargs hlast)
    simp only [List.append_assoc]
    exact ihc.append (((iha.left _).skip).right _)
  | function hasync hparams harrow hbody ihp ihb =>
    exact ((ihp.right _).append ihb.skip).cons (.function hasync hparams harrow hbody)
  | param hcls => exact Laid.nil.cons (.name hcls)
  | params _ _ _ ih => exact (ih.left _).skip
  | binary hop hsign hleft hright ihl ihr =>
    exact (ihl.append ihr.skip).cons (.binary hop hsign hleft hright)
  | unary hop hsign hx ih => exact ih.skip.cons (.unary hop hsign hx)
  | paren hfirst hx hlast ih => exact (ih.left _).skip.cons (.paren hfirst hx hlast)
  | item _ ih => simpa [Phrase.nodes, nodesAll] using ih
  | items _ _ _ ihn ihs => exact ihn.append ihs.skip
  | noList => exact .nil
  | list _ ih => exact ih
  | listComma _ _ ih => exact ih.left _
  | lastChunk => exact .nil
  | chars _ _ _ ih => exact ih.skip
  | hole _ _ _ _ ihx ihm => exact (ihx.append ihm.skip).skip
  | bareDecl hword hkeyword hcls =>
    exact (Laid.nil.cons (.name hcls)).skip.cons (.bareDecl hword hkeyword hcls)
  | varDecl hword hkeyword hcls hequals hinit ih =>
    exact ((Laid.nil.cons (.name hcls)).append ih.skip).skip.cons
      (.varDecl hword hkeyword hcls hequals hinit)
  | exprStmt hx ih => exact ih.cons (.exprStmt hx)
  | noBody => exact .nil
  | semicolon _ _ ih => exact ih.skip
  | statement _ _ ihn ihm => exact ihn.append ihm

/-! ## Order -/

theorem isChain_of_part {us ts : List Token} (h : ts.IsChain Seam) (hpart : us <:+: ts) :
    us.IsChain Seam := by
  obtain ⟨as, bs, rfl⟩ := hpart
  exact h.left_of_append.right_of_append

theorem ordered_of_isChain {ts : List Token} (h : ts.IsChain Seam) :
    (ts.map fun t => t.pos.offset).Pairwise (· ≤ ·) := by
  have hchain : (ts.map fun t => t.pos.offset).IsChain (· ≤ ·) := by
    refine (List.isChain_map _).2 (h.imp fun t u hseam => ?_)
    have := hseam.behind
    omega
  exact hchain.pairwise

/-- The last token of some starts behind the first one. -/
theorem stop_le_of_isChain {t u : Token} {ts : List Token} (h : (t :: (ts ++ [u])).IsChain Seam) :
    t.pos.offset + t.text.length ≤ u.pos.offset := by
  cases ts with
  | nil => exact (List.isChain_cons_cons.1 h).1.behind
  | cons v ts =>
    obtain ⟨hseam, hrest⟩ := List.isChain_cons_cons.1 h
    have hle : v.pos.offset ≤ u.pos.offset := (List.pairwise_cons.1 (ordered_of_isChain hrest)).1 _
      (List.mem_map_of_mem (List.mem_append_right _ (List.mem_singleton_self u)))
    have := hseam.behind
    omega

/-- Nothing starts in front of the first token. -/
theorem Laid.offset_le {ns : List Node} {t : Token} {ts : List Token} (h : Laid ns (t :: ts))
    (hts : ((t :: ts).map fun t => t.pos.offset).Pairwise (· ≤ ·)) {n : Node} (hn : n ∈ ns) :
    t.pos.offset ≤ n.position.offset := by
  obtain ⟨u, hu, hpos⟩ := h.exists_start hn
  rw [hpos]
  rcases List.mem_cons.1 hu with rfl | hu
  · exact Int.le_refl _
  · exact (List.pairwise_cons.1 hts).1 _ (List.mem_map_of_mem hu)

/-- The places of nodes are ordered as those of the tokens among which they are laid out. -/
theorem Laid.ordered {ns : List Node} {ts : List Token} (h : Laid ns ts)
    (hts : (ts.map fun t => t.pos.offset).Pairwise (· ≤ ·)) :
    (ns.map fun n => n.position.offset).Pairwise (· ≤ ·) := by
  induction h with
  | nil => exact .nil
  | skip _ ih => exact ih (List.pairwise_cons.1 hts).2
  | @pick n ns us vs hn more ih =>
    obtain ⟨t, us', rfl, hpos, -⟩ := hn.exists_first
    refine List.pairwise_cons.2 ⟨fun i hi => ?_, ih hts⟩
    obtain ⟨m, hm, rfl⟩ := List.mem_map.1 hi
    show n.position.offset ≤ m.position.offset
    rw [hpos]
    exact more.offset_le hts hm

/-! ## Templates -/

/-- The bytes of a source between two offsets. -/
def Text.slice (src : Text) (start stop : Nat) : Text := (src.drop start).take (stop - start)

/-- The offset of the first byte of a token. -/
def Token.start (t : Token) : Nat := t.pos.offset.toNat

/-- The offset behind a token. -/
def Token.stop (t : Token) : Nat := t.start + t.text.length

/-- The rest of a template behind the delimiter `opening`. Each chunk is what the source has up to
the next delimiter, and each expression is written between the two delimiters of its hole. -/
inductive Sliced (src : Text) : Token → List Token → List Quasi → List Node → Prop
  | last {opening closing : Token} {chars : List Token} {q : Quasi}
      (hchars : ∀ t ∈ chars, t.cls = .templateChars ∨ t.cls = .dollar)
      (hclosing : closing.bare = ⟨.templateEnd, [96]⟩)
      (hraw : q.raw = src.slice opening.stop closing.start) :
      Sliced src opening (chars ++ [closing]) [q] []
  | hole {opening first last : Token} {chars us vs : List Token} {q : Quasi} {x : Node}
      {quasis : List Quasi} {exprs : List Node}
      (hchars : ∀ t ∈ chars, t.cls = .templateChars ∨ t.cls = .dollar)
      (hfirst : first.bare = ⟨.exprStart, [36, 123]⟩)
      (hraw : q.raw = src.slice opening.stop first.start) (hx : Written (.node x) us)
      (hlast : last.bare = ⟨.exprEnd, [125]⟩) (more : Sliced src last vs quasis exprs) :
      Sliced src opening (chars ++ (first :: us ++ last :: vs)) (q :: quasis) (x :: exprs)

/-- A template that starts at a place, with its delimiters among the tokens. -/
def SlicedAt (src : Text) (ts : List Token) (pos : Position) (quasis : List Quasi)
    (exprs : List Node) : Prop :=
  ∃ first us, first :: us <:+: ts ∧ first.bare = ⟨.backtick, [96]⟩ ∧ first.pos = pos ∧
    Sliced src first us quasis exprs

theorem Token.Located.offset_eq {file src : Text} {t : Token} (h : t.Located file src) :
    t.pos.offset = t.start := by
  obtain ⟨before, after, -, hpos⟩ := h
  rw [Token.start, hpos]
  rfl

/-- A token that lies in the source is a slice of it. -/
theorem Token.Located.slice_eq {file src : Text} {t : Token} (h : t.Located file src) {stop : Nat}
    (hstop : t.stop ≤ stop) : src.slice t.start stop = t.text ++ src.slice t.stop stop := by
  obtain ⟨before, after, rfl, hpos⟩ := h
  have hstart : t.start = before.length := by rw [Token.start, hpos]; rfl
  obtain ⟨k, rfl⟩ := Nat.exists_eq_add_of_le hstop
  have hwhole : t.stop + k - t.start = t.text.length + k := by unfold Token.stop; omega
  have hbehind : (before ++ (t.text ++ after)).drop t.stop = after := by
    rw [Token.stop, hstart, ← List.drop_drop, List.drop_left, List.drop_left]
  unfold Text.slice
  rw [hwhole, hbehind, hstart, List.drop_left, Nat.add_sub_cancel_left, List.take_length_add_append]

/-- Tokens of a template that touch each other make up a slice of the source. -/
theorem slice_of_chars {file src : Text} {t u : Token} {chars : List Token}
    (ht : t.cls ∈ templateOpeners) (hchars : ∀ c ∈ chars, c.cls = .templateChars ∨ c.cls = .dollar)
    (hchain : (t :: (chars ++ [u])).IsChain Seam)
    (hlocated : ∀ c ∈ t :: (chars ++ [u]), c.Located file src) :
    src.slice t.stop u.start = chars.flatMap Token.text := by
  induction chars generalizing t with
  | nil =>
    have htouch := (List.isChain_cons_cons.1 hchain).1.touch ht
    rw [(hlocated t (by simp)).offset_eq, (hlocated u (by simp)).offset_eq] at htouch
    have hstop : u.start = t.stop := by unfold Token.stop; omega
    simp [Text.slice, hstop]
  | cons c chars ih =>
    obtain ⟨hseam, hrest⟩ := List.isChain_cons_cons.1 hchain
    have hlocated' : ∀ d ∈ c :: (chars ++ [u]), d.Located file src := fun d hd =>
      hlocated d (List.mem_cons_of_mem t hd)
    have hopener : c.cls ∈ templateOpeners := by
      rcases hchars c (List.mem_cons_self ..) with hcls | hcls <;> rw [hcls] <;> decide
    have hmore := ih hopener (fun d hd => hchars d (List.mem_cons_of_mem c hd)) hrest hlocated'
    -- The slice up to the last token is the first token followed by the slice behind it.
    have htouch := hseam.touch ht
    have hc := hlocated' c (List.mem_cons_self ..)
    rw [(hlocated t (by simp)).offset_eq, hc.offset_eq] at htouch
    have hstart : t.stop = c.start := by unfold Token.stop; omega
    -- The seams run upwards, so this token does not reach behind the start of the last one.
    have hstop : c.stop ≤ u.start := by
      have hbehind := stop_le_of_isChain hrest
      rw [hc.offset_eq, (hlocated' u (by simp)).offset_eq] at hbehind
      unfold Token.stop
      omega
    rw [hstart, hc.slice_eq hstop, hmore, List.flatMap_cons]

/-- The chunks of a template are slices of the source. -/
theorem Written.sliced {file src raw : Text} {quasis : List Quasi} {exprs : List Node}
    {us : List Token} (h : Written (.chunks raw quasis exprs) us) {opening closing : Token}
    {chars : List Token} (hopening : opening.cls ∈ templateOpeners)
    (hchars : ∀ t ∈ chars, t.cls = .templateChars ∨ t.cls = .dollar)
    (hraw : raw = chars.flatMap Token.text) (hclosing : closing.bare = ⟨.templateEnd, [96]⟩)
    (hchain : (opening :: (chars ++ (us ++ [closing]))).IsChain Seam)
    (hlocated : ∀ t ∈ opening :: (chars ++ (us ++ [closing])), t.Located file src) :
    Sliced src opening (chars ++ (us ++ [closing])) quasis exprs := by
  generalize hph : Phrase.chunks raw quasis exprs = ph at h
  -- The tokens of the chunk that is being read are collected in `chars`.
  induction h generalizing raw quasis exprs opening chars with
  | @lastChunk q =>
    cases hph
    refine .last hchars hclosing ?_
    rw [slice_of_chars hopening hchars hchain hlocated, hraw]
  | @chars raw' t us quasis' exprs' hcls _ _ ih =>
    cases hph
    have hsplit : chars ++ (t :: us ++ [closing]) = chars ++ [t] ++ (us ++ [closing]) := by simp
    rw [hsplit] at hchain hlocated ⊢
    refine ih hopening (fun u hu => ?_) (by rw [hraw]; simp) hchain hlocated rfl
    rcases List.mem_append.1 hu with hu | hu
    · exact hchars u hu
    · rwa [List.mem_singleton.1 hu]
  | @hole q first last us vs x quasis' exprs' hfirst hx hlast _ _ ih =>
    cases hph
    have hsplit : chars ++ (first :: us ++ last :: vs ++ [closing]) =
        chars ++ (first :: us ++ last :: (vs ++ [closing])) := by simp
    rw [hsplit] at hchain hlocated ⊢
    have hfront : opening :: (chars ++ [first]) <+:
        opening :: (chars ++ (first :: us ++ last :: (vs ++ [closing]))) :=
      ⟨us ++ last :: (vs ++ [closing]), by simp⟩
    have hback : last :: ([] ++ (vs ++ [closing])) <:+
        opening :: (chars ++ (first :: us ++ last :: (vs ++ [closing]))) :=
      ⟨opening :: (chars ++ first :: us), by simp⟩
    have hopener : last.cls ∈ templateOpeners := by rw [cls_of_bare hlast]; decide
    have hrest := ih hopener (by simp) rfl (isChain_of_part hchain hback.isInfix)
      (fun t ht => hlocated t (hback.subset ht)) rfl
    refine .hole hchars hfirst ?_ hx hlast hrest
    rw [slice_of_chars hopening hchars (isChain_of_part hchain hfront.isInfix)
      fun t ht => hlocated t (hfront.subset ht), hraw]
  | _ => cases hph

/-- A template lies between its delimiters. -/
theorem slicedAt_of_written {file src : Text} {pos : Position} {quasis : List Quasi}
    {exprs : List Node} {us ts : List Token}
    (h : Written (.node (.templateLiteral pos quasis exprs)) us) (hpart : us <:+: ts)
    (hchain : ts.IsChain Seam) (hlocated : ∀ t ∈ ts, t.Located file src) :
    SlicedAt src ts pos quasis exprs := by
  cases h with
  | @template first last us _ _ hfirst hchunks hlast =>
    have hopener : first.cls ∈ templateOpeners := by rw [cls_of_bare hfirst]; decide
    have hsliced : Sliced src first ([] ++ (us ++ [last])) quasis exprs :=
      hchunks.sliced hopener (by simp) rfl hlast (isChain_of_part hchain hpart)
        fun t ht => hlocated t (hpart.subset ht)
    exact ⟨first, us ++ [last], hpart, hfirst, rfl, hsliced⟩

/-! ## Places are right -/

/-- The line and the column of a place are those of its offset. -/
structure Position.IsTruthful (src : Text) (p : Position) : Prop where
  /-- The offset lies within the source. -/
  offset : 0 ≤ p.offset ∧ p.offset ≤ src.length
  /-- The line counts the line feeds in front of the offset. -/
  line : p.line = 1 + (src.take p.offset.toNat).count Text.newline
  /-- The column counts the glyphs between the last line feed and the offset. -/
  column : p.column = 1 + (Text.lastLine (src.take p.offset.toNat)).glyphCount

theorem Position.isTruthful_behind (file before rest : Text) :
    (Position.behind file before).IsTruthful (before ++ rest) := by
  have htake : (before ++ rest).take (Position.behind file before).offset.toNat = before :=
    List.take_left
  refine ⟨⟨Int.natCast_nonneg _, ?_⟩, ?_, ?_⟩
  · show (before.length : Int) ≤ ((before ++ rest).length : Nat)
    rw [List.length_append]
    omega
  · rw [htake]
    rfl
  · rw [htake]
    rfl

theorem Token.Located.isTruthful {file src : Text} {t : Token} (h : t.Located file src) :
    t.pos.IsTruthful src := by
  obtain ⟨before, after, rfl, hpos⟩ := h
  rw [hpos]
  exact Position.isTruthful_behind file before (t.text ++ after)

/-- The source has the text of a token at its place. -/
theorem Token.Located.isPrefix {file src : Text} {t : Token} (h : t.Located file src) :
    t.text <+: src.drop t.pos.offset.toNat := by
  obtain ⟨before, after, rfl, hpos⟩ := h
  have hdrop : (before ++ (t.text ++ after)).drop t.pos.offset.toNat = t.text ++ after := by
    rw [hpos]
    exact List.drop_left
  rw [hdrop]
  exact List.prefix_append ..

/-- The text of a leaf as it stands in the source. -/
def Node.leafText? : Node → Option Text
  | identifier _ name => some name
  | stringLiteral _ _ raw => some raw
  | numberLiteral _ raw => some raw
  | keywordLiteral _ value => some value
  | _ => none

theorem Written.leaf {n : Node} {ts : List Token} (h : Written (.node n) ts) {text : Text}
    (htext : n.leafText? = some text) : ∃ t, ts = [t] ∧ n.position = t.pos ∧ text = t.text := by
  cases h with
  | @name t _ | @keyword t _ _ | @number t _ | @string t _ _ =>
    exact ⟨t, rfl, rfl, (Option.some.inj htext).symm⟩
  | _ => cases htext

theorem isTruthful_of_error {limit : Option Nat} {file src : Text} {e : ParseError}
    (h : parse file src limit = .error e) : e.pos.IsTruthful src := by
  unfold parse at h
  split at h
  · rename_i f hf
    obtain rfl := Except.error.inj h
    obtain ⟨before, hsrc, hpos⟩ := inPlace_of_failure hf
    show f.pos.IsTruthful src
    rw [hpos, hsrc]
    exact Position.isTruthful_behind file before f.rest
  · rename_i ts hts
    obtain ⟨hlocated, -⟩ := inPlace_of_tokens hts
    obtain ⟨us, last, rfl, hlast, -⟩ := end_of_tokens hts
    obtain ⟨hfault, hplaces⟩ := within_derive
      ⟨last, List.mem_append_right us (List.mem_singleton_self last), cls_of_bare hlast⟩ limit
    split at h
    · rename_i found hfound
      obtain rfl := Except.error.inj h
      exact (hlocated _ (hfault found hfound)).isTruthful
    · rename_i tree htree
      -- What the tree says of places was found out at the starts of rules, which are tokens.
      have hfails : (build tree).FailsAt (Position.IsTruthful src) := by
        refine failsAt_build.1 tree fun p hp => ?_
        obtain ⟨t, ht, rfl⟩ := List.mem_map.1 (hplaces tree htree p hp)
        exact (hlocated t ht).isTruthful
      refine hfails e ?_
      unfold Checked.toExcept at h
      split at h
      · rename_i he
        rw [he, Except.error.inj h]
      · cases h

/-- All places that a source is answered with are right, with a limit or without one. In a tree, the
source has the text of each leaf at its place and the chunks of each template between its
delimiters, and the places of the nodes, each in front of those below it, are in order. -/
theorem parse_places_truthful (file src : Text) :
    (∀ limit e, parse file src limit = .error e → e.pos.IsTruthful src) ∧
      ∀ t, parse file src = .ok t →
        (∀ n ∈ t.nodes, n.position.IsTruthful src) ∧
        (∀ n ∈ t.nodes, ∀ text ∈ n.leafText?, text <+: src.drop n.position.offset.toNat) ∧
        (∃ ts, tokens file src = .ok ts ∧ ∀ pos quasis exprs,
          .templateLiteral pos quasis exprs ∈ t.nodes → SlicedAt src ts pos quasis exprs) ∧
        (t.nodes.map fun n => n.position.offset).Pairwise (· ≤ ·) := by
  refine ⟨fun limit e he => isTruthful_of_error he, fun t ht => ?_⟩
  obtain ⟨ts, last, body, hts, hlast, rfl, hbody⟩ := written_of_parse ht
  obtain ⟨hlocated, hchain⟩ := inPlace_of_tokens hts
  have hordered := ordered_of_isChain hchain
  have hlaid : Laid (nodesAll body) (ts ++ [last]) := hbody.laid.left [last]
  obtain ⟨first, more, hall⟩ : ∃ first more, ts ++ [last] = first :: more :=
    List.exists_cons_of_ne_nil (by simp)
  rw [hall] at hlocated hchain hordered hlaid hts ⊢
  refine ⟨fun n hn => ?_, fun n hn text htext => ?_, ⟨_, hts, fun pos quasis exprs hn => ?_⟩, ?_⟩
  · rcases List.mem_cons.1 hn with rfl | hn
    · exact (hlocated first (List.mem_cons_self ..)).isTruthful
    · obtain ⟨u, hu, hpos⟩ := hlaid.exists_start hn
      rw [hpos]
      exact (hlocated u hu).isTruthful
  · rcases List.mem_cons.1 hn with rfl | hn
    · cases htext
    · obtain ⟨us, hpart, hus⟩ := hlaid.exists_stretch hn
      obtain ⟨u, rfl, hpos, rfl⟩ := hus.leaf htext
      rw [hpos]
      exact (hlocated u (hpart.subset (List.mem_singleton_self u))).isPrefix
  · rcases List.mem_cons.1 hn with hn | hn
    · cases hn
    · obtain ⟨us, hpart, hus⟩ := hlaid.exists_stretch hn
      exact slicedAt_of_written hus hpart hchain hlocated
  · refine List.pairwise_cons.2 ⟨fun i hi => ?_, hlaid.ordered hordered⟩
    obtain ⟨n, hn, rfl⟩ := List.mem_map.1 hi
    exact hlaid.offset_le hordered hn

/-- A text of two bytes a glyph, a line feed inside a template and a stray byte inside another. -/
def mixedGlyphs : Text := lit "f('\u00e9', `\n\u00e9$\x7bg\x7d`) + `" ++ [200] ++ lit "` + h"

/-- Its places are right, and so is the place of the first byte that no token starts with. -/
theorem mixedGlyphs_places_truthful : ∃ t e, parse [] mixedGlyphs = .ok t ∧
    parse [] (mixedGlyphs ++ [200]) = .error e ∧ e.pos.IsTruthful (mixedGlyphs ++ [200]) ∧
    (∀ n ∈ t.nodes, n.position.IsTruthful mixedGlyphs) ∧
    (t.nodes.map fun n => n.position.offset).Pairwise (· ≤ ·) := by
  have hok : (parse [] mixedGlyphs).isOk = true := by decide +kernel
  have hbad : (parse [] (mixedGlyphs ++ [200])).isOk = false := by decide +kernel
  cases h : parse [] mixedGlyphs with
  | error e => simp [h, Except.isOk, Except.toBool] at hok
  | ok t =>
    cases h' : parse [] (mixedGlyphs ++ [200]) with
    | ok t' => simp [h', Except.isOk, Except.toBool] at hbad
    | error e =>
      obtain ⟨htruthful, -, -, hordered⟩ := (parse_places_truthful [] mixedGlyphs).2 t h
      have hplaces := (parse_places_truthful [] (mixedGlyphs ++ [200])).1 none e h'
      exact ⟨t, e, rfl, rfl, hplaces, htruthful, hordered⟩

end CubeSchema
