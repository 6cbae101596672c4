import CubeSchema.Tree.Print

/-!
# Indentation

Printing a node goes to another level only inside of objects, and comes back at the end of each. So
a node leaves the level as it was (`balanced_pieces`), and every statement of a program starts a
line of its own at the outermost level (`text_statementLines`).
-/

namespace CubeSchema

open Node

namespace Layout

/-- Pieces that end at the level at which they start, and never go below it. -/
inductive Balanced : List Piece → Prop
  | nil : Balanced []
  | text (t : Text) : Balanced [.text t]
  | newline : Balanced [.newline]
  | append {ps qs : List Piece} (hps : Balanced ps) (hqs : Balanced qs) : Balanced (ps ++ qs)
  | nested {ps : List Piece} (h : Balanced ps) : Balanced (.indent :: ps ++ [.dedent])

namespace Balanced

variable {ps : List Piece}

/-- What is printed behind balanced pieces is at the level in front of them. -/
theorem text_append (h : Balanced ps) (level : Nat) (b : Bool) : ∃ b', ∀ qs,
    Layout.text level b (ps ++ qs) = Layout.text level b ps ++ Layout.text level b' qs := by
  induction h generalizing level b with
  | nil => exact ⟨b, fun _ => rfl⟩
  | text t => exact ⟨false, fun qs => by simp [Layout.text]⟩
  | newline => exact ⟨true, fun qs => by simp [Layout.text]⟩
  | append _ _ ihps ihqs =>
    obtain ⟨b₁, hps⟩ := ihps level b
    obtain ⟨b₂, hqs⟩ := ihqs level b₁
    exact ⟨b₂, fun qs => by rw [List.append_assoc, hps, hqs, hps, List.append_assoc]⟩
  | @nested inner _ ih =>
    obtain ⟨b', hps⟩ := ih (level + 1) b
    have hindent : ∀ qs, Layout.text level b (.indent :: inner ++ qs) =
        Layout.text (level + 1) b (inner ++ qs) := fun _ => rfl
    refine ⟨b', fun qs => ?_⟩
    rw [List.append_assoc, hindent, hindent, hps, hps, List.append_assoc]
    simp [Layout.text]

theorem cons_text (h : Balanced ps) (t : Text) : Balanced (.text t :: ps) := .append (.text t) h

theorem cons_newline (h : Balanced ps) : Balanced (.newline :: ps) := .append .newline h

theorem snoc_text (h : Balanced ps) (t : Text) : Balanced (ps ++ [.text t]) := .append h (.text t)

theorem parenthesized (h : Balanced ps) (needed : Bool) :
    Balanced (Node.parenthesized needed ps) := by
  cases needed with
  | false => exact h
  | true => exact (h.snoc_text _).cons_text _

end Balanced

theorem balanced_separated (t : Text) {pss : List (List Piece)} (h : ∀ ps ∈ pss, Balanced ps) :
    Balanced (separated (.text t) pss) := by
  induction pss with
  | nil => exact .nil
  | cons ps pss ih =>
    have hps := h ps (List.mem_cons_self ..)
    cases pss with
    | nil => exact hps
    | cons qs pss =>
      have hrest := ih fun rs hrs => h rs (List.mem_cons_of_mem _ hrs)
      exact hps.append (hrest.cons_text t)

theorem balanced_memberLines {pss : List (List Piece)} (h : ∀ ps ∈ pss, Balanced ps) :
    Balanced (memberLines pss) := by
  induction pss with
  | nil => exact .nil
  | cons ps pss ih =>
    have hrest := ih fun rs hrs => h rs (List.mem_cons_of_mem _ hrs)
    exact (h ps (List.mem_cons_self ..)).append (hrest.cons_newline.cons_text _)

theorem balanced_statementLines {pss : List (List Piece)} (h : ∀ ps ∈ pss, Balanced ps) :
    Balanced (statementLines pss) := by
  induction pss with
  | nil => exact .nil
  | cons ps pss ih =>
    have hps := h ps (List.mem_cons_self ..)
    cases pss with
    | nil => exact hps.append .newline
    | cons qs pss =>
      have hrest := ih fun rs hrs => h rs (List.mem_cons_of_mem _ hrs)
      exact hps.append hrest.cons_newline.cons_newline

theorem balanced_interleaved {quasis : List Quasi} {pss : List (List Piece)}
    (h : ∀ ps ∈ pss, Balanced ps) : Balanced (interleaved quasis pss) := by
  induction quasis generalizing pss with
  | nil => exact .nil
  | cons q quasis ih =>
    cases pss with
    | nil => exact (ih h).cons_text _
    | cons ps pss =>
      have hrest := ih fun rs hrs => h rs (List.mem_cons_of_mem _ hrs)
      have hps := h ps (List.mem_cons_self ..)
      exact ((hps.append (hrest.cons_text _)).cons_text _).cons_text _

end Layout

open Layout

namespace Node

mutual

/-- Printing a node leaves the level as it was. -/
theorem balanced_pieces (n : Node) : Balanced n.pieces := by
  cases n with
  | absent => exact .nil
  | program pos body => exact balanced_statementLines (balanced_piecesAll body)
  | varDecl pos keyword name init =>
    rw [pieces]
    refine (Balanced.snoc_text ?_ _).cons_text _
    split
    · exact .nil
    · exact (balanced_pieces init).cons_text _
  | exprStmt x => exact ((balanced_pieces x).parenthesized _).snoc_text _
  | identifier | stringLiteral | numberLiteral | keywordLiteral => exact .text _
  | templateLiteral pos quasis exprs =>
    exact ((balanced_interleaved (balanced_piecesAll exprs)).snoc_text _).cons_text _
  | array pos elements =>
    rw [pieces]
    refine (Balanced.snoc_text (.append (balanced_separated _ (balanced_piecesAll elements)) ?_)
      _).cons_text _
    split
    · exact .text _
    · exact .nil
  | object pos properties =>
    rw [pieces]
    split
    · exact .text _
    · -- The closing brace comes behind the last line of the members, at the outer level again.
      have hnested := (balanced_memberLines (balanced_piecesAll properties)).nested.snoc_text
        (lit "\x7d")
      rw [List.append_assoc] at hnested
      exact hnested.cons_newline.cons_text _
  | property pos key value computed shorthand =>
    rw [pieces]
    split
    · exact balanced_pieces key
    · refine .append ?_ ((balanced_pieces value).cons_text _)
      split
      · exact ((balanced_pieces key).snoc_text _).cons_text _
      · exact balanced_pieces key
  | spread pos x => exact (balanced_pieces x).cons_text _
  | member obj prop computed optional =>
    rw [pieces]
    refine .append (.append ((balanced_pieces obj).parenthesized _) ?_) ?_
    · -- Whichever of the four marks it is, it is one piece of text.
      have hmark : ∃ t, accessMark computed optional = .text t := by
        cases computed <;> cases optional <;> exact ⟨_, rfl⟩
      obtain ⟨t, ht⟩ := hmark
      exact ht ▸ (balanced_pieces prop).cons_text t
    · split
      · exact .text _
      · exact .nil
  | call callee args optional =>
    rw [pieces]
    refine .append (.append (.append ((balanced_pieces callee).parenthesized _) ?_)
      ((balanced_separated _ (balanced_piecesAll args)).cons_text _)) (.text _)
    split
    · exact .text _
    · exact .nil
  | function pos params body async =>
    rw [pieces]
    refine .append (.append ?_ ((balanced_separated _ fun ps hps => ?_).cons_text _))
      (((balanced_pieces body).parenthesized _).cons_text _)
    · split
      · exact .text _
      · exact .nil
    · obtain ⟨p, -, rfl⟩ := List.mem_map.1 hps
      exact .text _
  | binary left op right =>
    exact (balanced_pieces left).append ((balanced_pieces right).cons_text _)
  | unary pos op x =>
    have hsign : Balanced (.text op :: if isWordOperator op then [word " "] else []) := by
      refine Balanced.cons_text ?_ op
      split
      · exact .text _
      · exact .nil
    exact hsign.append (balanced_pieces x)
  | paren pos x => exact ((balanced_pieces x).snoc_text _).cons_text _

theorem balanced_piecesAll (ns : List Node) : ∀ ps ∈ piecesAll ns, Balanced ps := by
  cases ns with
  | nil => simp [piecesAll]
  | cons n ns =>
    rw [piecesAll, List.forall_mem_cons]
    exact ⟨balanced_pieces n, balanced_piecesAll ns⟩

end

end Node

/-- Every statement of a program starts a line, and at the outermost level. -/
theorem text_statementLines (pre : List Node) (s : Node) (post : List Node) : ∃ front more,
    Layout.text 0 true (statementLines (piecesAll (pre ++ s :: post))) =
      front ++ Layout.text 0 true (s.pieces ++ .newline :: more) ∧
    (front = [] ∨ ∃ u, front = u ++ [Text.newline]) := by
  induction pre with
  | nil =>
    cases post with
    | nil => exact ⟨[], [], rfl, .inl rfl⟩
    | cons r post => exact ⟨[], _, rfl, .inl rfl⟩
  | cons r pre ih =>
    obtain ⟨front, more, heq, hfront⟩ := ih
    obtain ⟨b', happend⟩ := r.balanced_pieces.text_append 0 true
    have hlines : statementLines (piecesAll (r :: pre ++ s :: post)) =
        r.pieces ++ .newline :: .newline :: statementLines (piecesAll (pre ++ s :: post)) := by
      cases pre <;> rfl
    refine ⟨Layout.text 0 true r.pieces ++ Text.newline :: Text.newline :: front, more, ?_, ?_⟩
    · rw [hlines, happend, Layout.text, Layout.text, heq]
      simp
    · rcases hfront with rfl | ⟨u, rfl⟩
      · exact .inr ⟨Layout.text 0 true r.pieces ++ [Text.newline], by simp⟩
      · exact .inr ⟨Layout.text 0 true r.pieces ++ Text.newline :: Text.newline :: u, by simp⟩

end CubeSchema
