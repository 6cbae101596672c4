import CubeSchema.Proofs.Text.Quoting
import CubeSchema.Proofs.Tree.Sequence
import CubeSchema.Tree.Traverse

/-!
# Reading quoted texts back

A string literal that was made by hand has a value and no source text, and is printed as its value
between single quotes. `format_stringLiteral_read_back` says that this text is read as the literal
again: it is cut into one token, and the value is what was quoted.

What is printed is an expression without a semicolon. The grammar makes no difference between a
semicolon and the end of the source, so it is read like the statement that has one
(`FormedStatement.parse_unended`).
-/

namespace CubeSchema

open Lexeme Lexer Grammar Node ParseTree

/-- What a rule yields, it gives, at the places of the tokens. -/
theorem Yields.gives {r : Rule} {ts rest : List Token} {n : Node} (h : Yields r ts rest n) :
    ∃ m, Gives r ts rest m ∧ m.unplaced = n.unplaced := by
  obtain ⟨pos, kids, hread, m, hm, heq⟩ := h
  obtain ⟨kids', hread', hkids⟩ := reads_rule_takes.1 hread
  injection List.singleton_inj.1 hkids with _ hpos hsame
  subst hpos hsame
  exact ⟨m, ⟨kids, hread', hm⟩, heq⟩

/-- A statement is read without the semicolon behind it as well, where the source ends. -/
theorem FormedStatement.parse_unended {s : Node} (h : FormedStatement s)
    (hlegible : s.all isLegible = true) {src : Text} {bs : List BareToken}
    (hlexemes : s.lexemes = bs ++ [mark ";"]) (hsrc : Lexes [] src bs) (file : Text) :
    ∃ pos n, parse file src = .ok (.program pos [n]) ∧ n.unplaced = s.regrouped.unplaced := by
  obtain ⟨ts, hts, hbares⟩ := hsrc.tokens_eq file
  obtain ⟨us, lasts, rfl, hus, hlasts⟩ := Spells.append hbares
  obtain ⟨last, rfl, hlast⟩ := hlasts.single
  -- The statement is read in front of a semicolon of its own, and then in front of the end.
  let semi : Token := ⟨.punct, lit ";", .unknown⟩
  have hspells : Spells (us ++ [semi]) s.lexemes := by
    rw [hlexemes, Spells, List.map_append, hus]
    rfl
  obtain ⟨vs, semi', heq, hsemi, hyields⟩ := h.yields hlegible hspells [last]
  obtain ⟨rfl, heq⟩ := List.append_inj' heq rfl
  obtain ⟨m, hm, hmap⟩ := hyields.gives
  have hhalts : Halts (semi' :: [last]) :=
    ⟨semi', _, rfl, .inr ⟨cls_of_bare hsemi, text_of_bare hsemi⟩⟩
  have hends : Halts [last] := ⟨last, [], rfl, .inl (cls_of_bare hlast)⟩
  obtain ⟨n, rest, hn, hrest, hmap'⟩ := hm.alike (by simp) hhalts hends (.append rfl)
  obtain rfl := hrest.eq_tail
  exact ⟨_, n, parse_of_statements hts hlast (.cons hn .nil), hmap'.trans hmap⟩

/-! ## String literals -/

/-- A text that ends in a quote is a line of its own. -/
theorem layout_quoted (u : Text) : layout [.text (u ++ [39])] = u ++ [39] ++ lit "\n" := by
  have htext : Layout.text 0 true [.text (u ++ [39])] = u ++ [39] := by
    simp [Layout.text, Text.spaces]
  rw [layout, htext, Text.trimRightBy, List.reverse_append, List.reverse_singleton,
    List.singleton_append, List.dropWhile_cons_of_neg (by decide), List.reverse_cons,
    List.reverse_reverse]
  rfl

/-- A string literal without a source text is printed as its value in quotes. -/
theorem format_stringLiteral (pos : Position) (t : Text) :
    (Node.stringLiteral pos t []).format = .ok (t.singleQuoted ++ lit "\n") := by
  have hnamed : (Node.stringLiteral pos t []).isNamed = true := rfl
  rw [format, if_pos hnamed, print]
  exact congrArg Except.ok (layout_quoted (39 :: t.codePoints.flatMap Text.singleQuotedPoint))

/-- What is a string literal in a statement but for its places is one. -/
theorem eq_exprStmt_stringLiteral {n : Node} {pos : Position} {value raw : Text}
    (h : n.unplaced = (Node.exprStmt (.stringLiteral pos value raw)).unplaced) :
    ∃ q, n = .exprStmt (.stringLiteral q value raw) := by
  cases n with
  | exprStmt x => cases x <;> simp_all [unplaced]
  | _ => simp [unplaced] at h

/-- A string literal is quoted when it is printed, and read as the same string. -/
theorem format_stringLiteral_read_back {t : Text} (h : t.isUtf8 = true) (pos : Position)
    (file : Text) :
    ∃ printed, (Node.stringLiteral pos t []).format = .ok printed ∧
      (∃ literal last, tokens file printed = .ok [literal, last] ∧
        literal.bare = ⟨.string, t.singleQuoted⟩ ∧ last.bare = endToken) ∧
      Text.unescape (t.singleQuoted.drop 1).dropLast = some t ∧
      ∃ p q, parse file printed =
        .ok (.program p [.exprStmt (.stringLiteral q t t.singleQuoted)]) := by
  have hraw := t.isString_singleQuoted
  have hvalue := Text.unescape_singleQuoted h
  have hlexes : Lexes [] (t.singleQuoted ++ lit "\n") [⟨.string, t.singleQuoted⟩] :=
    .string inCode_nil hraw (.blank inCode_nil (by decide) .done)
  have hformed : FormedStatement (.exprStmt (.stringLiteral .unknown t t.singleQuoted)) :=
    .exprStmt (.stringLiteral hraw hvalue) rfl rfl
  refine ⟨_, format_stringLiteral pos t, ?_, hvalue, ?_⟩
  · obtain ⟨ts, hts, hbares⟩ := hlexes.tokens_eq file
    obtain ⟨literal, us, rfl, hliteral, hus⟩ := Spells.cons hbares
    obtain ⟨last, rfl, hlast⟩ := hus.single
    exact ⟨literal, last, hts, hliteral, hlast⟩
  · obtain ⟨p, n, hparse, hn⟩ := hformed.parse_unended rfl rfl hlexes file
    obtain ⟨q, rfl⟩ := eq_exprStmt_stringLiteral hn
    exact ⟨p, q, hparse⟩

/-- Quotes, backslashes, characters behind a backslash, control characters and characters of two,
three and four bytes. -/
def assortedText : Text := lit "it's\n\"here\" \\n \\\\ \\u0041 \x00\x1f\t\x7f é€😀\\"

theorem assortedText_read_back : assortedText.isUtf8 = true ∧
    ∃ printed, (Node.stringLiteral .unknown assortedText []).format = .ok printed ∧
      ∃ p q, parse [] printed =
        .ok (.program p [.exprStmt (.stringLiteral q assortedText assortedText.singleQuoted)]) := by
  have hutf8 : assortedText.isUtf8 = true := by decide +kernel
  obtain ⟨printed, hprinted, -, -, hparse⟩ := format_stringLiteral_read_back hutf8 .unknown []
  exact ⟨hutf8, printed, hprinted, hparse⟩

end CubeSchema
