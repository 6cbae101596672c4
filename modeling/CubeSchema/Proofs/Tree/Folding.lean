import CubeSchema.Proofs.Tree.Chain

/-!
# The one way to nest operators

`Operator.fold` takes a chain in which every operator stands with its right operand. Here the chain
is given by its operands and its operators, as two lists of which the one is longer by one, and is
read through one index into both: `foldAt?` gives nothing when the index leaves a list or the climb
does not come to an end. It never does so, and gives the fold (`climbAt?_eq`).

What the fold is can be said without it: `Canonical` asks of every operation how tightly the
operations on its two sides bind. There is one canonical tree for given operands and operators, and
it is the fold (`fold_canonical`).
-/

namespace CubeSchema

namespace Node

/-- The operands of a tree of binary operations, from left to right. -/
def operands : Node → List Node
  | binary left _ right => left.operands ++ right.operands
  | n => [n]

/-- The operators of a tree of binary operations, from left to right. -/
def operators : Node → List Text
  | binary left op right => left.operators ++ op :: right.operators
  | _ => []

/-- The operator at the root of a node; what is no binary operation has none. -/
def rootOperator? : Node → Option Text
  | binary _ op _ => some op
  | _ => none

theorem operands_eq (n : Node) : n.operands = n.chainHead :: n.chainLinks.map Prod.snd := by
  fun_induction operands n with
  | case1 left op right ihl ihr => simp [chainHead, chainLinks, ihl, ihr]
  | case2 n hn =>
    have hb : n.isBinary = false := by
      cases n <;> first | rfl | exact absurd rfl (hn _ _ _)
    rw [chainHead_of_not_binary hb, chainLinks_of_not_binary hb, List.map_nil]

theorem operators_eq (n : Node) : n.operators = n.chainLinks.map Prod.fst := by
  fun_induction operators n with
  | case1 left op right ihl ihr => simp [chainLinks, ihl, ihr]
  | case2 n hn =>
    have hb : n.isBinary = false := by
      cases n <;> first | rfl | exact absurd rfl (hn _ _ _)
    rw [chainLinks_of_not_binary hb, List.map_nil]

end Node

namespace Operator

open Node

/-! ## Canonical trees -/

/-- A left operand binds at least as tightly as the operation, and strictly tighter when this is a
power. -/
def FitsLeft (op : Text) (left : Node) : Prop :=
  ∀ inner ∈ left.rootOperator?,
    if op = lit "**" then precedence op < precedence inner else precedence op ≤ precedence inner

/-- A right operand binds strictly tighter than the operation, or both are powers. -/
def FitsRight (op : Text) (right : Node) : Prop :=
  ∀ inner ∈ right.rootOperator?,
    precedence op < precedence inner ∨ (op = lit "**" ∧ inner = lit "**")

/-- Every operation of a tree has a left and a right operand that fit. -/
def Canonical : Node → Prop
  | .binary left op right =>
    FitsLeft op left ∧ FitsRight op right ∧ Canonical left ∧ Canonical right
  | _ => True

/-- Powers bind tightest. -/
theorem precedence_power : precedence (lit "**") = 12 := by decide

theorem precedence_lt_power {op : Text} (h : op ≠ lit "**") : precedence op < 12 := by
  have hbranch {c : Prop} [Decidable c] {a b : Nat} (ha : a < 12) (hb : b < 12) :
      (if c then a else b) < 12 := by split <;> assumption
  unfold precedence
  rw [if_neg h]
  repeat refine hbranch (by decide) ?_
  decide

theorem admitsLeft_iff_fits {op : Text} {left : Node} :
    admitsLeft op left = true ↔ FitsLeft op left := by
  cases left with
  | binary left inner right =>
    have hpower := precedence_power
    have hfits : FitsLeft op (.binary left inner right) ↔ if op = lit "**" then
        precedence op < precedence inner else precedence op ≤ precedence inner := by
      simp [FitsLeft, rootOperator?]
    rw [hfits, admitsLeft, decide_eq_true_iff, rightLevel]
    -- Equal precedences do for a left operand unless the operators are powers.
    by_cases hop : op = lit "**"
    · subst hop
      by_cases hinner : inner = lit "**"
      · simp [hinner]
      · have := precedence_lt_power hinner
        rw [if_neg hinner, if_pos rfl]
        omega
    · rw [if_neg hop]
      by_cases hinner : inner = lit "**"
      · have := precedence_lt_power hop
        subst hinner
        rw [if_pos rfl]
        omega
      · rw [if_neg hinner]
        omega
  | _ => simp [admitsLeft, FitsLeft, rootOperator?]

theorem bindsAt_iff_fits {op : Text} {right : Node} :
    bindsAt (rightLevel op) right = true ↔ FitsRight op right := by
  cases right with
  | binary left inner right =>
    have hpower := precedence_power
    have hfits : FitsRight op (.binary left inner right) ↔
        precedence op < precedence inner ∨ (op = lit "**" ∧ inner = lit "**") := by
      simp [FitsRight, rootOperator?]
    rw [hfits, bindsAt, decide_eq_true_iff, rightLevel]
    by_cases hop : op = lit "**"
    · subst hop
      by_cases hinner : inner = lit "**"
      · simp [hinner]
      · have := precedence_lt_power hinner
        simp only [hinner, if_true, and_false, or_false]
        omega
    · simp only [hop, if_false, false_and, or_false]
      omega
  | _ => simp [bindsAt, FitsRight, rootOperator?]

/-- The canonical trees are those whose operators are nested by precedence. -/
theorem canonical_iff_nested (n : Node) : Canonical n ↔ Nested n := by
  fun_induction Canonical n with
  | case1 left op right ihl ihr => rw [Nested, ← admitsLeft_iff_fits, ← bindsAt_iff_fits, ihl, ihr]
  | case2 n hn =>
    have hb : n.isBinary = false := by
      cases n <;> first | rfl | exact absurd rfl (hn _ _ _)
    exact iff_of_true trivial (nested_of_not_binary hb)

/-! ## Climbing by an index -/

/-- A climb over two lists: the operator of the number `i` stands in front of the operand of the
number `i + 1`. Together with the tree it gives the number of the next operator. There is none when
an operand is missing, or when `fuel` steps do not suffice. -/
def climbAt? (operands : List Node) (ops : List Text) (fuel level : Nat) (left : Node) (i : Nat) :
    Option (Node × Nat) :=
  match ops[i]? with
  | none => some (left, i)
  | some op =>
    if precedence op < level then some (left, i)
    else
      match fuel with
      | 0 => none
      | fuel + 1 => do
        let x ← operands[i + 1]?
        let (right, j) ← climbAt? operands ops fuel (rightLevel op) x (i + 1)
        climbAt? operands ops fuel level (.binary left op right) j

/-- Nests the operands of one list with the operators of another between them. -/
def foldAt? (operands : List Node) (ops : List Text) : Option Node := do
  let first ← operands[0]?
  let (tree, _) ← climbAt? operands ops ops.length 0 first 0
  return tree

/-- A climb takes operators off the front of the chain. -/
theorem suffix_climb (fuel level : Nat) (left : Node) (chain : List (Text × Node)) :
    (climb fuel level left chain).2 <:+ chain := by
  induction fuel generalizing level left chain with
  | zero => exact List.suffix_rfl
  | succ fuel ih =>
    cases chain with
    | nil => exact List.suffix_rfl
    | cons link chain =>
      obtain ⟨op, x⟩ := link
      by_cases hop : precedence op < level
      · have hstop : (climb (fuel + 1) level left ((op, x) :: chain)).2 = (op, x) :: chain := by
          rw [climb, if_pos hop]
        exact ⟨[], hstop⟩
      · rw [climb_cons (by omega)]
        exact ((ih ..).trans (ih ..)).trans (List.suffix_cons ..)

/-- The index always finds its operand: the climb by an index is the climb over the chain, from the
place of the index on. -/
theorem climbAt?_eq (first : Node) (chain : List (Text × Node)) (fuel level : Nat) (left : Node)
    (i : Nat) (hi : i ≤ chain.length) (hfuel : chain.length ≤ i + fuel) :
    climbAt? (first :: chain.map Prod.snd) (chain.map Prod.fst) fuel level left i =
      some ((climb fuel level left (chain.drop i)).1,
        chain.length - (climb fuel level left (chain.drop i)).2.length) := by
  induction fuel generalizing level left i with
  | zero =>
    obtain rfl : i = chain.length := by omega
    simp [climbAt?, climb]
  | succ fuel ih =>
    obtain rfl | hlt := Nat.eq_or_lt_of_le hi
    · simp [climbAt?, climb]
    · -- The rest of the chain starts with the operator and the operand of this number.
      obtain ⟨⟨op, x⟩, hlink⟩ : ∃ link, chain[i] = link := ⟨_, rfl⟩
      have hrest : chain.drop i = (op, x) :: chain.drop (i + 1) := by
        rw [List.drop_eq_getElem_cons hlt, hlink]
      have hget : chain[i]? = some (op, x) := by rw [List.getElem?_eq_getElem hlt, hlink]
      rw [climbAt?, List.getElem?_map, hget, hrest]
      simp only [Option.map_some]
      by_cases hop : precedence op < level
      · rw [if_pos hop, climb, if_pos hop]
        simp only [← hrest, List.length_drop]
        congr
        omega
      · have hright := suffix_climb fuel (rightLevel op) x (chain.drop (i + 1))
        have hstep := ih (rightLevel op) x (i + 1) (by omega) (by omega)
        -- What the right operand leaves of the chain tells the next number.
        have hleft := List.suffix_iff_eq_drop.1 (hright.trans (List.drop_suffix ..))
        have hshort := hright.length_le
        rw [List.length_drop] at hshort
        rw [climb_cons (by omega)]
        generalize climb fuel (rightLevel op) x (chain.drop (i + 1)) = right at *
        have hnext := ih level (.binary left op right.1) (chain.length - right.2.length)
          (Nat.sub_le ..) (by omega)
        rw [← hleft] at hnext
        simp only [if_neg hop, List.getElem?_cons_succ, List.getElem?_map, hget, Option.map_some,
          Option.bind_eq_bind, Option.bind_some, hstep, hnext]

/-- Folding by an index never fails and gives the fold of the chain. -/
theorem foldAt?_eq (first : Node) (chain : List (Text × Node)) :
    foldAt? (first :: chain.map Prod.snd) (chain.map Prod.fst) = some (fold first chain) := by
  rw [foldAt?, List.length_map, List.getElem?_cons_zero, Option.bind_eq_bind, Option.bind_some,
    climbAt?_eq first chain _ _ _ _ (Nat.zero_le _) (by omega), List.drop_zero]
  rfl

/-- A canonical tree is the fold of its operands and operators. -/
theorem foldAt?_of_canonical {n : Node} (h : Canonical n) :
    foldAt? n.operands n.operators = some n := by
  rw [operands_eq, operators_eq, foldAt?_eq, fold_chain ((canonical_iff_nested n).1 h)]

/-- Operands that are no binary operations themselves are nested with operators between them in one
way only: the fold has the operands and operators in their order and is canonical, no other tree is
so, and the operands and operators of any canonical tree are folded to the tree again. No operand is
ever missing. -/
theorem fold_canonical (operands : List Node) (ops : List Text)
    (hlength : operands.length = ops.length + 1)
    (hoperands : ∀ x ∈ operands, x.isBinary = false) :
    (∃ first rest, operands = first :: rest ∧
      foldAt? operands ops = some (fold first (ops.zip rest)) ∧
      (fold first (ops.zip rest)).operands = operands ∧
      (fold first (ops.zip rest)).operators = ops ∧
      Canonical (fold first (ops.zip rest)) ∧
      ∀ tree : Node, tree.operands = operands → tree.operators = ops → Canonical tree →
        tree = fold first (ops.zip rest)) ∧
    ∀ tree, Canonical tree → foldAt? tree.operands tree.operators = some tree := by
  refine ⟨?_, fun tree => foldAt?_of_canonical⟩
  obtain ⟨first, rest, rfl⟩ := List.exists_cons_of_length_eq_add_one hlength
  have hrest : rest.length = ops.length := Nat.succ.inj hlength
  have hops : (ops.zip rest).map Prod.fst = ops := List.map_fst_zip (Nat.le_of_eq hrest.symm)
  have hlinks : (ops.zip rest).map Prod.snd = rest := List.map_snd_zip (Nat.le_of_eq hrest)
  have hfold := foldAt?_eq first (ops.zip rest)
  rw [hops, hlinks] at hfold
  obtain ⟨hfirst, hchain⟩ := List.forall_mem_cons.1 hoperands
  have hright : ∀ link ∈ ops.zip rest, link.2.isBinary = false :=
    fun link hlink => hchain link.2 (List.of_mem_zip hlink).2
  obtain ⟨hhead, hkept, hnested⟩ := fold_spec hfirst hright
  refine ⟨first, rest, rfl, hfold, ?_, ?_, (canonical_iff_nested _).2 hnested, ?_⟩
  · rw [operands_eq, hhead, hkept, hlinks]
  · rw [operators_eq, hkept, hops]
  · intro tree htree hoperators hcanonical
    have hsame := foldAt?_of_canonical hcanonical
    rw [htree, hoperators, hfold] at hsame
    exact (Option.some.inj hsame).symm

/-- The operands `a` to `f`. -/
def sixNames : List Node := ["a", "b", "c", "d", "e", "f"].map fun s => .identifier .unknown (lit s)

/-- Operators of four levels, with two powers in front of a product. -/
def mixedOperators : List Text := ["-", "**", "**", "*", "=="].map lit

/-- The operation `(a - ((b ** (c ** d)) * e)) == f`. -/
def mixedTree : Node :=
  let name (s : String) : Node := .identifier .unknown (lit s)
  let powers := .binary (name "b") (lit "**") (.binary (name "c") (lit "**") (name "d"))
  .binary (.binary (name "a") (lit "-") (.binary powers (lit "*") (name "e"))) (lit "==") (name "f")

/-- The six names are nested so, and in no other way. -/
theorem mixedTree_canonical : sixNames.length = mixedOperators.length + 1 ∧
    (∀ x ∈ sixNames, x.isBinary = false) ∧ Canonical mixedTree ∧
    foldAt? sixNames mixedOperators = some mixedTree ∧
    ∀ tree : Node, tree.operands = sixNames → tree.operators = mixedOperators → Canonical tree →
      tree = mixedTree := by
  have hoperands : ∀ x ∈ sixNames, x.isBinary = false := by decide
  obtain ⟨⟨first, rest, -, hfold, -, -, -, honly⟩, hagain⟩ :=
    fold_canonical sixNames mixedOperators rfl hoperands
  have hcanonical : Canonical mixedTree := by
    rw [canonical_iff_nested]
    simp only [mixedTree, Nested, and_true]
    decide +kernel
  have htree : foldAt? sixNames mixedOperators = some mixedTree := hagain mixedTree hcanonical
  rw [← Option.some.inj (htree.symm.trans hfold)] at honly
  exact ⟨rfl, hoperands, hcanonical, htree, honly⟩

end Operator

end CubeSchema
