import CubeSchema.Proofs.Tree.Nodes

/-!
# Trees without parentheses

`Node.strip` takes all parentheses out of a tree, and `Node.peeled` those that stand around a node.
What tells one node from another, its kind or its name, is the same in both, so a test that looks at
a child of a node is asked of the peeled child.
-/

namespace CubeSchema.Node

/-- The node inside of all parentheses around it. -/
def peeled : Node → Node
  | paren _ x => x.peeled
  | n => n

mutual

/-- The tree without its parentheses. -/
def strip : Node → Node
  | absent => absent
  | program pos body => program pos (stripAll body)
  | varDecl pos keyword name init => varDecl pos keyword name.strip init.strip
  | exprStmt x => exprStmt x.strip
  | identifier pos name => identifier pos name
  | stringLiteral pos value raw => stringLiteral pos value raw
  | templateLiteral pos quasis exprs => templateLiteral pos quasis (stripAll exprs)
  | numberLiteral pos raw => numberLiteral pos raw
  | keywordLiteral pos value => keywordLiteral pos value
  | array pos elements => array pos (stripAll elements)
  | object pos properties => object pos (stripAll properties)
  | property pos key value computed shorthand =>
    property pos key.strip value.strip computed shorthand
  | spread pos x => spread pos x.strip
  | member obj prop computed optional => member obj.strip prop.strip computed optional
  | call callee args optional => call callee.strip (stripAll args) optional
  | function pos params body async => function pos (stripAll params) body.strip async
  | binary left op right => binary left.strip op right.strip
  | unary pos op x => unary pos op x.strip
  | paren _ x => x.strip

/-- The trees of a list without their parentheses. -/
def stripAll : List Node → List Node
  | [] => []
  | n :: rest => n.strip :: stripAll rest

end

theorem stripAll_eq_map (ns : List Node) : stripAll ns = ns.map strip := by
  induction ns with
  | nil => rfl
  | cons n ns ih => rw [stripAll, ih, List.map_cons]

/-! ## Around a node -/

theorem peeled_of_kind_ne {n : Node} (h : n.kind ≠ .paren) : n.peeled = n := by
  cases n <;> first | rfl | exact absurd rfl h

theorem strip_peeled (n : Node) : n.peeled.strip = n.strip := by
  fun_induction peeled n with
  | case1 pos x ih => rw [ih, strip]
  | case2 n _ => rfl

theorem kind_peeled_ne (n : Node) : n.peeled.kind ≠ .paren := by
  fun_induction peeled n with
  | case1 pos x ih => exact ih
  | case2 n hn => cases n <;> first | (simp [kind]; done) | exact absurd rfl (hn _ _)

/-- What is kept of every node that is not itself in parentheses is that of the peeled node. -/
theorem strip_eq_peeled {α : Type} {f : Node → α} (h : ∀ n, n.kind ≠ .paren → f n.strip = f n)
    (n : Node) : f n.strip = f n.peeled := by
  rw [← strip_peeled, h _ n.kind_peeled_ne]

theorem kind_strip (n : Node) : n.strip.kind = n.peeled.kind :=
  strip_eq_peeled (fun n h => by cases n <;> first | rfl | exact absurd rfl h) n

theorem name?_strip (n : Node) : n.strip.name? = n.peeled.name? :=
  strip_eq_peeled (fun n h => by cases n <;> first | rfl | exact absurd rfl h) n

theorem staticName_strip (n : Node) : n.strip.staticName = n.peeled.staticName := by
  refine strip_eq_peeled (fun n h => ?_) n
  cases n with
  | paren pos x => exact absurd rfl h
  | templateLiteral pos quasis exprs =>
    rcases quasis with _ | ⟨quasi, _ | ⟨quasi', quasis⟩⟩ <;> cases exprs <;> rfl
  | _ => rfl

/-! ## The nodes that are left -/

mutual

/-- Without parentheses a tree has the same nodes, except for the parentheses. -/
theorem nodes_strip (n : Node) :
    n.strip.nodes = (n.nodes.filter fun m => m.kind ≠ .paren).map strip := by
  cases n with
  | paren pos x =>
    rw [strip, nodes, List.filter_cons_of_neg (by simp [kind])]
    exact nodes_strip x
  | absent => rfl
  | _ =>
    simp [strip, nodes, kind, List.filter_append, nodes_strip, nodesAll_strip]

theorem nodesAll_strip (ns : List Node) :
    nodesAll (stripAll ns) = ((nodesAll ns).filter fun m => m.kind ≠ .paren).map strip := by
  cases ns with
  | nil => rfl
  | cons n ns =>
    rw [stripAll, nodesAll, nodesAll, List.filter_append, List.map_append, nodes_strip n,
      nodesAll_strip ns]

end

end CubeSchema.Node
