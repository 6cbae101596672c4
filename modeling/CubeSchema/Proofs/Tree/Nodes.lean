import CubeSchema.Proofs.Tree.Shape
import CubeSchema.Symbols.References

/-!
# The nodes of a tree

A walk lists the nodes of a tree with the way to each of them. `Node.nodes` lists the nodes alone,
in the same order. What a tree declares is read off this list, and so is whether all its nodes pass
a test.
-/

namespace CubeSchema.Node

mutual

/-- The nodes of a tree, each one in front of the nodes below it; an absent node does not count. -/
def nodes : Node → List Node
  | absent => []
  | program pos body => program pos body :: nodesAll body
  | varDecl pos keyword name init => varDecl pos keyword name init :: name.nodes ++ init.nodes
  | exprStmt x => exprStmt x :: x.nodes
  | identifier pos name => [identifier pos name]
  | stringLiteral pos value raw => [stringLiteral pos value raw]
  | templateLiteral pos quasis exprs => templateLiteral pos quasis exprs :: nodesAll exprs
  | numberLiteral pos raw => [numberLiteral pos raw]
  | keywordLiteral pos value => [keywordLiteral pos value]
  | array pos elements => array pos elements :: nodesAll elements
  | object pos properties => object pos properties :: nodesAll properties
  | property pos key value computed shorthand =>
    property pos key value computed shorthand :: key.nodes ++ value.nodes
  | spread pos x => spread pos x :: x.nodes
  | member obj prop computed optional =>
    member obj prop computed optional :: obj.nodes ++ prop.nodes
  | call callee args optional => call callee args optional :: callee.nodes ++ nodesAll args
  | function pos params body async =>
    function pos params body async :: nodesAll params ++ body.nodes
  | binary left op right => binary left op right :: left.nodes ++ right.nodes
  | unary pos op x => unary pos op x :: x.nodes
  | paren pos x => paren pos x :: x.nodes

/-- The nodes of the trees of a list. -/
def nodesAll : List Node → List Node
  | [] => []
  | n :: rest => n.nodes ++ nodesAll rest

end

theorem nodesAll_eq_flatMap (ns : List Node) : nodesAll ns = ns.flatMap nodes := by
  induction ns with
  | nil => rfl
  | cons n ns ih => rw [nodesAll, ih, List.flatMap_cons]

theorem nodesAll_append (ns ms : List Node) :
    nodesAll (ns ++ ms) = nodesAll ns ++ nodesAll ms := by
  simp [nodesAll_eq_flatMap]

theorem mem_nodesAll {ns : List Node} {n m : Node} (hn : n ∈ ns) (hm : m ∈ n.nodes) :
    m ∈ nodesAll ns := by
  rw [nodesAll_eq_flatMap]
  exact List.mem_flatMap.2 ⟨n, hn, hm⟩

theorem exists_of_mem_nodesAll {ns : List Node} {m : Node} (h : m ∈ nodesAll ns) :
    ∃ n ∈ ns, m ∈ n.nodes := by
  rw [nodesAll_eq_flatMap] at h
  exact List.mem_flatMap.1 h

theorem mem_nodes_self {n : Node} (h : n.isAbsent = false) : n ∈ n.nodes := by
  cases n <;> first | (simp [nodes]; done) | cases h

mutual

/-- The nodes that a walk visits do not depend on the way to where it starts. -/
theorem map_focus_visits (above : List Frame) (n : Node) :
    (n.visits above).map Cursor.focus = n.nodes := by
  cases n <;>
    simp only [visits, nodes, List.map_cons, List.map_append, List.cons_append, List.map_nil,
      map_focus_visits, map_focus_visitsAll]

theorem map_focus_visitsAll (above : List Frame) (parent : Node) (edge : Edge) (i : Nat)
    (ns : List Node) : (visitsAll above parent edge i ns).map Cursor.focus = nodesAll ns := by
  cases ns with
  | nil => rfl
  | cons n ns =>
    rw [visitsAll, List.map_append, map_focus_visits,
      map_focus_visitsAll above parent edge (i + 1) ns, nodesAll]

end

theorem mem_nodes_of_mem_visits {n : Node} {above : List Frame} {c : Cursor}
    (h : c ∈ n.visits above) : c.focus ∈ n.nodes :=
  map_focus_visits above n ▸ List.mem_map_of_mem h

theorem exists_visit_of_mem_nodes {n m : Node} (above : List Frame) (h : m ∈ n.nodes) :
    ∃ c ∈ n.visits above, c.focus = m := by
  rw [← map_focus_visits above n] at h
  exact List.mem_map.1 h

/-- A test that all nodes pass, as a test of the list of nodes. -/
theorem all_eq_true {p : Node → Bool} {n : Node} :
    n.all p = true ↔ ∀ m ∈ n.nodes, p m = true := by
  rw [all_eq_true_iff p [], ← map_focus_visits [] n]
  simp only [List.mem_map, forall_exists_index, and_imp, forall_apply_eq_imp_iff₂]

mutual

/-- What all nodes below all nodes pass is what all nodes pass. -/
theorem all_all (p : Node → Bool) (n : Node) : n.all (fun m => m.all p) = n.all p := by
  cases n <;> simp only [all, all_all, allOf_all] <;> grind

theorem allOf_all (p : Node → Bool) (ns : List Node) :
    allOf (fun m => m.all p) ns = allOf p ns := by
  cases ns <;> simp only [allOf, all_all, allOf_all]

end

open Classical in
theorem mem_nodes_trans {x y z : Node} (hx : x ∈ y.nodes) (hz : z ∈ x.nodes) :
    z ∈ y.nodes := by
  have hall : y.all (fun m => m.all fun k => decide (k ∈ y.nodes)) = true := by
    rw [all_all, all_eq_true]
    exact fun m hm => decide_eq_true hm
  exact of_decide_eq_true (all_eq_true.1 (all_eq_true.1 hall x hx) z hz)

theorem declarations_eq (file : Text) (n : Node) :
    n.declarations file = n.nodes.filterMap (declaration? file) := by
  rw [declarations, ← map_focus_visits [] n, List.filterMap_map]
  rfl

/-- The name that a call of `cube` or `view` declares. -/
def declaredName? (n : Node) : Option Text := n.declares?.map Prod.fst

/-- The names that are declared in a tree, in source order. -/
def declaredNames (n : Node) : List Text := n.nodes.filterMap declaredName?

/-- The names that are declared in the trees of a list. -/
def declaredNamesAll (ns : List Node) : List Text := (nodesAll ns).filterMap declaredName?

theorem declaredNamesAll_eq {ns ms : List Node} (hlength : ms.length = ns.length)
    (h : ∀ p ∈ ns.zip ms, p.2.declaredNames = p.1.declaredNames) :
    declaredNamesAll ms = declaredNamesAll ns := by
  have hflat : ∀ ns, declaredNamesAll ns = (ns.map declaredNames).flatten := by
    intro ns
    rw [declaredNamesAll, nodesAll_eq_flatMap, List.filterMap_flatMap, List.flatMap_def]
    rfl
  rw [hflat, hflat, map_eq_of_zip hlength h]

theorem declaredNames_call (callee : Node) (args : List Node) (optional : Bool) :
    (call callee args optional).declaredNames =
      (call callee args optional).declaredName?.toList ++
        (callee.declaredNames ++ declaredNamesAll args) := by
  rw [declaredNames, nodes, List.cons_append, List.filterMap_cons, List.filterMap_append]
  cases (call callee args optional).declaredName? <;> rfl

theorem map_fst_declaring (n : Node) : n.declaring.map Prod.fst = n.declaredNames := by
  rw [declaring, declaredNames, ← map_focus_visits [] n, List.filterMap_map, List.map_filterMap]
  congr 1
  funext c
  simp only [declaredName?, Function.comp_def, Option.map_map]

theorem mem_declaredNames {n : Node} {name : Text} :
    name ∈ n.declaredNames ↔ ∃ m ∈ n.nodes, m.declaredName? = some name := by
  rw [declaredNames, List.mem_filterMap]

end CubeSchema.Node
