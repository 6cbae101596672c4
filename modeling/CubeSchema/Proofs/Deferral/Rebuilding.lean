import CubeSchema.Proofs.Deferral.Placement
import CubeSchema.Proofs.Tree.Replacement
import CubeSchema.Tree.Traverse

/-!
# Rebuilding a tree in place

`Node.mapChildren` transforms the children of a node and puts the node together again. A walk that
stands at the node does the same in place: it goes to one child after the other, and each time the
nodes above are brought up to date before it goes on. `Performs` says that a walk has the outcome of
a transformation, and `traverseBelow_performs` that it does so below a node if it does at every
child, whatever has become of the children in front.
-/

namespace CubeSchema

namespace Logged

variable {α β : Type}

@[simp] theorem val_pure (a : α) : (pure a : Logged α).val = a := rfl

@[simp] theorem log_pure (a : α) : (pure a : Logged α).log = [] := rfl

@[simp] theorem val_bind (x : Logged α) (f : α → Logged β) : (x >>= f).val = (f x.val).val := rfl

@[simp] theorem log_bind (x : Logged α) (f : α → Logged β) :
    (x >>= f).log = x.log ++ (f x.val).log := rfl

end Logged

namespace Node

/-- A node whose children are transformed one after the other, each by the edge that leads to it. -/
def mapChildren (f : Edge → Node → Logged Node) : Node → Logged Node
  | absent => pure absent
  | program pos body => do return program pos (← body.mapM (f .programBody))
  | varDecl pos keyword name init => do
    let name ← f .varName name
    return varDecl pos keyword name (← f .varInit init)
  | exprStmt x => do return exprStmt (← f .stmtExpr x)
  | identifier pos name => pure (identifier pos name)
  | stringLiteral pos value raw => pure (stringLiteral pos value raw)
  | templateLiteral pos quasis exprs => do
    return templateLiteral pos quasis (← exprs.mapM (f .templateExpr))
  | numberLiteral pos raw => pure (numberLiteral pos raw)
  | keywordLiteral pos value => pure (keywordLiteral pos value)
  | array pos elements => do return array pos (← elements.mapM (f .arrayElement))
  | object pos properties => do return object pos (← properties.mapM (f .objectProperty))
  | property pos key value computed shorthand => do
    let key ← f .propertyKey key
    return property pos key (← f .propertyValue value) computed shorthand
  | spread pos x => do return spread pos (← f .spreadArgument x)
  | member obj prop computed optional => do
    let obj ← f .memberObject obj
    return member obj (← f .memberProperty prop) computed optional
  | call callee args optional => do
    let callee ← f .callCallee callee
    return call callee (← args.mapM (f .callArgument)) optional
  | function pos params body async => do
    let params ← params.mapM (f .functionParam)
    return function pos params (← f .functionBody body) async
  | binary left op right => do
    let left ← f .binaryLeft left
    return binary left op (← f .binaryRight right)
  | unary pos op x => do return unary pos op (← f .unaryOperand x)
  | paren pos x => do return paren pos (← f .parenExpr x)

variable {f : Edge → Node → Logged Node}

theorem kind_mapChildren (n : Node) : (n.mapChildren f).val.kind = n.kind := by
  cases n <;> rfl

/-- The child at an address is transformed and put back. -/
def refit (f : Edge → Node → Logged Node) (p : Node) (child : Child) : Logged Node := do
  return p.put child.address (← f child.address.edge child.node)

theorem isAbsent_iff {n : Node} : n.isAbsent = true ↔ n = absent := by
  cases n <;> simp [isAbsent]

section

variable (hf : ∀ edge, f edge absent = pure absent)

include hf

/-- Transforming what stands in a single field. -/
theorem foldlM_single {edge : Edge} {x : Node} (mk : Node → Node)
    (hmk : ∀ y z, (mk y).put ⟨edge, none⟩ z = mk z) :
    (single edge x).foldlM (refit f) (mk x) = do return mk (← f edge x) := by
  unfold single
  split
  · rename_i habsent
    rw [isAbsent_iff.1 habsent, hf, pure_bind]
    rfl
  · simp only [List.foldlM_cons, List.foldlM_nil, bind_pure, refit, hmk]

/-- Transforming the elements of a list field; holes may be passed over. -/
theorem foldlM_listed {edge : Edge} (keep : Child → Bool) (mk : List Node → Node)
    (hkeep : ∀ child, keep child = false → child.node = absent)
    (hmk : ∀ ms i z, (mk ms).put ⟨edge, some i⟩ z = mk (ms.set i z)) (front ns : List Node) :
    ((listed edge front.length ns).filter keep).foldlM (refit f) (mk (front ++ ns)) = do
      return mk (front ++ (← ns.mapM (f edge))) := by
  induction ns generalizing front with
  | nil => simp [listed]
  | cons n ns ih =>
    have hnext : ∀ y, ((listed edge (front.length + 1) ns).filter keep).foldlM (refit f)
        (mk (front ++ y :: ns)) = do return mk (front ++ y :: (← ns.mapM (f edge))) := by
      intro y
      have hstep := ih (front ++ [y])
      rw [List.length_append, List.length_singleton] at hstep
      simpa only [List.append_assoc, List.singleton_append] using hstep
    rw [listed, List.filter_cons]
    split
    · simp only [List.foldlM_cons, refit, hmk, bind_assoc, pure_bind, List.mapM_cons]
      simp [hnext]
    · rename_i hhole
      obtain rfl := hkeep ⟨⟨edge, some front.length⟩, n⟩ (by simpa using hhole)
      rw [hnext, List.mapM_cons, hf]
      simp

theorem foldlM_list {edge : Edge} (mk : List Node → Node)
    (hmk : ∀ ms i z, (mk ms).put ⟨edge, some i⟩ z = mk (ms.set i z)) (ns : List Node) :
    (listed edge 0 ns).foldlM (refit f) (mk ns) = do return mk (← ns.mapM (f edge)) := by
  have hall := foldlM_listed hf (fun _ => true) mk (by simp) hmk [] ns
  rwa [List.filter_true] at hall

/-- Transforming two single fields. -/
theorem foldlM_two {edge other : Edge} {x y : Node} (mk : Node → Node → Node)
    (hfst : ∀ x y z, (mk x y).put ⟨edge, none⟩ z = mk z y)
    (hsnd : ∀ x y z, (mk x y).put ⟨other, none⟩ z = mk x z) :
    (single edge x ++ single other y).foldlM (refit f) (mk x y) = do
      let x ← f edge x
      return mk x (← f other y) := by
  rw [List.foldlM_append, foldlM_single hf (fun x => mk x y) fun x => hfst x y]
  simp only [bind_assoc, pure_bind, foldlM_single hf _ (hsnd _)]

/-- The children are transformed by putting one after the other back. -/
theorem mapChildren_eq (n : Node) : n.mapChildren f = n.children.foldlM (refit f) n := by
  cases n with
  | absent | identifier | stringLiteral | numberLiteral | keywordLiteral => rfl
  | program pos body => exact (foldlM_list hf (program pos) (fun _ _ _ => rfl) body).symm
  | templateLiteral pos quasis exprs =>
    exact (foldlM_list hf (templateLiteral pos quasis) (fun _ _ _ => rfl) exprs).symm
  | object pos properties =>
    exact (foldlM_list hf (object pos) (fun _ _ _ => rfl) properties).symm
  | array pos elements =>
    refine (foldlM_listed hf _ (array pos) (fun child hkeep => ?_) (fun _ _ _ => rfl)
      [] elements).symm
    exact isAbsent_iff.1 (by simpa using hkeep)
  | exprStmt x => exact (foldlM_single hf exprStmt fun _ _ => rfl).symm
  | spread pos x => exact (foldlM_single hf (spread pos) fun _ _ => rfl).symm
  | unary pos op x => exact (foldlM_single hf (unary pos op) fun _ _ => rfl).symm
  | paren pos x => exact (foldlM_single hf (paren pos) fun _ _ => rfl).symm
  | varDecl pos keyword name init =>
    exact (foldlM_two hf (varDecl pos keyword) (fun _ _ _ => rfl) fun _ _ _ => rfl).symm
  | property pos key value computed shorthand =>
    exact (foldlM_two hf (fun x y => property pos x y computed shorthand)
      (fun _ _ _ => rfl) fun _ _ _ => rfl).symm
  | member obj prop computed optional =>
    exact (foldlM_two hf (fun x y => member x y computed optional)
      (fun _ _ _ => rfl) fun _ _ _ => rfl).symm
  | binary left op right =>
    exact (foldlM_two hf (fun x y => binary x op y)
      (fun _ _ _ => rfl) fun _ _ _ => rfl).symm
  | call callee args optional =>
    rw [children, List.foldlM_append,
      foldlM_single hf (fun x => call x args optional) fun _ _ => rfl]
    simp only [bind_assoc, pure_bind]
    exact bind_congr fun x =>
      (foldlM_list hf (fun ns => call x ns optional) (fun _ _ _ => rfl) args).symm
  | function pos params body async =>
    rw [children, List.foldlM_append,
      foldlM_list hf (fun ns => function pos ns body async) fun _ _ _ => rfl]
    simp only [bind_assoc, pure_bind]
    exact bind_congr fun ns =>
      (foldlM_single hf (fun x => function pos ns x async) fun _ _ => rfl).symm

end

/-! ## What becomes of the children -/

/-- The first child that has not been put back yet is put back. -/
theorem children_put_next {p y : Node} {done cs : List Child} {child : Child}
    (hp : p.children = done ++ child :: cs) (hy : y.isAbsent = false) :
    (p.put child.address y).children = done ++ ⟨child.address, y⟩ :: cs := by
  have hnodup := p.nodup_addresses
  have hmem : child ∈ p.children := by simp [hp]
  rw [addresses, hp, List.map_append, List.map_cons, List.nodup_append, List.nodup_cons] at hnodup
  obtain ⟨-, ⟨hcs, -⟩, hdone⟩ := hnodup
  have hfront : done.map (Child.update child.address y) = done :=
    map_update_of_ne (fun c hc => hdone _ (List.mem_map_of_mem hc) _ (List.mem_cons_self ..)) y
  have hback : cs.map (Child.update child.address y) = cs :=
    map_update_of_ne (fun c hc heq => hcs (List.mem_map.2 ⟨c, hc, heq⟩)) y
  rw [children_put (List.mem_map_of_mem hmem) hy, hp, List.map_append, List.map_cons, hfront,
    hback, Child.update, if_pos rfl]

theorem children_foldlM_refit {cs done : List Child} {p : Node} (hp : p.children = done ++ cs)
    (hcs : ∀ c ∈ cs, (f c.address.edge c.node).val.isAbsent = false) :
    (cs.foldlM (refit f) p).val.children =
      done ++ cs.map fun c => ⟨c.address, (f c.address.edge c.node).val⟩ := by
  induction cs generalizing done p with
  | nil => exact hp
  | cons child cs ih =>
    have hnext := children_put_next hp (hcs child (List.mem_cons_self ..))
    rw [List.append_cons] at hnext
    rw [List.foldlM_cons, Logged.val_bind, List.map_cons, List.append_cons]
    exact ih hnext fun c hc => hcs c (List.mem_cons_of_mem _ hc)

/-- The children of the outcome are the transformed ones, where they were. -/
theorem children_mapChildren (hf : ∀ edge, f edge absent = pure absent) {n : Node}
    (hn : ∀ c ∈ n.children, (f c.address.edge c.node).val.isAbsent = false) :
    (n.mapChildren f).val.children =
      n.children.map fun c => ⟨c.address, (f c.address.edge c.node).val⟩ := by
  have hstart : n.children = [] ++ n.children := rfl
  rw [mapChildren_eq hf]
  exact children_foldlM_refit hstart hn

/-- The transformed children are smaller than the outcome. -/
theorem length_nodes_lt_mapChildren (hf : ∀ edge, f edge absent = pure absent) {n : Node}
    (hn : ∀ c ∈ n.children, (f c.address.edge c.node).val.isAbsent = false) {c : Child}
    (hc : c ∈ n.children) :
    (f c.address.edge c.node).val.nodes.length < (n.mapChildren f).val.nodes.length := by
  have hmem : (⟨c.address, (f c.address.edge c.node).val⟩ : Child) ∈
      (n.mapChildren f).val.children := by
    rw [children_mapChildren hf hn]
    exact List.mem_map_of_mem hc
  exact length_nodes_lt hmem

/-- Lists put together are no longer than others when none of them is. -/
theorem length_flatMap_le {α β : Type} {f g : α → List β} {xs : List α}
    (h : ∀ x ∈ xs, (f x).length ≤ (g x).length) :
    (xs.flatMap f).length ≤ (xs.flatMap g).length := by
  induction xs with
  | nil => exact Nat.le_refl _
  | cons x xs ih =>
    obtain ⟨hx, hxs⟩ := List.forall_mem_cons.1 h
    simp only [List.flatMap_cons, List.length_append]
    exact Nat.add_le_add hx (ih hxs)

/-- As many in each of some lists are as many in all together. -/
theorem countP_flatMap_congr {α β : Type} {p : β → Bool} {f g : α → List β} {xs : List α}
    (h : ∀ x ∈ xs, (f x).countP p = (g x).countP p) :
    (xs.flatMap f).countP p = (xs.flatMap g).countP p := by
  induction xs with
  | nil => rfl
  | cons x xs ih =>
    obtain ⟨hx, hxs⟩ := List.forall_mem_cons.1 h
    rw [List.flatMap_cons, List.flatMap_cons, List.countP_append, List.countP_append, hx, ih hxs]

/-- The nodes below a node. -/
def nodesBelow (n : Node) : List Node := n.children.flatMap fun c => c.node.nodes

/-- A tree has one node more than there are below its root. -/
theorem length_nodes_eq {n : Node} (h : n.isAbsent = false) :
    n.nodes.length = n.nodesBelow.length + 1 := by
  rw [nodes_eq h, List.length_cons, nodesBelow]

theorem calls_eq_countP (n : Node) : n.calls = n.nodes.countP fun m => m.kind = .call := by
  rw [← n.countP_visits [], ← map_focus_visits [] n, List.countP_map]
  rfl

/-- The calls of a tree are its root, if it is one, and those below it. -/
theorem calls_eq {n : Node} (h : n.isAbsent = false) :
    n.calls = (n.nodesBelow.countP fun m => m.kind = .call) + if n.kind = .call then 1 else 0 := by
  rw [calls_eq_countP, nodes_eq h, List.countP_cons, nodesBelow]
  simp

theorem calls_le_of_mem_children {n : Node} {c : Child} (hc : c ∈ n.children) :
    c.node.calls + (if n.kind = .call then 1 else 0) ≤ n.calls := by
  have hpresent : n.isAbsent = false := isAbsent_of_mem_addresses (List.mem_map_of_mem hc)
  obtain ⟨before, after, hsplit⟩ := List.append_of_mem hc
  rw [calls_eq hpresent, calls_eq_countP, nodesBelow, hsplit, List.flatMap_append,
    List.flatMap_cons, List.countP_append, List.countP_append]
  omega

/-! ## Trees that can be walked -/

/-- A tree that a pass can walk: the node at its root is there and so are all others, and no
argument of a call is a property. -/
inductive Walkable : Node → Prop
  | intro {n : Node} (present : n.isAbsent = false)
      (children : ∀ c ∈ n.children, Walkable c.node)
      (arguments : ∀ c ∈ n.children, c.address.edge = .callArgument → c.node.kind ≠ .property) :
      Walkable n

theorem Walkable.present {n : Node} (h : n.Walkable) : n.isAbsent = false := by
  cases h
  assumption

theorem Walkable.child {n : Node} (h : n.Walkable) {c : Child} (hc : c ∈ n.children) :
    c.node.Walkable := by
  cases h with
  | intro _ children _ => exact children c hc

theorem Walkable.argument {n : Node} (h : n.Walkable) {c : Child} (hc : c ∈ n.children)
    (hedge : c.address.edge = .callArgument) : c.node.kind ≠ .property := by
  cases h with
  | intro _ _ arguments => exact arguments c hc hedge

/-- Each child of a node is of a kind that its place admits. -/
theorem fits_of_isTyped {n : Node} (h : n.isTyped = true) {c : Child} (hc : c ∈ n.children) :
    c.node.fits c.address.edge.slot = true := by
  have hsingle : ∀ {edge : Edge} {x : Node}, c ∈ single edge x → x.mayFill edge.slot = true →
      c.node.fits c.address.edge.slot = true := by
    intro edge x hc hx
    obtain ⟨hpresent, heq⟩ := isAbsent_of_mem_single hc
    rw [edge_of_mem_single hc]
    rw [← heq, mayFill, hpresent, Bool.false_or] at hx
    exact hx
  have hlist : ∀ {edge : Edge} {ns : List Node}, c ∈ listed edge 0 ns →
      ns.all (·.fits edge.slot) = true → c.node.fits c.address.edge.slot = true := by
    intro edge ns hc hns
    rw [edge_of_mem_listed hc]
    exact List.all_eq_true.1 hns _ (mem_listed hc)
  cases n with
  | absent | identifier | stringLiteral | numberLiteral | keywordLiteral => cases hc
  | program | object | templateLiteral => exact hlist hc h
  | array pos elements =>
    obtain ⟨hmem, hfilter⟩ := List.mem_filter.1 hc
    have hpresent : c.node.isAbsent = false := by simpa using hfilter
    have hfill := List.all_eq_true.1 h _ (mem_listed hmem)
    rw [mayFill, hpresent, Bool.false_or] at hfill
    rwa [edge_of_mem_listed hmem]
  | exprStmt | spread | unary | paren => exact hsingle hc h
  | varDecl | property | member | binary =>
    rcases List.mem_append.1 hc with hc | hc
    · exact hsingle hc (Bool.and_eq_true_iff.1 h).1
    · exact hsingle hc (Bool.and_eq_true_iff.1 h).2
  | call =>
    rcases List.mem_append.1 hc with hc | hc
    · exact hsingle hc (Bool.and_eq_true_iff.1 h).1
    · exact hlist hc (Bool.and_eq_true_iff.1 h).2
  | function =>
    rcases List.mem_append.1 hc with hc | hc
    · exact hlist hc (Bool.and_eq_true_iff.1 h).1
    · exact hsingle hc (Bool.and_eq_true_iff.1 h).2

theorem walkable_of_isTyped {n : Node} (hpresent : n.isAbsent = false)
    (h : n.all isTyped = true) : n.Walkable := by
  induction hsize : n.nodes.length using Nat.strongRecOn generalizing n with
  | ind size ih =>
    subst hsize
    have htyped : n.isTyped = true := all_eq_true.1 h n (mem_nodes_self hpresent)
    refine .intro hpresent (fun c hc => ?_) fun c hc hedge => ?_
    · exact ih _ (length_nodes_lt hc) (isAbsent_of_fits (fits_of_isTyped htyped hc))
        (all_of_mem_children h hc) rfl
    · have hfits := fits_of_isTyped htyped hc
      rw [hedge] at hfits
      exact kind_ne_property_of_isExpression hfits

/-- A tree that can be walked has become another one, with as many calls and no fewer nodes. -/
structure GrowsTo (n m : Node) : Prop where
  /-- The new tree can be walked. -/
  walkable : m.Walkable
  /-- No call is added or taken away. -/
  calls : m.calls = n.calls
  /-- No nodes are taken away. -/
  size : n.nodes.length ≤ m.nodes.length

theorem Walkable.growsTo {n : Node} (h : n.Walkable) : n.GrowsTo n := ⟨h, rfl, Nat.le_refl _⟩

theorem GrowsTo.trans {n m k : Node} (h : n.GrowsTo m) (h' : m.GrowsTo k) : n.GrowsTo k :=
  ⟨h'.walkable, h'.calls.trans h.calls, Nat.le_trans h.size h'.size⟩

/-- A tree grows when its children do. -/
theorem Walkable.growsTo_of_children {n m : Node} (h : n.Walkable) (hkind : m.kind = n.kind)
    {g : Child → Child} (hm : m.children = n.children.map g)
    (hg : ∀ c ∈ n.children, c.node.GrowsTo (g c).node)
    (hargs : ∀ c ∈ n.children, (g c).address.edge = .callArgument → (g c).node.kind ≠ .property) :
    n.GrowsTo m := by
  have hpresent : m.isAbsent = false := by rw [isAbsent_eq, hkind, ← isAbsent_eq, h.present]
  refine ⟨.intro hpresent ?_ ?_, ?_, ?_⟩
  · simpa [hm] using fun c hc => (hg c hc).walkable
  · simpa [hm] using hargs
  · rw [calls_eq hpresent, calls_eq h.present, hkind, nodesBelow, nodesBelow, hm,
      List.flatMap_map]
    refine congrArg (· + _) (countP_flatMap_congr fun c hc => ?_)
    rw [← calls_eq_countP, ← calls_eq_countP, (hg c hc).calls]
  · rw [length_nodes_eq hpresent, length_nodes_eq h.present, nodesBelow, nodesBelow, hm,
      List.flatMap_map]
    exact Nat.succ_le_succ (length_flatMap_le fun c hc => (hg c hc).size)

theorem Walkable.growsTo_mapChildren (hf : ∀ edge, f edge absent = pure absent) {n : Node}
    (h : n.Walkable)
    (hchildren : ∀ c ∈ n.children, c.node.GrowsTo (f c.address.edge c.node).val)
    (hkind : ∀ c ∈ n.children, (f c.address.edge c.node).val.kind = c.node.kind) :
    n.GrowsTo (n.mapChildren f).val := by
  refine h.growsTo_of_children (kind_mapChildren n)
    (children_mapChildren hf fun c hc => (hchildren c hc).walkable.present) hchildren ?_
  intro c hc hedge
  rw [hkind c hc]
  exact h.argument hc hedge

/-- A tree grows when one of its children does. -/
theorem Walkable.growsTo_replaced {n y : Node} (h : n.Walkable) {child : Child}
    (hchild : child ∈ n.children) (hy : child.node.GrowsTo y)
    (harg : child.address.edge = .callArgument → y.kind ≠ .property) :
    n.GrowsTo (n.replaced child.address y) := by
  have hnode : ∀ c ∈ n.children, c.address = child.address → c.node = child.node := by
    intro c hc heq
    rw [List.inj_on_of_nodup_map n.nodup_addresses hc hchild heq]
  refine h.growsTo_of_children (kind_replaced n y child.address)
    (children_replaced (List.mem_map_of_mem hchild) hy.walkable.present) (fun c hc => ?_)
    fun c hc => ?_
  · unfold Child.update
    split
    · rename_i heq
      rw [hnode c hc heq]
      exact hy
    · exact (h.child hc).growsTo
  · unfold Child.update
    split
    · exact harg
    · exact h.argument hc

end Node

/-! ## Walks -/

namespace Cursor

/-- The nodes above a cursor hold its node. -/
def IsCurrent (c : Cursor) : Prop := c.set c.focus = c

theorem isCurrent_root (n : Node) : (root n).IsCurrent := rfl

theorem isCurrent_set (c : Cursor) (n : Node) : (c.set n).IsCurrent := c.set_set n n

theorem IsCurrent.descend {c : Cursor} (h : c.IsCurrent) {child : Child}
    (hchild : child ∈ c.focus.children) : (c.descend child).IsCurrent := by
  have hset := c.set_descend child child.node
  rw [Node.put_self hchild, h] at hset
  exact hset

theorem edge_set (c : Cursor) (n : Node) : (c.set n).edge = c.edge := by
  obtain ⟨focus, above⟩ := c
  cases above <;> rfl

/-- A walk puts the outcome of a transformation in place of the node, and adds what it records. -/
def Performs (walk : Visitor (List DeferredField)) (c : Cursor) (x : Logged Node) : Prop :=
  ∀ log, walk c log = .ok (c.set x.val, log ++ x.log)

/-- What leaves everything as it is performs nothing. -/
theorem performs_pure {walk : Visitor (List DeferredField)} {c : Cursor} (hc : c.IsCurrent)
    (h : ∀ log, walk c log = .ok (c, log)) : Performs walk c (pure c.focus) := by
  intro log
  have hset : c.set c.focus = c := hc
  rw [h, Logged.val_pure, Logged.log_pure, hset, List.append_nil]

/-- A walk of the children that are left performs the transformation of each of them. -/
theorem traverseChildren_performs {walk : Visitor (List DeferredField)} {c : Cursor}
    {f : Edge → Node → Logged Node} {cs done : List Child} {p : Node}
    (hp : p.children = done ++ cs)
    (hcs : ∀ child ∈ cs, (f child.address.edge child.node).val.isAbsent = false)
    (hwalk : ∀ child ∈ cs, ∀ q : Node, child ∈ q.children →
      Performs walk ((c.set q).descend child) (f child.address.edge child.node)) :
    ∀ log, traverseChildren walk (cs.map Child.address) (c.set p) log =
      .ok (c.set (cs.foldlM (Node.refit f) p).val, log ++ (cs.foldlM (Node.refit f) p).log) := by
  induction cs generalizing done p with
  | nil =>
    intro log
    simp [traverseChildren]
  | cons child cs ih =>
    intro log
    have hmem : child ∈ p.children := by simp [hp]
    have hnext := Node.children_put_next hp (hcs child (List.mem_cons_self ..))
    rw [List.append_cons] at hnext
    -- The walk of the child leaves the cursor at its outcome; the parent holds it then.
    have hstep : walk ((c.set p).descend ⟨child.address, child.node⟩) log = _ :=
      hwalk child (List.mem_cons_self ..) p hmem log
    rw [set_descend, set_set] at hstep
    rw [List.map_cons, traverseChildren, focus_set, Node.child?_address hmem]
    simp only [hstep]
    refine (ih hnext (fun d hd => hcs d (List.mem_cons_of_mem _ hd))
      (fun d hd => hwalk d (List.mem_cons_of_mem _ hd)) _).trans ?_
    simp [Node.refit]

/-- A walk of what is below a node performs the transformation of its children. -/
theorem traverseBelow_performs {visit : Visitor (List DeferredField)} {fuel : Nat} {c : Cursor}
    (hc : c.IsCurrent) {f : Edge → Node → Logged Node}
    (hf : ∀ edge, f edge .absent = pure .absent)
    (hchildren : ∀ child ∈ c.focus.children,
      (f child.address.edge child.node).val.isAbsent = false)
    (hwalk : ∀ child ∈ c.focus.children, ∀ q : Node, child ∈ q.children →
      Performs (traverse visit fuel) ((c.set q).descend child)
        (f child.address.edge child.node)) :
    Performs (traverseBelow visit fuel) c (c.focus.mapChildren f) := by
  intro log
  have hset : c.set c.focus = c := hc
  have hstart : c.focus.children = [] ++ c.focus.children := rfl
  have hall := traverseChildren_performs hstart hchildren hwalk log
  rwa [hset, ← Node.mapChildren_eq hf] at hall

/-- A walk performs what its visitor does at the node and then what it does below. -/
theorem traverse_performs {visit : Visitor (List DeferredField)} {fuel : Nat} {c : Cursor}
    (hpresent : c.focus.isAbsent = false) {x : Logged Node} {f : Node → Logged Node}
    (hvisit : Performs visit c x)
    (hbelow : Performs (traverseBelow visit fuel) (c.set x.val) (f x.val)) :
    Performs (traverse visit (fuel + 1)) c (x >>= f) := by
  intro log
  rw [traverse, hpresent, if_neg Bool.false_ne_true, hvisit log]
  refine (hbelow _).trans ?_
  rw [set_set]
  simp

end Cursor

end CubeSchema
