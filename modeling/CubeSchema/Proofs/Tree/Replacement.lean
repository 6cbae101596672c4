import CubeSchema.Proofs.Tree.Ways
import Mathlib.Data.List.Induction

/-!
# Replacing one node

Replacing the node at a cursor is an update of one place of the tree. The cursor and the same steps
from the root give the new node; what stands neither above nor below it stays as it was; the nodes
above it keep everything but the one child on the way, except that a property whose value is
replaced is written in full; and of two replacements at one place the second one counts. What cannot
be put in place changes nothing. The frame lemmas are by induction on the steps from the root, for
`Cursor.set`, which brings the nodes above a cursor up to date.
-/

namespace CubeSchema

namespace Node

/-- The node at the end of a way. -/
def at? (n : Node) : List Address → Option Node
  | [] => some n
  | a :: rest => (n.child? a).bind fun m => m.at? rest

theorem at?_append (n : Node) (v w : List Address) :
    n.at? (v ++ w) = (n.at? v).bind fun m => m.at? w := by
  induction v generalizing n with
  | nil => rfl
  | cons a v ih =>
    rw [List.cons_append, at?, at?, Option.bind_assoc]
    simp only [ih]

theorem at?_singleton (n : Node) (a : Address) : n.at? [a] = n.child? a := by
  rw [at?]
  cases n.child? a <;> rfl

/-- A node in which one child has been replaced has the others as they were. -/
theorem child?_of_ne {p q n : Node} {a b : Address}
    (h : q.children = p.children.map (Child.update a n)) (hb : b ≠ a) :
    q.child? b = p.child? b := by
  rw [child?, child?, h, List.find?_map, Option.map_map]
  -- The children are searched by their addresses, which have not changed.
  have hsame : ((fun c : Child => decide (c.address = b)) ∘ Child.update a n) =
      fun c => decide (c.address = b) := by
    funext c
    rw [Function.comp_apply, Child.address_update]
  rw [hsame]
  cases hfind : p.children.find? fun c => c.address = b with
  | none => rfl
  | some c =>
    have hc : c.address = b := by simpa using List.find?_some hfind
    rw [Option.map_some, Option.map_some, Function.comp_apply, Child.update,
      if_neg fun heq => hb (hc.symm.trans heq)]

/-- Ways that do not start at the replaced child lead where they did. -/
theorem at?_of_ne {p q n : Node} {a : Address}
    (h : q.children = p.children.map (Child.update a n)) {w : List Address} (hw : w ≠ [])
    (ha : ¬ [a] <+: w) : q.at? w = p.at? w := by
  cases w with
  | nil => exact absurd rfl hw
  | cons b w =>
    have hb : b ≠ a := fun heq => ha (heq ▸ ⟨w, rfl⟩)
    rw [at?, at?, child?_of_ne h hb]

/-! ## Steps -/

/-- A step to a child: to the one of a number, or to the first one in a field. -/
inductive Step where
  /-- To the child of a number. -/
  | child (i : Nat)
  /-- To the first child that an edge leads to. -/
  | field (edge : Edge)

/-- The child of a node that a step leads to. -/
def pick? (n : Node) : Step → Option Child
  | .child i => n.children[i]?
  | .field edge => n.children.find? fun c => c.address.edge = edge

theorem mem_children_of_pick? {n : Node} {s : Step} {child : Child} (h : n.pick? s = some child) :
    child ∈ n.children := by
  cases s with
  | child i => exact List.mem_of_getElem? h
  | field edge => exact List.mem_of_find?_eq_some h

/-- A step to the replaced child leads to what it has been replaced by. -/
theorem pick?_updated {p q n : Node} {s : Step} {child : Child} (h : p.pick? s = some child)
    (hq : q.children = p.children.map (Child.update child.address n)) :
    q.pick? s = some ⟨child.address, n⟩ := by
  have hupdate : Child.update child.address n child = ⟨child.address, n⟩ := if_pos rfl
  cases s with
  | child i =>
    have hi : p.children[i]? = some child := h
    show q.children[i]? = _
    rw [hq, List.getElem?_map, hi, Option.map_some, hupdate]
  | field edge =>
    have hfind : p.children.find? (fun c => c.address.edge = edge) = some child := h
    show q.children.find? (fun c => c.address.edge = edge) = _
    rw [hq, List.find?_map]
    simp only [Function.comp_def, Child.address_update]
    rw [hfind, Option.map_some, hupdate]

end Node

namespace Cursor

open Node (Step)

/-! ## Cursors of a tree -/

/-- Takes a step. -/
def step? (c : Cursor) : Step → Option Cursor
  | .child i => c.children[i]?
  | .field edge => c.field? edge

/-- Takes steps one after the other. -/
def walk? (c : Cursor) (steps : List Step) : Option Cursor := steps.foldlM step? c

/-- The cursors of a tree: that of the root, and those of the children of the others. -/
inductive IsIn (n : Node) : Cursor → Prop
  /-- The root. -/
  | root : IsIn n (root n)
  /-- A child. -/
  | descend {c : Cursor} {child : Child} (hc : IsIn n c) (hchild : child ∈ c.focus.children) :
    IsIn n (c.descend child)

theorem step?_eq (c : Cursor) (s : Step) : c.step? s = (c.focus.pick? s).map c.descend := by
  cases s with
  | child i => exact List.getElem?_map ..
  | field edge => rfl

theorem walk?_concat (c : Cursor) (steps : List Step) (s : Step) :
    c.walk? (steps ++ [s]) = (c.walk? steps).bind fun d => d.step? s := by
  rw [walk?, List.foldlM_append]
  simp only [List.foldlM_cons, List.foldlM_nil, bind_pure]
  rfl

/-- What steps lead to is the root, or a child of what all but the last one lead to. -/
theorem walk?_concat_eq_some {c d : Cursor} {steps : List Step} {s : Step}
    (h : c.walk? (steps ++ [s]) = some d) :
    ∃ e child, c.walk? steps = some e ∧ e.focus.pick? s = some child ∧ d = e.descend child := by
  rw [walk?_concat] at h
  obtain ⟨e, he, hs⟩ := Option.bind_eq_some_iff.1 h
  rw [step?_eq] at hs
  obtain ⟨child, hchild, rfl⟩ := Option.map_eq_some_iff.1 hs
  exact ⟨e, child, he, hchild, rfl⟩

theorem isIn_of_walk? {n : Node} {steps : List Step} {c : Cursor}
    (h : (root n).walk? steps = some c) : IsIn n c := by
  induction steps using List.reverseRecOn generalizing c with
  | nil =>
    obtain rfl := Option.some.inj h
    exact .root
  | append_singleton steps s ih =>
    obtain ⟨d, child, hd, hchild, rfl⟩ := walk?_concat_eq_some h
    exact (ih hd).descend (Node.mem_children_of_pick? hchild)

@[simp] theorem tree_descend (c : Cursor) (child : Child) : (c.descend child).tree = c.tree := by
  obtain ⟨focus, above⟩ := c
  cases above with
  | nil => rfl
  | cons f above => simp [tree, descend, List.getLast?_cons]

theorem IsIn.tree_eq {n : Node} {c : Cursor} (h : IsIn n c) : c.tree = n := by
  induction h with
  | root => rfl
  | descend hc hchild ih => rw [tree_descend, ih]

/-- The way of a cursor leads to its node. -/
theorem IsIn.at?_way {n : Node} {c : Cursor} (h : IsIn n c) : n.at? c.way = some c.focus := by
  induction h with
  | root => rfl
  | descend hc hchild ih =>
    rw [way_descend, Node.at?_append, ih, Option.bind_some, Node.at?_singleton,
      Node.child?_address hchild]
    rfl

/-! ## Bringing the nodes above a cursor up to date -/

/-- The cursor with another node in its place, and with the nodes above it brought up to date. -/
def set (c : Cursor) (n : Node) : Cursor := { focus := n, above := refreshed n c.above }

theorem set_descend (c : Cursor) (child : Child) (n : Node) :
    (c.descend child).set n =
      (c.set (c.focus.put child.address n)).descend ⟨child.address, n⟩ := rfl

@[simp] theorem focus_set (c : Cursor) (n : Node) : (c.set n).focus = n := rfl

/-- Bringing the nodes above up to date keeps the way. -/
theorem IsIn.way_set {n : Node} {c : Cursor} (h : IsIn n c) (m : Node) : (c.set m).way = c.way := by
  induction h generalizing m with
  | root => rfl
  | descend hc hchild ih => rw [set_descend, way_descend, way_descend, ih]

theorem refreshed_refreshed (x y : Node) (fs : List Frame) :
    refreshed y (refreshed x fs) = refreshed y fs := by
  induction fs generalizing x y with
  | nil => rfl
  | cons f fs ih =>
    rw [refreshed, refreshed, refreshed]
    simp only [Node.put_put, ih]

/-- Of two nodes put at a cursor, the second one stays. -/
theorem set_set (c : Cursor) (x y : Node) : (c.set x).set y = c.set y := by
  rw [set, set, set, refreshed_refreshed]

theorem isAbsent_put_focus {c : Cursor} {child : Child} (h : child ∈ c.focus.children) (m : Node) :
    (c.focus.put child.address m).isAbsent = false := by
  rw [Node.isAbsent_put, Node.isAbsent_of_mem_addresses (List.mem_map_of_mem h)]

/-- The cursor with another node in its place is one of the tree with that node. -/
theorem IsIn.set {n : Node} {c : Cursor} (h : IsIn n c) {m : Node} (hm : m.isAbsent = false) :
    IsIn (c.set m).tree (c.set m) := by
  induction h generalizing m with
  | root => exact .root
  | @descend c child hc hchild ih =>
    rw [set_descend, tree_descend]
    -- The new parent stands in the tree by the induction hypothesis, and has the node as a child.
    refine (ih (isAbsent_put_focus hchild m)).descend ?_
    rw [focus_set, Node.children_put (List.mem_map_of_mem hchild) hm]
    exact List.mem_map.2 ⟨child, hchild, if_pos rfl⟩

/-- The steps that led to the cursor lead to the new node. -/
theorem walk?_set {n : Node} {steps : List Step} {c : Cursor}
    (h : (root n).walk? steps = some c) {m : Node} (hm : m.isAbsent = false) :
    (root (c.set m).tree).walk? steps = some (c.set m) := by
  induction steps using List.reverseRecOn generalizing c m with
  | nil =>
    obtain rfl := Option.some.inj h
    rfl
  | append_singleton steps s ih =>
    obtain ⟨d, child, hd, hchild, rfl⟩ := walk?_concat_eq_some h
    have hmem : child ∈ d.focus.children := Node.mem_children_of_pick? hchild
    have hchildren := Node.children_put (List.mem_map_of_mem hmem) hm
    rw [set_descend, tree_descend, walk?_concat, ih hd (isAbsent_put_focus hmem m),
      Option.bind_some, step?_eq, focus_set, Node.pick?_updated hchild hchildren, Option.map_some]

/-! ## What stays as it was -/

/-- Beside a child that is put in, everything stays where it is if it does beside the parent. -/
theorem IsIn.at?_beside_child {n q x : Node} {c : Cursor} {a : Address} (hc : IsIn n c)
    (hset : IsIn (c.set q).tree (c.set q))
    (hq : q.children = c.focus.children.map (Child.update a x))
    (hparent : ∀ w, ¬ w <+: c.way → ¬ c.way <+: w → (c.set q).tree.at? w = n.at? w)
    {w : List Address} (hw : ¬ w <+: c.way ++ [a]) (hw' : ¬ c.way ++ [a] <+: w) :
    (c.set q).tree.at? w = n.at? w := by
  by_cases hbelow : c.way <+: w
  · -- The way goes through the parent and then to another child of it.
    obtain ⟨v, rfl⟩ := hbelow
    have hat : (c.set q).tree.at? c.way = some q := hc.way_set q ▸ hset.at?_way
    rw [Node.at?_append, Node.at?_append, hat, hc.at?_way, Option.bind_some, Option.bind_some]
    refine Node.at?_of_ne hq ?_ fun ha => hw' ?_
    · rintro rfl
      exact hw (by simp)
    · rwa [List.prefix_append_right_inj]
  · exact hparent w (fun h => hw (h.trans (List.prefix_append _ _))) hbelow

/-- What is neither above nor below the new node stays as it was. -/
theorem IsIn.at?_set_beside {n : Node} {c : Cursor} (h : IsIn n c) {m : Node}
    (hm : m.isAbsent = false) {w : List Address} (hw : ¬ w <+: c.way) (hw' : ¬ c.way <+: w) :
    (c.set m).tree.at? w = n.at? w := by
  induction h generalizing m w with
  | root => exact absurd List.nil_prefix hw'
  | @descend c child hc hchild ih =>
    have hput := isAbsent_put_focus hchild m
    rw [way_descend] at hw hw'
    rw [set_descend, tree_descend]
    exact hc.at?_beside_child (hc.set hput) (Node.children_put (List.mem_map_of_mem hchild) hm)
      (fun w => ih hput) hw hw'

/-- What is above the new node keeps all but one child. -/
theorem IsIn.at?_set_above {n : Node} {c : Cursor} (h : IsIn n c) {m : Node}
    (hm : m.isAbsent = false) {w : List Address} (hw : w <+: c.way) (hne : w ≠ c.way) :
    ∃ x y, n.at? w = some x ∧ (c.set m).tree.at? w = some y ∧ y.addresses = x.addresses ∧
      y.shell = x.shell := by
  induction h generalizing m with
  | root => exact absurd (List.prefix_nil.1 hw) hne
  | @descend c child hc hchild ih =>
    have hput := isAbsent_put_focus hchild m
    rw [way_descend] at hw hne
    rw [set_descend, tree_descend]
    -- The lowest of the nodes above is the parent; the others are those above it.
    by_cases heq : w = c.way
    · refine ⟨c.focus, c.focus.put child.address m, heq ▸ hc.at?_way, ?_,
        Node.addresses_put (List.mem_map_of_mem hchild) hm, Node.shell_put ..⟩
      exact heq ▸ hc.way_set _ ▸ (hc.set hput).at?_way
    · exact ih hput ((List.prefix_concat_iff.1 hw).resolve_left hne) heq

/-! ## Replacing -/

theorem replace_descend (c : Cursor) (child : Child) (m : Node) :
    (c.descend child).replace m =
      if m.fits child.address.edge.slot then
        .ok ((c.set (c.focus.replaced child.address m)).descend ⟨child.address, m⟩)
      else .error .misfit := by
  rw [replace, descend]
  simp only [Node.replace?_eq]
  cases m.fits child.address.edge.slot <;> rfl

/-- Of two replacements at one cursor, the second one counts. -/
theorem replace_again (c : Cursor) (child : Child) (x y : Node) :
    ((c.set (c.focus.replaced child.address x)).descend ⟨child.address, x⟩).replace y =
      (c.descend child).replace y := by
  rw [replace_descend, replace_descend, focus_set, Node.replaced_replaced, set_set]

section

variable {n : Node} {c : Cursor} {child : Child} {m : Node} (hc : IsIn n c)
  (hchild : child ∈ c.focus.children) (hm : m.isAbsent = false)

include hc hchild

theorem isIn_set_replaced (m : Node) : IsIn (c.set (c.focus.replaced child.address m)).tree
    (c.set (c.focus.replaced child.address m)) :=
  hc.set (Node.isAbsent_replaced (List.mem_map_of_mem hchild))

include hm

/-- The way to the child leads to the new node. -/
theorem at?_replaced : (c.set (c.focus.replaced child.address m)).tree.at?
    (c.descend child).way = some m := by
  have hset := isIn_set_replaced hc hchild m
  rw [way_descend, Node.at?_append, ← hc.way_set (c.focus.replaced child.address m), hset.at?_way,
    Option.bind_some, Node.at?_singleton, focus_set]
  have hmem : (⟨child.address, m⟩ : Child) ∈ (c.focus.replaced child.address m).children := by
    rw [Node.children_replaced (List.mem_map_of_mem hchild) hm]
    exact List.mem_map.2 ⟨child, hchild, if_pos rfl⟩
  exact Node.child?_address hmem

theorem at?_replaced_beside {w : List Address} (hw : ¬ w <+: (c.descend child).way)
    (hw' : ¬ (c.descend child).way <+: w) :
    (c.set (c.focus.replaced child.address m)).tree.at? w = n.at? w := by
  have haddress : child.address ∈ c.focus.addresses := List.mem_map_of_mem hchild
  rw [way_descend] at hw hw'
  exact hc.at?_beside_child (isIn_set_replaced hc hchild m) (Node.children_replaced haddress hm)
    (fun w => hc.at?_set_beside (Node.isAbsent_replaced haddress)) hw hw'

theorem at?_replaced_above {w : List Address} (hw : w <+: (c.descend child).way)
    (hne : w ≠ (c.descend child).way) :
    ∃ x y, n.at? w = some x ∧
      (c.set (c.focus.replaced child.address m)).tree.at? w = some y ∧
      y.addresses = x.addresses ∧
      y.shell = if child.address.edge = .propertyValue ∧ w = c.way then x.shell.unabbreviated
        else x.shell := by
  have haddress : child.address ∈ c.focus.addresses := List.mem_map_of_mem hchild
  have hpresent := Node.isAbsent_replaced (n := m) haddress
  rw [way_descend] at hw hne
  have hle : w <+: c.way := (List.prefix_concat_iff.1 hw).resolve_left hne
  by_cases heq : w = c.way
  · refine ⟨c.focus, c.focus.replaced child.address m, heq ▸ hc.at?_way, ?_, ?_, ?_⟩
    · exact heq ▸ hc.way_set _ ▸ (isIn_set_replaced hc hchild m).at?_way
    · exact Node.addresses_replaced haddress hm
    · rw [Node.shell_replaced]
      simp [heq]
  · obtain ⟨x, y, hx, hy, haddresses, hshell⟩ := hc.at?_set_above hpresent hle heq
    exact ⟨x, y, hx, hy, haddresses, by simp [heq, hshell]⟩

end

/-- The writes of a replacement in the order in which they are made. The field of the parent takes
only a node that it admits; then a property is written in full, and at last the cursor goes to the
new node. -/
def overwrite (m : Node) : EStateM Fault Cursor PUnit := do
  match (← get).above with
  | [] => throw .noPlace
  | f :: above =>
    if m.fits f.address.edge.slot then
      let parent := f.parent.put f.address m
      modify fun c => { c with above := { f with parent } :: refreshed parent above }
      if f.address.edge = .propertyValue then
        let parent := parent.unabbreviated
        modify fun c => { c with above := { f with parent } :: refreshed parent above }
      modify fun c => { c with focus := m }
    else throw .misfit

/-- Nothing is written by a replacement that fails, and everything by one that does not. -/
theorem run_overwrite (c : Cursor) (m : Node) : (overwrite m).run c =
    match c.replace m with
    | .ok c' => .ok ⟨⟩ c'
    | .error e => .error e c := by
  obtain ⟨focus, above⟩ := c
  cases above with
  | nil => rfl
  | cons f above =>
    -- Only the value of a property is written in two writes, of which the second one stays.
    by_cases hfits : m.fits f.address.edge.slot = true
    · by_cases hedge : f.address.edge = .propertyValue
      · rw [hedge] at hfits
        simp [overwrite, replace, Node.replace?_eq, Node.replaced, hfits, hedge]
      · simp [overwrite, replace, Node.replace?_eq, Node.replaced, hfits, hedge]
    · simp [overwrite, replace, Node.replace?_eq, hfits]

end Cursor

/-- Replacing the node that steps from the root lead to. At the root, and with a node that the place
does not admit, it fails with nothing written. Otherwise the same steps lead to the new node;
everything beside it is as it was; the nodes above it keep the places of their children and all
other data, except that a property with a new value is written in full; and the next replacement at
the new cursor does what it would have done at the old one. -/
theorem replace_updates {n : Node} {steps : List Node.Step} {c : Cursor}
    (hc : (Cursor.root n).walk? steps = some c) (m : Node) :
    c.tree = n ∧
    (c.above = [] → (Cursor.overwrite m).run c = .error .noPlace c) ∧
    (c.above ≠ [] → m.fits c.edge.slot = false → (Cursor.overwrite m).run c = .error .misfit c) ∧
    (c.above ≠ [] → m.fits c.edge.slot = true → ∃ c',
      (Cursor.overwrite m).run c = .ok ⟨⟩ c' ∧ c.replace m = .ok c' ∧
      c'.focus = m ∧ (Cursor.root c'.tree).walk? steps = some c' ∧ c'.tree.at? c.way = some m ∧
      (∀ w, ¬ w <+: c.way → ¬ c.way <+: w → c'.tree.at? w = n.at? w) ∧
      (∀ w, w <+: c.way → w ≠ c.way → ∃ x y, n.at? w = some x ∧ c'.tree.at? w = some y ∧
        y.addresses = x.addresses ∧
        y.shell = if c.edge = .propertyValue ∧ w = c.way.dropLast then x.shell.unabbreviated
          else x.shell) ∧
      ∀ m', c'.replace m' = c.replace m') := by
  have htree : c.tree = n := (Cursor.isIn_of_walk? hc).tree_eq
  -- Either there are no steps, and the cursor is at the root, or the last one goes to a child.
  rcases List.eq_nil_or_concat' steps with rfl | ⟨steps, s, rfl⟩
  · obtain rfl : Cursor.root n = c := Option.some.inj hc
    refine ⟨htree, fun _ => ?_, fun habove => absurd rfl habove, fun habove => absurd rfl habove⟩
    rw [Cursor.run_overwrite]
    rfl
  · obtain ⟨d, child, hd, hpick, rfl⟩ := Cursor.walk?_concat_eq_some hc
    have hdIn := Cursor.isIn_of_walk? hd
    have hchild := Node.mem_children_of_pick? hpick
    have haddress : child.address ∈ d.focus.addresses := List.mem_map_of_mem hchild
    have hedge : (d.descend child).edge = child.address.edge := rfl
    have hbelow : (d.descend child).above ≠ [] := List.cons_ne_nil _ _
    refine ⟨htree, fun habove => absurd habove hbelow, fun _ hfits => ?_, fun _ hfits => ?_⟩
    · rw [hedge] at hfits
      rw [Cursor.run_overwrite, Cursor.replace_descend, hfits, if_neg Bool.false_ne_true]
    · rw [hedge] at hfits
      have hm := Node.isAbsent_of_fits hfits
      have hreplace : (d.descend child).replace m =
          .ok ((d.set (d.focus.replaced child.address m)).descend ⟨child.address, m⟩) := by
        rw [Cursor.replace_descend, if_pos hfits]
      refine ⟨_, by rw [Cursor.run_overwrite, hreplace], hreplace, rfl, ?_, ?_, fun w hw hw' => ?_,
        fun w hw hne => ?_, d.replace_again child m⟩
      · rw [Cursor.tree_descend, Cursor.walk?_concat,
          Cursor.walk?_set hd (Node.isAbsent_replaced haddress), Option.bind_some, Cursor.step?_eq,
          Cursor.focus_set, Node.pick?_updated hpick (Node.children_replaced haddress hm),
          Option.map_some]
      · rw [Cursor.tree_descend]
        exact Cursor.at?_replaced hdIn hchild hm
      · rw [Cursor.tree_descend]
        exact Cursor.at?_replaced_beside hdIn hchild hm hw hw'
      · have hparent : (d.descend child).way.dropLast = d.way := by simp
        rw [Cursor.tree_descend, hedge, hparent]
        exact Cursor.at?_replaced_above hdIn hchild hm hw hne

/-- The tree of the source `f({ x }, y)`. -/
def shortProperty : Node :=
  let name (text : String) : Node := .identifier .unknown (lit text)
  .program .unknown [.exprStmt (.call (name "f")
    [.object .unknown [.property .unknown (name "x") (name "x") false true], name "y"] false)]

/-- The steps to the value of its property. -/
def stepsToValue : List Node.Step :=
  [.child 0, .field .stmtExpr, .child 1, .child 0, .field .propertyValue]

/-- The value of the property is replaced by a number, to which the same steps lead then, and the
other argument is the one it was. A statement is refused. -/
theorem shortProperty_replaced : ∃ c, (Cursor.root shortProperty).walk? stepsToValue = some c ∧
    (Cursor.overwrite (.exprStmt .absent)).run c = .error .misfit c ∧
    ∃ c', c.replace (.numberLiteral .unknown (lit "1")) = .ok c' ∧
      (Cursor.root c'.tree).walk? stepsToValue = some c' ∧
      c'.tree.at? [⟨.programBody, some 0⟩, ⟨.stmtExpr, none⟩, ⟨.callArgument, some 1⟩] =
        some (.identifier .unknown (lit "y")) := by
  obtain ⟨c, hc⟩ : ∃ c, (Cursor.root shortProperty).walk? stepsToValue = some c := ⟨_, rfl⟩
  have hfacts : ((Cursor.root shortProperty).walk? stepsToValue).map
      (fun c => (c.edge, c.way, c.above.length)) = some (.propertyValue,
        [⟨.programBody, some 0⟩, ⟨.stmtExpr, none⟩, ⟨.callArgument, some 0⟩,
          ⟨.objectProperty, some 0⟩, ⟨.propertyValue, none⟩], 5) := by decide
  rw [hc, Option.map_some, Option.some.injEq, Prod.mk.injEq, Prod.mk.injEq] at hfacts
  obtain ⟨hedge, hway, hlength⟩ := hfacts
  have habove : c.above ≠ [] := List.ne_nil_of_length_pos (by omega)
  have hrefused := (replace_updates hc (.exprStmt .absent)).2.2.1 habove (by rw [hedge]; decide)
  obtain ⟨c', -, hreplace, -, hsteps, -, hbeside, -⟩ :=
    (replace_updates hc (.numberLiteral .unknown (lit "1"))).2.2.2 habove (by rw [hedge]; decide)
  refine ⟨c, hc, hrefused, c', hreplace, hsteps, ?_⟩
  rw [hbeside _ (by rw [hway]; decide) (by rw [hway]; decide)]
  rfl

end CubeSchema
