import CubeSchema.Proofs.Tree.Ways
import CubeSchema.Tree.Traverse

/-!
# What a traversal visits

A traversal with a visitor that leaves the tree as it is calls the handlers at the cursors that
`Cursor.visits` lists, in this order, and at no others; a traversal of what is below a node does so
at the cursors below it. The run lemmas are by induction on the depth that is left, from one on the
children of a single node.
-/

namespace CubeSchema

variable {σ : Type}

/-- A visitor that leaves every node as it is. -/
def Visitor.Keeps (visit : Visitor σ) : Prop :=
  ∀ c s c' s', visit c s = .ok (c', s') → c' = c

/-- What a visitor makes of its state at a cursor. -/
def Visitor.effect (visit : Visitor σ) (s : σ) (c : Cursor) : Except Fault σ :=
  (visit c s).map Prod.snd

/-- What becomes of a state when the handlers for the kinds of some nodes are called at these nodes,
one after the other; for a node of another kind nothing is called. -/
def Handlers.calls (handlers : Handlers σ) (cs : List Cursor) (s : σ) : Except Fault σ :=
  (cs.filter fun c => (handlers c.focus.kind).isSome).foldlM handlers.visitor.effect s

theorem Visitor.Keeps.eq_effect {visit : Visitor σ} (h : visit.Keeps) (c : Cursor) (s : σ) :
    visit c s = (visit.effect s c).map (Prod.mk c) := by
  unfold Visitor.effect
  cases hvisit : visit c s with
  | error e => rfl
  | ok r =>
    obtain ⟨c', s'⟩ := r
    obtain rfl := h c s c' s' hvisit
    rfl

theorem Handlers.calls_eq (handlers : Handlers σ) (cs : List Cursor) (s : σ) :
    handlers.calls cs s = cs.foldlM handlers.visitor.effect s := by
  rw [calls, List.foldlM_filter]
  -- Where there is no handler, the visitor leaves its state as it is.
  congr 1
  funext s c
  split
  · rfl
  · rename_i hnone
    have hnone : handlers c.focus.kind = none := by simpa using hnone
    simp only [Visitor.effect, visitor, hnone]
    rfl

theorem foldlM_flatMap {ε α β γ : Type} (f : α → List β) (g : γ → β → Except ε γ) (l : List α)
    (s : γ) : (l.flatMap f).foldlM g s = l.foldlM (fun s x => (f x).foldlM g s) s := by
  induction l generalizing s with
  | nil => rfl
  | cons x l ih =>
    rw [List.flatMap_cons, List.foldlM_append, List.foldlM_cons]
    simp only [ih]

namespace Cursor

/-- A walk of the children of a node that leaves each of them as it is. -/
theorem traverseChildren_eq {walk : Visitor σ} {c : Cursor} {f : σ → Child → Except Fault σ}
    {cs : List Child} (hcs : ∀ child ∈ cs, child ∈ c.focus.children)
    (hwalk : ∀ child ∈ cs, ∀ s,
      walk (c.descend child) s = (f s child).map (Prod.mk (c.descend child))) (s : σ) :
    traverseChildren walk (cs.map Child.address) c s = (cs.foldlM f s).map (Prod.mk c) := by
  induction cs generalizing s with
  | nil => rfl
  | cons child cs ih =>
    have hstep : walk (c.descend ⟨child.address, child.node⟩) s = _ :=
      hwalk child (List.mem_cons_self ..) s
    rw [List.map_cons, traverseChildren, Node.child?_address (hcs child (List.mem_cons_self ..)),
      List.foldlM_cons]
    simp only [hstep]
    -- If the child is walked to the end, the walk goes on at its parent, which is `c` again.
    cases hf : f s child with
    | error e => rfl
    | ok s' =>
      exact ih (fun other h => hcs other (List.mem_cons_of_mem _ h))
        (fun other h => hwalk other (List.mem_cons_of_mem _ h)) s'

/-- A walk of what is below a node, if each child is walked as its visits say. -/
theorem traverseBelow_eq_of_children {visit : Visitor σ} {fuel : Nat} {c : Cursor}
    (hpresent : c.focus.isAbsent = false)
    (h : ∀ child ∈ c.focus.children, ∀ s, traverse visit fuel (c.descend child) s =
      ((c.descend child).visits.foldlM visit.effect s).map (Prod.mk (c.descend child))) (s : σ) :
    c.traverseBelow visit fuel s =
      (c.descendants.foldlM visit.effect s).map (Prod.mk c) := by
  rw [descendants_eq hpresent, foldlM_flatMap, children_eq, List.foldlM_map]
  exact traverseChildren_eq (fun _ h => h) h s

/-- A walk of a tree visits the cursors of the tree. -/
theorem traverse_eq {visit : Visitor σ} (hkeeps : visit.Keeps) {fuel : Nat} {c : Cursor}
    (hc : c.focus.IsGapless) (hfuel : c.focus.nodes.length ≤ fuel) (s : σ) :
    traverse visit fuel c s = (c.visits.foldlM visit.effect s).map (Prod.mk c) := by
  induction fuel generalizing c s with
  | zero =>
    rw [Node.nodes_eq hc.present] at hfuel
    cases hfuel
  | succ fuel ih =>
    -- Each child has fewer nodes, so the depth that is left is enough for it.
    have hshort : ∀ child ∈ c.focus.children, child.node.nodes.length ≤ fuel := by
      intro child hchild
      refine Nat.le_of_lt_succ ?_
      calc child.node.nodes.length < c.focus.nodes.length := Node.length_nodes_lt hchild
        _ ≤ fuel + 1 := hfuel
    have hbelow := traverseBelow_eq_of_children hc.present fun child hchild =>
      ih (hc.child hchild) (hshort child hchild)
    rw [descendants_eq hc.present] at hbelow
    have hstep : traverse visit (fuel + 1) c s =
        visit c s >>= fun r => traverseBelow visit fuel r.1 r.2 := by
      rw [traverse, hc.present, if_neg Bool.false_ne_true]
      rfl
    rw [hstep, hkeeps.eq_effect, visits_eq hc.present, List.foldlM_cons]
    cases visit.effect s c with
    | error e => rfl
    | ok s' => exact hbelow s'

/-- A walk of what is below a node visits the cursors below it. -/
theorem traverseBelow_eq {visit : Visitor σ} (hkeeps : visit.Keeps) {fuel : Nat} {c : Cursor}
    (hc : c.focus.IsGapless) (hfuel : c.focus.nodes.length ≤ fuel) (s : σ) :
    c.traverseBelow visit fuel s = (c.descendants.foldlM visit.effect s).map (Prod.mk c) :=
  traverseBelow_eq_of_children hc.present
    (fun _ hchild => traverse_eq hkeeps (hc.child hchild)
      (Nat.le_of_lt (Nat.lt_of_lt_of_le (Node.length_nodes_lt hchild) hfuel))) s

theorem length_nodes_le {c d : Cursor} (h : d ∈ c.visits) :
    d.focus.nodes.length ≤ c.focus.nodes.length := by
  have hfocus : ∀ e : Cursor, e.focus.nodes.length = e.visits.length := fun e => by
    rw [← Node.map_focus_visits e.above, List.length_map, visits]
  rw [hfocus, hfocus, ← filter_visits h]
  exact List.length_filter_le ..

/-- A way leads from the root to a cursor exactly if this is visited and has the way. -/
theorem reach?_root_iff {n : Node} (hn : n.IsGapless) {w : List Address} {c : Cursor} :
    (root n).reach? w = some c ↔ c ∈ (root n).visits ∧ c.way = w := by
  constructor
  · intro h
    exact ⟨mem_visits_of_reach? hn h, way_of_reach? h⟩
  · rintro ⟨hmem, rfl⟩
    obtain ⟨w, hw⟩ := exists_reach?_of_mem_visits hmem
    rwa [way_of_reach? hw, way_root, List.nil_append]

end Cursor

/-- A traversal with handlers that leave the tree as it is calls them for every node of a kind that
has one, once and in front of what is below the node; the visited cursors are those that the ways
from the root lead to. A traversal of what is below one of these calls them for the same cursors
that the whole traversal does there, and in the same order. -/
theorem traverse_visits {n : Node} (hn : n.IsGapless) {handlers : Handlers σ}
    (hkeeps : handlers.visitor.Keeps) {fuel : Nat} (hfuel : n.nodes.length ≤ fuel) (s : σ) :
    (Cursor.root n).traverse handlers.visitor fuel s =
      (handlers.calls (Cursor.root n).visits s).map (Prod.mk (.root n)) ∧
    (Cursor.root n).visits.map Cursor.focus = n.nodes ∧
    ((Cursor.root n).visits.map Cursor.way).Nodup ∧
    (∀ w c, (Cursor.root n).reach? w = some c ↔ c ∈ (Cursor.root n).visits ∧ c.way = w) ∧
    ∀ c ∈ (Cursor.root n).visits, c.visits = c :: c.children.flatMap Cursor.visits ∧
      c.traverseBelow handlers.visitor fuel s =
        (handlers.calls ((Cursor.root n).visits.filter fun d =>
          c.way <+: d.way ∧ d.way ≠ c.way) s).map (Prod.mk c) := by
  refine ⟨?_, Node.map_focus_visits [] n, Cursor.nodup_ways (.root n),
    fun w c => Cursor.reach?_root_iff hn, fun c hc => ?_⟩
  · rw [handlers.calls_eq]
    exact Cursor.traverse_eq hkeeps hn hfuel s
  · have hgapless : c.focus.IsGapless := Cursor.isGapless_of_mem_visits hn hc
    refine ⟨Cursor.visits_eq hgapless.present, ?_⟩
    rw [Cursor.filter_descendants hc, handlers.calls_eq]
    exact Cursor.traverseBelow_eq hkeeps hgapless 
      (Nat.le_trans (Cursor.length_nodes_le hc) hfuel) s

/-- The source `[f(x), , y.z]`, which has a hole. -/
def holedList : Node :=
  let name (text : String) : Node := .identifier .unknown (lit text)
  .program .unknown [.exprStmt (.array .unknown
    [.call (name "f") [name "x"] false, .absent, .member (name "y") (name "z") false false])]

/-- Handlers that record the ways to the identifiers. -/
def identifierWays : Handlers (List (List Address))
  | .identifier => some fun c seen => .ok (c, seen ++ [c.way])
  | _ => none

theorem keeps_identifierWays : identifierWays.visitor.Keeps := by
  intro c s c' s' h
  unfold Handlers.visitor at h
  split at h
  · rename_i handle hhandle
    unfold identifierWays at hhandle
    split at hhandle
    · obtain rfl := Option.some.inj hhandle
      exact (Prod.mk.inj (Except.ok.inj h)).1.symm
    · cases hhandle
  · exact (Prod.mk.inj (Except.ok.inj h)).1.symm

/-- The identifiers of the list with a hole, and those of its last element, are visited from left to
right; the hole keeps its index. -/
theorem holedList_visited :
    holedList.IsGapless ∧ identifierWays.visitor.Keeps ∧ holedList.nodes.length ≤ 9 ∧
    (Cursor.root holedList).traverse identifierWays.visitor 9 [] =
      .ok (.root holedList, [
        [⟨.programBody, some 0⟩, ⟨.stmtExpr, none⟩, ⟨.arrayElement, some 0⟩, ⟨.callCallee, none⟩],
        [⟨.programBody, some 0⟩, ⟨.stmtExpr, none⟩, ⟨.arrayElement, some 0⟩,
          ⟨.callArgument, some 0⟩],
        [⟨.programBody, some 0⟩, ⟨.stmtExpr, none⟩, ⟨.arrayElement, some 2⟩,
          ⟨.memberObject, none⟩],
        [⟨.programBody, some 0⟩, ⟨.stmtExpr, none⟩, ⟨.arrayElement, some 2⟩,
          ⟨.memberProperty, none⟩]]) := by
  have hgapless : holedList.IsGapless := by decide
  have hsize : holedList.nodes.length ≤ 9 := by decide
  refine ⟨hgapless, keeps_identifierWays, hsize, ?_⟩
  rw [(traverse_visits hgapless keeps_identifierWays hsize []).1]
  rfl

end CubeSchema
