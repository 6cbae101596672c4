import CubeSchema.Proofs.Deferral.Placement
import CubeSchema.Proofs.Tree.Nodes

/-!
# What the nodes of a result stand for

Every node of a tree is found again in what a pass makes of the tree, in the same surroundings: in
the same declarations, and reached through the same fields (`IsImage`). All other nodes of the result
belong to functions that have been put around the value of a deferred property (`Added`).
`Placed.counterparts` says both, of the nodes that a walk over the first tree visits and the nodes of
the second one.
-/

namespace CubeSchema

open Deferral Node

/-- The declaration into whose body a step leads, if it is one. -/
def Frame.declaration? (f : Frame) : Option Declaration :=
  match f.parent with
  | .call callee args _ =>
    if f.address = ⟨.callArgument, some (args.length - 1)⟩ then CubeSchema.declaration? callee args
    else none
  | _ => none

namespace Cursor

/-- The declarations in whose bodies the node stands, inner ones first. -/
def around (c : Cursor) : List Declaration := c.above.filterMap Frame.declaration?

/-- The field that holds the parent of the node. -/
def upEdge (c : Cursor) : Edge := (c.parent?.map edge).getD .none

/-- The node is a property of a plain name that a declaration around it defers, and its value
mentions the name. -/
def Defers (c : Cursor) (name : Text) : Prop :=
  ∃ pos kpos key value shorthand,
    c.focus = .property pos (.identifier kpos key) value false shorthand ∧
    (∃ d ∈ c.around, d.defers key c.upEdge = true) ∧ name ∈ value.mentions

end Cursor

/-- The way to a node, as far as it matters for the functions put into the node. -/
structure Surrounds (above : List Frame) (ds : List Declaration) (up edge : Edge) : Prop where
  /-- The declarations around the node. -/
  around : above.filterMap Frame.declaration? = ds
  /-- The field that holds its parent. -/
  up (n : Node) : (Cursor.mk n above).upEdge = up
  /-- The field that holds it. -/
  edge (n : Node) : (Cursor.mk n above).edge = edge

namespace Surrounds

variable {above : List Frame} {ds : List Declaration} {up edge : Edge}

/-- A step that leads into no declaration. -/
theorem step (h : Surrounds above ds up edge) {parent : Node} {address : Address}
    (hnone : (Frame.mk parent address).declaration? = none) :
    Surrounds (⟨parent, address⟩ :: above) ds edge address.edge :=
  ⟨(List.filterMap_cons_none hnone).trans h.around, fun _ => h.edge parent, fun _ => rfl⟩

/-- A step into the body of a declaration. -/
theorem enter (h : Surrounds above ds up edge) {parent : Node} {address : Address}
    {d : Declaration} (hsome : (Frame.mk parent address).declaration? = some d) :
    Surrounds (⟨parent, address⟩ :: above) (d :: ds) edge address.edge :=
  ⟨(List.filterMap_cons_some hsome).trans (congrArg _ h.around), fun _ => h.edge parent,
    fun _ => rfl⟩

end Surrounds

/-- The second node is the one at the cursor with functions put in place in its surroundings. -/
def IsImage (ok : ParamRule) (c : Cursor) (y : Node) : Prop :=
  Placed ok true c.around c.upEdge c.edge c.focus y

theorem Surrounds.isImage {ok : ParamRule} {above : List Frame} {ds : List Declaration}
    {up edge : Edge} {n m : Node} (h : Surrounds above ds up edge)
    (hplaced : Placed ok true ds up edge n m) : IsImage ok ⟨n, above⟩ m := by
  rw [IsImage, h.up, h.edge, Cursor.around, h.around]
  exact hplaced

/-- For a declaration around it, the property at the cursor has a function with these parameters put
around its value, which is at the position. -/
def Cursor.Gains (ok : ParamRule) (c : Cursor) (params : List Text) (position : Position) : Prop :=
  ∃ pos kpos key value shorthand,
    c.focus = .property pos (.identifier kpos key) value false shorthand ∧
    value.position = position ∧
    ∃ d ∈ c.around, d.defers key c.upEdge = true ∧ ∃ outer, ok outer d key value params

/-- The node belongs to a function that has been put around the value of the property at the cursor:
it is a parameter, or the function itself. -/
inductive Added (ok : ParamRule) (c : Cursor) : Node → Prop
  | param {params : List Text} {position : Position} {name : Text}
      (hgains : c.Gains ok params position) (hname : name ∈ params) :
      Added ok c (.identifier .unknown name)
  | function {params : List Text} {position : Position} {x : Node}
      (hgains : c.Gains ok params position) : Added ok c (.deferred params position x)

/-- The nodes of a result with the cursors of the tree that they stand for. -/
structure Counterparts (ok : ParamRule) (cs : List Cursor) (ys : List Node) : Prop where
  /-- A node of the result is one of the tree, or has been added. -/
  of_result : ∀ y ∈ ys, ∃ c ∈ cs, IsImage ok c y ∨ Added ok c y
  /-- No node of the tree is lost. -/
  of_source : ∀ c ∈ cs, ∃ y ∈ ys, IsImage ok c y

namespace Counterparts

variable {ok : ParamRule} {cs cs' : List Cursor} {ys ys' : List Node}

theorem nil : Counterparts ok [] [] := ⟨by simp, by simp⟩

theorem cons {c : Cursor} {y : Node} (hfirst : IsImage ok c y) (h : Counterparts ok cs ys) :
    Counterparts ok (c :: cs) (y :: ys) := by
  constructor
  · rintro z (_ | ⟨_, hz⟩)
    · exact ⟨c, List.mem_cons_self .., .inl hfirst⟩
    · obtain ⟨b, hb, hz⟩ := h.of_result z hz
      exact ⟨b, List.mem_cons_of_mem _ hb, hz⟩
  · rintro b (_ | ⟨_, hb⟩)
    · exact ⟨y, List.mem_cons_self .., hfirst⟩
    · obtain ⟨z, hz, himage⟩ := h.of_source b hb
      exact ⟨z, List.mem_cons_of_mem _ hz, himage⟩

theorem append (h : Counterparts ok cs ys) (h' : Counterparts ok cs' ys') :
    Counterparts ok (cs ++ cs') (ys ++ ys') := by
  constructor
  · intro y hy
    rcases List.mem_append.1 hy with hy | hy
    · obtain ⟨c, hc, hy⟩ := h.of_result y hy
      exact ⟨c, List.mem_append_left _ hc, hy⟩
    · obtain ⟨c, hc, hy⟩ := h'.of_result y hy
      exact ⟨c, List.mem_append_right _ hc, hy⟩
  · intro c hc
    rcases List.mem_append.1 hc with hc | hc
    · obtain ⟨y, hy, himage⟩ := h.of_source c hc
      exact ⟨y, List.mem_append_left _ hy, himage⟩
    · obtain ⟨y, hy, himage⟩ := h'.of_source c hc
      exact ⟨y, List.mem_append_right _ hy, himage⟩

/-- Nodes that have been added may come in between. -/
theorem widen (h : Counterparts ok cs ys) (hsub : ys ⊆ ys')
    (hadded : ∀ y ∈ ys', y ∈ ys ∨ ∃ c ∈ cs, Added ok c y) : Counterparts ok cs ys' := by
  constructor
  · intro y hy
    rcases hadded y hy with hy | ⟨c, hc, hy⟩
    · exact h.of_result y hy
    · exact ⟨c, hc, .inr hy⟩
  · intro c hc
    obtain ⟨y, hy, himage⟩ := h.of_source c hc
    exact ⟨y, hsub hy, himage⟩

/-- The elements of a list field, taken one by one. -/
theorem all {above : List Frame} {parent : Node} {edge : Edge} {i : Nat} {ns ms : List Node}
    (hlength : ms.length = ns.length)
    (h : ∀ j < i + ns.length, ∀ p ∈ ns.zip ms,
      Counterparts ok (p.1.visits (⟨parent, ⟨edge, some j⟩⟩ :: above)) p.2.nodes) :
    Counterparts ok (visitsAll above parent edge i ns) (nodesAll ms) := by
  induction ns generalizing i ms with
  | nil =>
    rw [List.eq_nil_of_length_eq_zero hlength]
    exact .nil
  | cons n ns ih =>
    cases ms with
    | nil => simp at hlength
    | cons m ms =>
      have hi : i < i + (n :: ns).length := by simp
      refine (h i hi (n, m) (List.mem_cons_self ..)).append (ih (Nat.succ.inj hlength) ?_)
      intro j hj p hp
      refine h j ?_ p (List.mem_cons_of_mem _ hp)
      rw [List.length_cons]
      omega

end Counterparts

/-! ## Layers -/

/-- What layers add to a value are functions with their parameters. -/
theorem Layered.mem_nodes {ok : ParamRule} {key : Text} {up : Edge} {value x y z : Node}
    {ds : List Declaration} (h : Layered ok key up value ds x y) (hz : z ∈ y.nodes) :
    z ∈ x.nodes ∨ ∃ d ∈ ds, d.defers key up = true ∧ ∃ outer params, ok outer d key value params ∧
      ((∃ name ∈ params, z = .identifier .unknown name) ∨
        ∃ w, z = .deferred params value.position w) := by
  induction h with
  | nil => exact .inl hz
  | skip _ _ ih => exact (ih hz).imp_right List.exists_mem_cons_of_exists
  | @wrap d ds x y params hd hparams _ ih =>
    rcases List.mem_cons.1 hz with rfl | hz
    · exact .inr ⟨d, List.mem_cons_self .., hd, ds, params, hparams, .inr ⟨y, rfl⟩⟩
    rcases List.mem_append.1 hz with hz | hz
    · obtain ⟨p, hp, hz⟩ := exists_of_mem_nodesAll hz
      obtain ⟨name, hname, rfl⟩ := List.mem_map.1 hp
      exact .inr ⟨d, List.mem_cons_self .., hd, ds, params, hparams,
        .inl ⟨name, hname, List.mem_singleton.1 hz⟩⟩
    · exact (ih hz).imp_right List.exists_mem_cons_of_exists

theorem Layered.nodes_subset {ok : ParamRule} {key : Text} {up : Edge} {value x y : Node}
    {ds : List Declaration} (h : Layered ok key up value ds x y) : x.nodes ⊆ y.nodes := by
  induction h with
  | nil => exact List.Subset.refl _
  | skip _ _ ih => exact ih
  | wrap _ _ _ ih =>
    exact fun z hz => List.mem_cons_of_mem _ (List.mem_append_right _ (ih hz))

/-- Every declaration that defers the property has its function among the layers. -/
theorem Layered.exists_deferred {ok : ParamRule} {key : Text} {up : Edge} {value x y : Node}
    {ds : List Declaration} (h : Layered ok key up value ds x y) {d : Declaration} (hd : d ∈ ds)
    (hdefers : d.defers key up = true) : ∃ outer params w, ok outer d key value params ∧
      .deferred params value.position w ∈ y.nodes := by
  induction h with
  | nil => cases hd
  | skip hnot _ ih =>
    rcases List.mem_cons.1 hd with rfl | hd
    · rw [hdefers] at hnot
      cases hnot
    · exact ih hd
  | @wrap d' ds x y params hd' hparams _ ih =>
    rcases List.mem_cons.1 hd with rfl | hd
    · exact ⟨ds, params, y, hparams, List.mem_cons_self ..⟩
    · obtain ⟨outer, params', w, hok, hw⟩ := ih hd
      exact ⟨outer, params', w, hok, List.mem_cons_of_mem _ (List.mem_append_right _ hw)⟩

/-! ## Trees -/

section Steps

variable {callee : Node} {args : List Node} {optional : Bool}

/-- No step from a call that is no declaration leads into one. -/
theorem Frame.declaration?_call (h : CubeSchema.declaration? callee args = none)
    (address : Address) : (Frame.mk (.call callee args optional) address).declaration? = none := by
  unfold Frame.declaration?
  split <;> simp_all

theorem Frame.declaration?_argument {i : Nat} (hi : i + 1 < args.length) :
    (Frame.mk (.call callee args optional) ⟨.callArgument, some i⟩).declaration? = none := by
  have hne : i ≠ args.length - 1 := by omega
  simp [Frame.declaration?, hne]

/-- The step to the last argument leads into the declaration that the call is. -/
theorem Frame.declaration?_last (body : Node) :
    (Frame.mk (.call callee (args ++ [body]) optional)
      ⟨.callArgument, some args.length⟩).declaration? =
      CubeSchema.declaration? callee (args ++ [body]) := by
  simp [Frame.declaration?]

end Steps

theorem Node.visitsAll_append {above : List Frame} {parent : Node} {edge : Edge} {i : Nat}
    {ns ms : List Node} : visitsAll above parent edge i (ns ++ ms) =
      visitsAll above parent edge i ns ++ visitsAll above parent edge (i + ns.length) ms := by
  induction ns generalizing i with
  | nil => rfl
  | cons n ns ih =>
    rw [List.cons_append, visitsAll, visitsAll, ih, List.append_assoc, List.length_cons,
      Nat.add_right_comm, Nat.add_assoc]

/-- The nodes of the second tree stand for the nodes of the first one, or have been added. -/
theorem Placed.counterparts {ok : ParamRule} {ds : List Declaration} {up edge : Edge} {n m : Node}
    (h : Placed ok true ds up edge n m) {above : List Frame} (hs : Surrounds above ds up edge) :
    Counterparts ok (n.visits above) m.nodes := by
  induction h generalizing above with
  | @leaf ds up edge n hleaf =>
    have hself : IsImage ok ⟨n, above⟩ n := hs.isImage (.leaf hleaf)
    cases n <;> first | exact .nil | exact .cons hself .nil | cases hleaf
  | program hlength hbody ih =>
    exact .cons (hs.isImage (.program hlength hbody))
      (.all hlength fun j _ p hp => ih p hp (hs.step rfl))
  | varDecl hname hinit ihname ihinit =>
    exact .cons (hs.isImage (.varDecl hname hinit))
      ((ihname (hs.step rfl)).append (ihinit (hs.step rfl)))
  | exprStmt hx ih => exact .cons (hs.isImage (.exprStmt hx)) (ih (hs.step rfl))
  | templateLiteral hlength hexprs ih =>
    exact .cons (hs.isImage (.templateLiteral hlength hexprs))
      (.all hlength fun j _ p hp => ih p hp (hs.step rfl))
  | array hlength helements ih =>
    exact .cons (hs.isImage (.array hlength helements))
      (.all hlength fun j _ p hp => ih p hp (hs.step rfl))
  | object hlength hproperties ih =>
    exact .cons (hs.isImage (.object hlength hproperties))
      (.all hlength fun j _ p hp => ih p hp (hs.step rfl))
  | @field ds up edge pos kpos name value x value' shorthand hexpr hvalue hlayers ih =>
    -- Without the layers every node has its counterpart, and the layers are added.
    let p : Node := .property pos (.identifier kpos name) value false shorthand
    have hself : IsImage ok ⟨p, above⟩ (.property pos (.identifier kpos name) value' false
        (shorthand && !ds.any fun d => d.defers name up)) :=
      hs.isImage (.field hexpr hvalue hlayers)
    have hkey : IsImage ok ⟨.identifier kpos name, ⟨p, ⟨.propertyKey, none⟩⟩ :: above⟩
        (.identifier kpos name) := (hs.step rfl).isImage (.leaf rfl)
    have hinner : Counterparts ok (value.visits (⟨p, ⟨.propertyValue, none⟩⟩ :: above)) x.nodes :=
      ih (hs.step rfl)
    refine (Counterparts.cons hself ((Counterparts.cons hkey .nil).append hinner)).widen ?_ ?_
    · exact List.cons_subset_cons _ (List.cons_subset_cons _ hlayers.nodes_subset)
    · intro y hy
      rcases List.mem_cons.1 hy with rfl | hy
      · exact .inl (List.mem_cons_self ..)
      rcases List.mem_cons.1 hy with rfl | hy
      · exact .inl (List.mem_cons_of_mem _ (List.mem_cons_self ..))
      rcases hlayers.mem_nodes hy with hy | ⟨d, hd, hdefers, outer, params, hok, hy⟩
      · exact .inl (List.mem_cons_of_mem _ (List.mem_cons_of_mem _ hy))
      · have hgains : Cursor.Gains ok ⟨p, above⟩ params value.position :=
          ⟨pos, kpos, name, value, shorthand, rfl, rfl, d, (congrArg (d ∈ ·) hs.around).mpr hd,
            (hs.up p).symm ▸ hdefers, outer, hok⟩
        refine .inr ⟨⟨p, above⟩, List.mem_cons_self .., ?_⟩
        rcases hy with ⟨_, hname, rfl⟩ | ⟨_, rfl⟩
        · exact .param hgains hname
        · exact .function hgains
  | property hnone hkey hvalue ihkey ihvalue =>
    exact .cons (hs.isImage (.property hnone hkey hvalue))
      ((ihkey (hs.step rfl)).append (ihvalue (hs.step rfl)))
  | spread hx ih => exact .cons (hs.isImage (.spread hx)) (ih (hs.step rfl))
  | member hobj hprop ihobj ihprop =>
    exact .cons (hs.isImage (.member hobj hprop))
      ((ihobj (hs.step rfl)).append (ihprop (hs.step rfl)))
  | call hnone hcallee hlength hargs ihcallee ihargs =>
    exact .cons (hs.isImage (.call hnone hcallee hlength hargs))
      ((ihcallee (hs.step (Frame.declaration?_call hnone _))).append
        (.all hlength fun j _ p hp => ihargs p hp (hs.step (Frame.declaration?_call hnone _))))
  | declaration hsome hcallee hlength hargs hkind hbody ihcallee ihargs ihbody =>
    refine .cons (hs.isImage (.declaration hsome hcallee hlength hargs hkind hbody))
      ((ihcallee (hs.step rfl)).append ?_)
    rw [visitsAll_append, nodesAll_append]
    refine .append (.all hlength fun j hj p hp => ihargs p hp (hs.step ?_)) ?_
    · exact Frame.declaration?_argument (by simp at hj ⊢; omega)
    · rw [visitsAll, visitsAll, nodesAll, nodesAll, List.append_nil, List.append_nil]
      refine ihbody (hs.enter ?_)
      rw [Nat.zero_add, Frame.declaration?_last, hsome]
  | function hlength hparams hbody ihparams ihbody =>
    exact .cons (hs.isImage (.function hlength hparams hbody))
      ((Counterparts.all hlength fun j _ p hp => ihparams p hp (hs.step rfl)).append
        (ihbody (hs.step rfl)))
  | binary hleft hright ihl ihr =>
    exact .cons (hs.isImage (.binary hleft hright))
      ((ihl (hs.step rfl)).append (ihr (hs.step rfl)))
  | unary hx ih => exact .cons (hs.isImage (.unary hx)) (ih (hs.step rfl))
  | paren hx ih => exact .cons (hs.isImage (.paren hx)) (ih (hs.step rfl))

end CubeSchema
