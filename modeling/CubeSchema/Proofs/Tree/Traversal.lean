import CubeSchema.Proofs.Tree.Children
import CubeSchema.Tree.Traverse

/-!
# Walks that reach their end

A walk over a tree breaks off where a list field holds an absent node. `Node.isFull` says that no
list field of a node does, and `Careful` that a visitor leaves the node it stands at or puts a node
without such gaps in its place. Main statement: a careful visitor walks every tree without gaps to
the end. The step lemma is about one replacement, which leaves the addresses of all children on the
way as they were; the run lemma is by induction on the depth that is left.
-/

namespace CubeSchema

open Node

namespace Node

/-- Whether no list field of a node holds an absent node. -/
def isFull : Node → Bool
  | array _ elements => elements.all fun x => !x.isAbsent
  | n => !n.hasGap

/-- A node in which no list field holds an absent node has no gap. -/
theorem hasGap_of_isFull {n : Node} (h : n.isFull = true) : n.hasGap = false := by
  cases n <;> first | rfl | simpa [isFull] using h

/-! ## Replacing a child -/

theorem any_isAbsent_set {ns : List Node} (h : ns.any isAbsent = false) {n : Node}
    (hn : n.isAbsent = false) (i : Nat) : (ns.set i n).any isAbsent = false := by
  refine List.any_eq_false.2 fun m hm => ?_
  rcases List.mem_or_eq_of_mem_set hm with hm | rfl
  · exact List.any_eq_false.1 h m hm
  · simp [hn]

theorem allOf_set {p : Node → Bool} {ns : List Node} (h : allOf p ns = true) {n : Node}
    (hn : n.all p = true) (i : Nat) : allOf p (ns.set i n) = true := by
  refine allOf_eq_true.2 fun m hm => ?_
  rcases List.mem_or_eq_of_mem_set hm with hm | rfl
  · exact allOf_eq_true.1 h m hm
  · exact hn

/-- A node without gaps has none behind a replacement. -/
theorem isFull_put {p n : Node} (hp : p.isFull = true) (hn : n.isAbsent = false) (a : Address) :
    (p.put a n).isFull = true := by
  unfold put
  split
  all_goals first
    | exact hp
    | rfl
    | (simp only [isFull, hasGap, Bool.not_eq_true'] at hp ⊢; exact any_isAbsent_set hp hn _)
    | skip
  -- What is left is an array, which has its test turned around.
  rename_i pos elements i
  refine List.all_eq_true.2 fun m hm => ?_
  rcases List.mem_or_eq_of_mem_set hm with hm | rfl
  · exact List.all_eq_true.1 hp m hm
  · simp [hn]

theorem all_isFull_put {p n : Node} (hp : p.all isFull = true) (hn : n.all isFull = true)
    (hpresent : n.isAbsent = false) (a : Address) : (p.put a n).all isFull = true := by
  have htop : ∀ {q : Node}, q = p.put a n → q.isFull = true := by
    rintro q rfl
    refine isFull_put ?_ hpresent a
    cases p <;> first | rfl | simp_all [all]
  unfold put at htop ⊢
  split at htop
  all_goals
    have hfull := htop rfl
    first
      | exact hp
      | (simp only [all, Bool.and_eq_true] at hp ⊢
         simp only [hfull, hn, hp, allOf_set, and_self])

theorem all_isFull_unabbreviated (n : Node) : n.unabbreviated.all isFull = n.all isFull := by
  cases n <;> rfl

end Node

/-! ## Walks -/

/-- A node that is there and has no gaps anywhere below it. -/
def Node.IsSolid (n : Node) : Prop := n.isAbsent = false ∧ n.all isFull = true

theorem Node.IsSolid.isFull {n : Node} (h : n.IsSolid) : n.isFull = true := by
  obtain ⟨hpresent, hall⟩ := h
  cases n <;> simp_all [Node.all, Node.isFull, Node.hasGap, Node.isAbsent]

theorem Node.IsSolid.child {n : Node} (h : n.IsSolid) {c : Child} (hc : c ∈ n.children) :
    c.node.IsSolid :=
  ⟨isAbsent_of_mem_children (hasGap_of_isFull h.isFull) hc, all_of_mem_children h.2 hc⟩

theorem Node.IsSolid.put {p n : Node} (hp : p.IsSolid) (hn : n.IsSolid) (a : Address) :
    (p.put a n).IsSolid :=
  ⟨by rw [isAbsent_put, hp.1], all_isFull_put hp.2 hn.2 hn.1 a⟩

theorem Node.IsSolid.replaced {p n : Node} (hp : p.IsSolid) (hn : n.IsSolid) (a : Address) :
    (p.replaced a n).IsSolid := by
  have hput := hp.put hn a
  unfold Node.replaced
  split
  · exact ⟨by rw [isAbsent_unabbreviated, hput.1], by rw [all_isFull_unabbreviated, hput.2]⟩
  · exact hput

namespace Cursor

/-- The node and all nodes on the way to it are solid, and the way goes through their children. -/
structure IsSolid (c : Cursor) : Prop where
  /-- The node itself. -/
  focus : c.focus.IsSolid
  /-- The nodes on the way. -/
  above : ∀ f ∈ c.above, f.parent.IsSolid ∧ f.address ∈ f.parent.addresses

/-- The addresses along the way, with those of all children of each node on it. -/
def outline (c : Cursor) : List (Address × List Address) :=
  c.above.map fun f => (f.address, f.parent.addresses)

theorem IsSolid.descend {c : Cursor} (h : c.IsSolid) {child : Child}
    (hchild : child ∈ c.focus.children) : (c.descend child).IsSolid := by
  refine ⟨h.focus.child hchild, fun f hf => ?_⟩
  rcases List.mem_cons.1 hf with rfl | hf
  · exact ⟨h.focus, List.mem_map_of_mem hchild⟩
  · exact h.above f hf

theorem refreshed_solid {n : Node} (hn : n.IsSolid) {fs : List Frame}
    (h : ∀ f ∈ fs, f.parent.IsSolid ∧ f.address ∈ f.parent.addresses) :
    (∀ f ∈ refreshed n fs, f.parent.IsSolid ∧ f.address ∈ f.parent.addresses) ∧
      (refreshed n fs).map (fun f => (f.address, f.parent.addresses)) =
        fs.map fun f => (f.address, f.parent.addresses) := by
  induction fs generalizing n with
  | nil => exact ⟨by simp [refreshed], rfl⟩
  | cons f fs ih =>
    obtain ⟨hparent, haddress⟩ := h f (List.mem_cons_self ..)
    have hsame := addresses_put haddress hn.1
    obtain ⟨hsolid, houtline⟩ := ih (hparent.put hn f.address)
      fun g hg => h g (List.mem_cons_of_mem _ hg)
    refine ⟨fun g hg => ?_, ?_⟩
    · rcases List.mem_cons.1 hg with rfl | hg
      · exact ⟨hparent.put hn f.address, by rw [hsame]; exact haddress⟩
      · exact hsolid g hg
    · rw [refreshed, List.map_cons, List.map_cons, houtline, hsame]

/-- Putting a solid node in place of the one at a cursor. -/
theorem IsSolid.replace {c c' : Cursor} (h : c.IsSolid) {n : Node} (hn : n.IsSolid)
    (hreplace : c.replace n = .ok c') : c'.IsSolid ∧ c'.outline = c.outline := by
  unfold Cursor.replace at hreplace
  split at hreplace
  · cases hreplace
  · rename_i f fs hfs
    obtain ⟨hparent, haddress⟩ := h.above f (by rw [hfs]; exact List.mem_cons_self ..)
    have habove : ∀ g ∈ fs, g.parent.IsSolid ∧ g.address ∈ g.parent.addresses :=
      fun g hg => h.above g (by rw [hfs]; exact List.mem_cons_of_mem _ hg)
    rw [replace?_eq] at hreplace
    split at hreplace
    · cases hreplace
    · rename_i parent hput
      obtain rfl := Except.ok.inj hreplace
      -- The parent is the old one with the new child, written in full if it is a property.
      have hnew : parent.IsSolid ∧ parent.addresses = f.parent.addresses := by
        split at hput
        · obtain rfl := Option.some.inj hput
          exact ⟨hparent.replaced hn f.address, addresses_replaced haddress hn.1⟩
        · cases hput
      obtain ⟨hrest, houtline⟩ := refreshed_solid hnew.1 habove
      refine ⟨⟨hn, fun g hg => ?_⟩, ?_⟩
      · rcases List.mem_cons.1 hg with rfl | hg
        · exact ⟨hnew.1, by rw [hnew.2]; exact haddress⟩
        · exact hrest g hg
      · simp only [outline, hfs, List.map_cons, houtline, hnew.2]

end Cursor

/-- A visitor that never fails, and leaves the node it stands at or puts a solid one in its
place. -/
def Careful {σ : Type} (visit : Visitor σ) : Prop :=
  ∀ c s, c.focus.isAbsent = false →
    ∃ c' s', visit c s = .ok (c', s') ∧ (c' = c ∨ ∃ n : Node, n.IsSolid ∧ c.replace n = .ok c')

namespace Cursor

/-- The walk of the children of a node, where each single walk comes to its end. -/
theorem traverseChildren_ok {σ : Type} {walk : Visitor σ}
    (hwalk : ∀ c s, c.IsSolid → ∃ c' s', walk c s = .ok (c', s') ∧ c'.IsSolid ∧
      c'.outline = c.outline)
    {as : List Address} {c : Cursor} (hc : c.IsSolid) (has : ∀ a ∈ as, a ∈ c.focus.addresses)
    (s : σ) : ∃ c' s', traverseChildren walk as c s = .ok (c', s') ∧ c'.IsSolid ∧
      c'.outline = c.outline := by
  induction as generalizing c s with
  | nil => exact ⟨c, s, rfl, hc, rfl⟩
  | cons a as ih =>
    obtain ⟨child, hchild, rfl⟩ := List.mem_map.1 (has a (List.mem_cons_self ..))
    have hfound := child?_address hchild
    obtain ⟨d, t, hd, hsolid, houtline⟩ := hwalk (c.descend child) s (hc.descend hchild)
    -- The way to the child is as long as before, so the walk goes on at its parent.
    obtain ⟨f, fs, hfs⟩ : ∃ f fs, d.above = f :: fs := by
      cases habove : d.above with
      | nil => simp [outline, habove, Cursor.descend] at houtline
      | cons f fs => exact ⟨f, fs, rfl⟩
    have hparent : d.parent? = some ⟨f.parent, fs⟩ := by rw [parent?, hfs]
    simp only [outline, hfs, Cursor.descend, List.map_cons, List.cons.injEq, Prod.mk.injEq]
      at houtline
    obtain ⟨⟨-, haddresses⟩, habove⟩ := houtline
    have hup : IsSolid ⟨f.parent, fs⟩ :=
      ⟨(hsolid.above f (by rw [hfs]; exact List.mem_cons_self ..)).1,
        fun g hg => hsolid.above g (by rw [hfs]; exact List.mem_cons_of_mem _ hg)⟩
    obtain ⟨c', s', hrest, hsolid', houtline'⟩ := ih hup (fun b hb => by
      rw [haddresses]; exact has b (List.mem_cons_of_mem _ hb)) t
    refine ⟨c', s', ?_, hsolid', houtline'.trans habove⟩
    rw [traverseChildren, hfound]
    show (walk (c.descend ⟨child.address, child.node⟩) s >>= fun p =>
      traverseChildren walk as (p.1.parent?.getD c) p.2) = .ok (c', s')
    have hstep : walk (c.descend ⟨child.address, child.node⟩) s = .ok (d, t) := hd
    rw [hstep]
    show traverseChildren walk as (d.parent?.getD c) t = .ok (c', s')
    rw [hparent]
    exact hrest

/-- A careful visitor walks a solid tree to the end. -/
theorem traverse_ok {σ : Type} {visit : Visitor σ} (hvisit : Careful visit) (fuel : Nat)
    {c : Cursor} (hc : c.IsSolid) (s : σ) : ∃ c' s', traverse visit fuel c s = .ok (c', s') ∧
      c'.IsSolid ∧ c'.outline = c.outline := by
  induction fuel generalizing c s with
  | zero => exact ⟨c, s, rfl, hc, rfl⟩
  | succ fuel ih =>
    obtain ⟨d, t, hd, hplace⟩ := hvisit c s hc.focus.1
    have hsolid : d.IsSolid ∧ d.outline = c.outline := by
      rcases hplace with rfl | ⟨n, hn, hreplace⟩
      · exact ⟨hc, rfl⟩
      · exact hc.replace hn hreplace
    obtain ⟨c', s', hrest, hsolid', houtline⟩ :=
      traverseChildren_ok (fun c s hc => ih hc s) hsolid.1 (fun a ha => ha) t
    refine ⟨c', s', ?_, hsolid', houtline.trans hsolid.2⟩
    rw [traverse, hc.focus.1, if_neg Bool.false_ne_true, hd]
    exact hrest

end Cursor

/-- A visitor that records and never substitutes is careful. -/
theorem careful_recording (kinds : Option (List Kind)) :
    Careful (Traversal.recording kinds none) := by
  intro c s hpresent
  obtain ⟨seen, left⟩ := s
  have hvisit : ∃ v, c.visit = .ok v := by
    rw [Cursor.visit, hpresent, if_neg Bool.false_ne_true]
    exact ⟨_, rfl⟩
  obtain ⟨v, hv⟩ := hvisit
  unfold Traversal.recording
  by_cases hwants : Traversal.wants kinds c.focus.kind = true
  · refine ⟨c, (seen ++ [v], left), ?_, .inl rfl⟩
    simp only [hwants, if_true, hv]
    rfl
  · refine ⟨c, (seen, left), ?_, .inl rfl⟩
    simp only [hwants]
    rfl

theorem Cursor.isSolid_root {n : Node} (h : n.IsSolid) : (Cursor.root n).IsSolid :=
  ⟨h, fun f hf => by simp [Cursor.root] at hf⟩

/-- Listing the visits of a solid tree does not fail. -/
theorem Traversal.run_ok {n : Node} (h : n.IsSolid) (kinds : Option (List Kind)) :
    ∃ visits m, Traversal.run kinds none n = .ok (visits, m) := by
  obtain ⟨c, ⟨seen, left⟩, hwalk, -, -⟩ := Cursor.traverse_ok (careful_recording kinds)
    ((n.visits []).length + 0 * 0 + 1) (Cursor.isSolid_root h) ([], 0)
  refine ⟨seen, c.tree, ?_⟩
  unfold Traversal.run
  show (Cursor.traverse (recording kinds none) ((n.visits []).length + 0 * 0 + 1) (.root n)
    ([], 0) >>= fun r => pure (r.2.1, r.1.tree)) = .ok (seen, c.tree)
  rw [hwalk]
  rfl

end CubeSchema
