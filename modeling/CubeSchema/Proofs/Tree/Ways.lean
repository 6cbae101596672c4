import CubeSchema.Proofs.Tree.Children

/-!
# Ways to the nodes of a tree

The way of a cursor is the list of the addresses that lead from the root to its node. Every visited
node is reached again by its way (`Cursor.reach?`), no two visited nodes have the same way, and
those that are visited at a node and below it are the ones whose way starts with the way of that
node.
-/

namespace CubeSchema

namespace Node

theorem visitsAll_eq (above : List Frame) (parent : Node) (edge : Edge) (i : Nat)
    (ns : List Node) : visitsAll above parent edge i ns =
      (listed edge i ns).flatMap fun c => c.node.visits (⟨parent, c.address⟩ :: above) := by
  induction ns generalizing i with
  | nil => rfl
  | cons n ns ih => rw [visitsAll, ih, listed, List.flatMap_cons]

theorem visits_single (above : List Frame) (parent : Node) (edge : Edge) (n : Node) :
    (single edge n).flatMap (fun c => c.node.visits (⟨parent, c.address⟩ :: above)) =
      n.visits (⟨parent, ⟨edge, none⟩⟩ :: above) := by
  cases n <;> simp [single, isAbsent, visits]

theorem visits_filter (above : List Frame) (parent : Node) (cs : List Child) :
    (cs.filter fun c => !c.node.isAbsent).flatMap
        (fun c => c.node.visits (⟨parent, c.address⟩ :: above)) =
      cs.flatMap fun c => c.node.visits (⟨parent, c.address⟩ :: above) := by
  induction cs with
  | nil => rfl
  | cons c cs ih =>
    rw [List.filter_cons, List.flatMap_cons, ← ih]
    split
    · rw [List.flatMap_cons]
    · -- A hole adds no visits.
      rename_i hc
      obtain ⟨a, n⟩ := c
      cases n <;> first | rfl | exact absurd rfl hc

/-- A walk visits a node and then what is below its children, from the first one to the last. -/
theorem visits_eq {n : Node} (h : n.isAbsent = false) (above : List Frame) :
    n.visits above = ⟨n, above⟩ ::
      n.children.flatMap fun c => c.node.visits (⟨n, c.address⟩ :: above) := by
  cases n with
  | absent => cases h
  | identifier | stringLiteral | numberLiteral | keywordLiteral => rfl
  | array => rw [children, visits_filter, visits, visitsAll_eq]
  | _ => simp only [visits, visitsAll_eq, children, visits_single, List.flatMap_append,
      List.cons_append]

/-- The nodes of a tree are the node at its root and those of its children. -/
theorem nodes_eq {n : Node} (h : n.isAbsent = false) :
    n.nodes = n :: n.children.flatMap fun c => c.node.nodes := by
  rw [← map_focus_visits [] n, visits_eq h, List.map_cons, List.map_flatMap]
  simp only [map_focus_visits]

theorem length_nodes_lt {n : Node} {c : Child} (hc : c ∈ n.children) :
    c.node.nodes.length < n.nodes.length := by
  have h : n.isAbsent = false := by
    cases n <;> first | rfl | cases hc
  obtain ⟨before, after, hsplit⟩ := List.append_of_mem hc
  rw [nodes_eq h, hsplit, List.flatMap_append, List.flatMap_cons]
  simp only [List.length_cons, List.length_append]
  omega

end Node

namespace Cursor

theorem children_eq (c : Cursor) : c.children = c.focus.children.map c.descend := rfl

/-- A cursor is visited and then those below its children, from the first one to the last. -/
theorem visits_eq {c : Cursor} (h : c.focus.isAbsent = false) :
    c.visits = c :: c.children.flatMap visits := by
  rw [visits, Node.visits_eq h, children_eq, List.flatMap_map]
  rfl

/-- What passes from the children of a cursor to the cursor itself holds of all cursors. -/
theorem descend_induction {P : Cursor → Prop}
    (step : ∀ c : Cursor, (∀ child ∈ c.focus.children, P (c.descend child)) → P c) (c : Cursor) :
    P c := by
  -- A cursor has no smaller cursors as parts, so this is by the number of nodes below it.
  generalize hsize : c.focus.nodes.length = size
  induction size using Nat.strongRecOn generalizing c with
  | ind size ih =>
    subst hsize
    exact step c fun child hchild =>
      ih _ (Node.length_nodes_lt hchild) (c.descend child) rfl

theorem isAbsent_of_mem_visits {c d : Cursor} (h : d ∈ c.visits) : c.focus.isAbsent = false := by
  obtain ⟨focus, above⟩ := c
  cases focus <;> first | rfl | cases h

/-- What is visited is the cursor itself or visited at one of its children. -/
theorem mem_visits_cases {c d : Cursor} (h : d ∈ c.visits) :
    d = c ∨ ∃ child ∈ c.focus.children, d ∈ (c.descend child).visits := by
  rw [visits_eq (isAbsent_of_mem_visits h)] at h
  refine (List.mem_cons.1 h).imp_right fun h => ?_
  obtain ⟨e, he, hd⟩ := List.mem_flatMap.1 h
  obtain ⟨child, hchild, rfl⟩ := List.mem_map.1 he
  exact ⟨child, hchild, hd⟩

/-! ## Ways -/

/-- The addresses that lead from the root to the node of a cursor. -/
def way (c : Cursor) : List Address := (c.above.map Frame.address).reverse

@[simp] theorem way_root (n : Node) : (root n).way = [] := rfl

@[simp] theorem way_descend (c : Cursor) (child : Child) :
    (c.descend child).way = c.way ++ [child.address] := by
  simp [way, descend]

/-- Follows the children at the given addresses. -/
def reach? (c : Cursor) : List Address → Option Cursor
  | [] => some c
  | a :: rest => (c.children.find? fun d => d.address? = some a).bind fun d => d.reach? rest

@[simp] theorem address?_descend (c : Cursor) (child : Child) :
    (c.descend child).address? = some child.address := rfl

theorem reach?_cons (c : Cursor) (a : Address) (w : List Address) : c.reach? (a :: w) =
    (c.focus.children.find? fun d => d.address = a).bind fun d => (c.descend d).reach? w := by
  rw [reach?, children_eq, List.find?_map, Option.bind_map]
  simp only [Function.comp_def, address?_descend, Option.some.injEq]

theorem reach?_address {c : Cursor} {child : Child} (h : child ∈ c.focus.children)
    (w : List Address) : c.reach? (child.address :: w) = (c.descend child).reach? w := by
  rw [reach?_cons, Node.find?_address h]
  rfl

/-- A way that leads somewhere goes to a child first. -/
theorem exists_of_reach?_cons {c d : Cursor} {a : Address} {w : List Address}
    (h : c.reach? (a :: w) = some d) :
    ∃ child ∈ c.focus.children, child.address = a ∧ (c.descend child).reach? w = some d := by
  rw [reach?_cons] at h
  obtain ⟨child, hfind, hw⟩ := Option.bind_eq_some_iff.1 h
  exact ⟨child, List.mem_of_find?_eq_some hfind, by simpa using List.find?_some hfind, hw⟩

/-- The way of what is reached. -/
theorem way_of_reach? {c d : Cursor} {w : List Address} (h : c.reach? w = some d) :
    d.way = c.way ++ w := by
  induction w generalizing c with
  | nil =>
    obtain rfl := Option.some.inj h
    rw [List.append_nil]
  | cons a w ih =>
    obtain ⟨child, -, rfl, hw⟩ := exists_of_reach?_cons h
    rw [ih hw, way_descend, List.append_assoc, List.singleton_append]

/-- What is visited can be reached. -/
theorem exists_reach?_of_mem_visits {c d : Cursor} (h : d ∈ c.visits) :
    ∃ w, c.reach? w = some d := by
  induction c using descend_induction with
  | step c ih =>
    rcases mem_visits_cases h with rfl | ⟨child, hchild, hd⟩
    · exact ⟨[], rfl⟩
    · obtain ⟨w, hw⟩ := ih child hchild hd
      exact ⟨child.address :: w, by rw [reach?_address hchild, hw]⟩

/-- What can be reached in a tree without gaps is visited. -/
theorem mem_visits_of_reach? {c d : Cursor} {w : List Address} (hc : c.focus.IsGapless)
    (h : c.reach? w = some d) : d ∈ c.visits := by
  induction w generalizing c with
  | nil =>
    obtain rfl := Option.some.inj h
    rw [visits_eq hc.present]
    exact List.mem_cons_self ..
  | cons a w ih =>
    obtain ⟨child, hchild, -, hw⟩ := exists_of_reach?_cons h
    rw [visits_eq hc.present]
    exact List.mem_cons_of_mem _ (List.mem_flatMap.2
      ⟨c.descend child, List.mem_map_of_mem hchild, ih (hc.child hchild) hw⟩)

theorem isGapless_of_mem_visits {c d : Cursor} (hc : c.focus.IsGapless) (h : d ∈ c.visits) :
    d.focus.IsGapless := by
  induction c using descend_induction with
  | step c ih =>
    rcases mem_visits_cases h with rfl | ⟨child, hchild, hd⟩
    · exact hc
    · exact ih child hchild (hc.child hchild) hd

theorem prefix_of_mem_visits {c d : Cursor} (h : d ∈ c.visits) : c.way <+: d.way := by
  obtain ⟨w, hw⟩ := exists_reach?_of_mem_visits h
  exact ⟨w, (way_of_reach? hw).symm⟩

/-- Below different children everything has different ways. -/
theorem address_eq_of_way {c d e : Cursor} {child other : Child}
    (hd : d ∈ (c.descend child).visits) (he : e ∈ (c.descend other).visits)
    (h : d.way <+: e.way) : child.address = other.address := by
  have hchild := (prefix_of_mem_visits hd).trans h
  have hother := prefix_of_mem_visits he
  rw [way_descend] at hchild hother
  -- Two beginnings of one way, each one step longer than the way of `c`, are the same.
  have hsame := (List.prefix_of_prefix_length_le hchild hother (by simp)).eq_of_length (by simp)
  simpa using hsame

/-- What is visited at a child is farther away than the cursor. -/
theorem length_way_lt {c d : Cursor} {child : Child} (h : d ∈ (c.descend child).visits) :
    c.way.length < d.way.length := by
  have hlength := (prefix_of_mem_visits h).length_le
  rw [way_descend, List.length_append, List.length_singleton] at hlength
  omega

/-- No two of the visited cursors have the same way. -/
theorem nodup_ways (c : Cursor) : (c.visits.map way).Nodup := by
  induction c using descend_induction with
  | step c ih =>
    cases habsent : c.focus.isAbsent with
    | true =>
      obtain ⟨focus, above⟩ := c
      cases focus <;> first | exact List.nodup_nil | cases habsent
    | false =>
      rw [visits_eq habsent, children_eq, List.flatMap_map, List.map_cons, List.map_flatMap,
        List.nodup_cons, List.nodup_flatMap]
      -- The cursor is nearer to the root than all others, and two children share no way.
      refine ⟨fun hmem => ?_, ih, ?_⟩
      · obtain ⟨child, -, hway⟩ := List.mem_flatMap.1 hmem
        obtain ⟨d, hd, heq⟩ := List.mem_map.1 hway
        exact absurd (congrArg List.length heq) (Nat.ne_of_gt (length_way_lt hd))
      · refine (List.pairwise_map.1 c.focus.nodup_addresses).imp fun hne w hw hw' => ?_
        obtain ⟨d, hd, rfl⟩ := List.mem_map.1 hw
        obtain ⟨e, he, heq⟩ := List.mem_map.1 hw'
        exact hne (address_eq_of_way hd he (heq ▸ List.prefix_refl _))

/-- Of all that is visited, what has its way through a node is visited from there, in the same
order. -/
theorem filter_visits {c d : Cursor} (h : d ∈ c.visits) :
    (c.visits.filter fun e => d.way <+: e.way) = d.visits := by
  induction c using descend_induction with
  | step c ih =>
    rcases mem_visits_cases h with rfl | ⟨child, hchild, hd⟩
    · exact List.filter_eq_self.2 fun e he => by simpa using prefix_of_mem_visits he
    · have hself : ¬ d.way <+: c.way := fun hle =>
        absurd hle.length_le (Nat.not_le.2 (length_way_lt hd))
      obtain ⟨before, after, hsplit⟩ := List.append_of_mem hchild
      -- Nothing below another child has its way through the node.
      have hothers : ∀ others : List Child, (∀ other ∈ others, other.address ≠ child.address) →
          (others.flatMap fun other => (c.descend other).visits).filter
            (fun e => d.way <+: e.way) = [] := by
        intro others hne
        refine List.filter_eq_nil_iff.2 fun e he => ?_
        obtain ⟨other, hother, he⟩ := List.mem_flatMap.1 he
        simpa using fun hle => hne other hother (address_eq_of_way hd he hle).symm
      -- The child is the only one with its address, so what is on either side of it is dropped.
      have hnodup := c.focus.nodup_addresses
      rw [Node.addresses, hsplit, List.map_append, List.map_cons, List.nodup_append,
        List.nodup_cons] at hnodup
      obtain ⟨-, ⟨hafter, -⟩, hbefore⟩ := hnodup
      rw [visits_eq (isAbsent_of_mem_visits h), children_eq, List.flatMap_map, hsplit,
        List.flatMap_append, List.flatMap_cons, List.filter_cons, if_neg (by simpa using hself),
        List.filter_append, List.filter_append, ih child hchild hd, hothers before, hothers after]
      · simp
      · exact fun other hother heq => hafter (heq ▸ List.mem_map_of_mem hother)
      · exact fun other hother heq =>
          hbefore _ (List.mem_map_of_mem hother) _ (List.mem_cons_self ..) heq

theorem descendants_eq {c : Cursor} (h : c.focus.isAbsent = false) :
    c.descendants = c.children.flatMap visits := by
  rw [descendants, visits_eq h, List.tail_cons]

/-- Of all that is visited, what has its way through a node and goes on is below this node. -/
theorem filter_descendants {c d : Cursor} (h : d ∈ c.visits) :
    (c.visits.filter fun e => d.way <+: e.way ∧ e.way ≠ d.way) = d.descendants := by
  -- The two tests are taken one after the other: the first leaves the node and what is below it.
  have hself : ∀ e ∈ d.children.flatMap visits, e.way ≠ d.way := by
    intro e he heq
    obtain ⟨f, hf, he⟩ := List.mem_flatMap.1 he
    obtain ⟨child, -, rfl⟩ := List.mem_map.1 hf
    exact absurd (congrArg List.length heq) (Nat.ne_of_gt (length_way_lt he))
  have hpresent : d.focus.isAbsent = false :=
    isAbsent_of_mem_visits (filter_visits h ▸ List.mem_filter.2 ⟨h, by simp⟩ : d ∈ d.visits)
  have hsplit : (c.visits.filter fun e => d.way <+: e.way ∧ e.way ≠ d.way) =
      (c.visits.filter fun e => d.way <+: e.way).filter fun e => e.way ≠ d.way := by
    rw [List.filter_filter]
    exact List.filter_congr fun e _ => by simp [Bool.and_comm]
  rw [hsplit, filter_visits h, visits_eq hpresent, descendants_eq hpresent, List.filter_cons,
    if_neg (by simp)]
  exact List.filter_eq_self.2 fun e he => by simpa using hself e he

end Cursor

end CubeSchema
