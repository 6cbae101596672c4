import CubeSchema.Proofs.Graph.Ordering

/-!
# The graph of some of the cubes

Part of a graph has the cubes that were asked for and the references between them. When these cubes
are closed, which means that they use each other only, it tells the same about them as the whole
graph does. Paths of references stay inside the part, and with them the cycles that can be reached.

For the order it has to be known how the least arrangement looks from within: at each place stands
the least of the cubes that could come next (`Arranges.least_iff_greedy`). A cube of a closed part
could come next in the part exactly when it could in the whole graph, so what is left of a greedy
arrangement when the other cubes are taken out is greedy again, however the two interleave.
-/

namespace CubeSchema.Graph

open Relation

/-! ## The cubes of a part -/

theorem id_of_vertex? {g : Graph} {id : Text} {v : Vertex} (h : g.vertex? id = some v) :
    v.id = id := by
  simpa using List.find?_some h

theorem vertex?_addVertex (g : Graph) (id file x : Text) : (g.addVertex id file).vertex? x =
    if x = id then some ⟨id, file⟩ else g.vertex? x := by
  unfold addVertex
  split
  · rename_i hid
    have hsame : (fun v : Vertex => decide (v.id = x)) ∘
        (fun v => if v.id = id then ⟨id, file⟩ else v) = fun v => decide (v.id = x) := by
      funext v
      by_cases hv : v.id = id <;> simp [hv]
    rw [vertex?, List.find?_map, hsame, ← vertex?]
    by_cases hx : x = id
    · subst hx
      obtain ⟨v, hv⟩ := Option.isSome_iff_exists.1 hid
      rw [if_pos rfl, hv, Option.map_some, if_pos (id_of_vertex? hv)]
    · rw [if_neg hx]
      cases hv : g.vertex? x with
      | none => rfl
      | some v => rw [Option.map_some, if_neg (id_of_vertex? hv ▸ hx)]
  · rename_i hid
    rw [vertex?, List.find?_append, ← vertex?]
    by_cases hx : x = id
    · subst hx
      have hnone : g.vertex? x = none := by simpa [has] using hid
      rw [if_pos rfl, hnone]
      simp
    · have hne : id ≠ x := fun h => hx h.symm
      rw [if_neg hx]
      simp [hne]

/-- Adding known cubes of another graph takes them over from there. -/
theorem vertex?_adding (g s : Graph) (ids : List Text) (x : Text) :
    (s.adding (ids.filterMap g.vertex?)).vertex? x =
      if x ∈ ids then (g.vertex? x).or (s.vertex? x) else s.vertex? x := by
  induction ids generalizing s with
  | nil => rfl
  | cons id ids ih =>
    cases hv : g.vertex? id with
    | none =>
      rw [List.filterMap_cons_none hv, ih]
      by_cases hx : x = id
      · subst hx
        simp [hv]
      · simp [hx]
    | some v =>
      have hid := id_of_vertex? hv
      subst hid
      rw [List.filterMap_cons_some hv, adding, List.foldl_cons, ← adding, ih, vertex?_addVertex]
      by_cases hx : x = v.id
      · subst hx
        simp [hv]
      · simp [hx]

/-- A part has the known ones of the cubes that were asked for, as they are. -/
theorem vertex?_subgraph (g : Graph) (ids : List Text) (o : KeyOrder) (id : Text) :
    (g.subgraph ids o).vertex? id = if id ∈ ids then g.vertex? id else none := by
  rw [subgraph_eq, vertex?, vertices_connecting, ← vertex?, bare, vertex?_adding]
  split
  · exact Option.or_none
  · rfl

theorem Coherent.mem_vertices {g : Graph} (h : g.Coherent) {v : Vertex} :
    v ∈ g.vertices ↔ g.vertex? v.id = some v := by
  refine ⟨fun hv => ?_, List.mem_of_find?_eq_some⟩
  obtain ⟨w, hw⟩ := Option.isSome_iff_exists.1 (has_iff.2 (List.mem_map_of_mem hv))
  have hsame : w = v :=
    List.inj_on_of_nodup_map h.vertices (List.mem_of_find?_eq_some hw) hv (id_of_vertex? hw)
  exact hsame ▸ hw

/-- The cubes by name are those of the whole graph without the others. -/
theorem sortedVertices_subgraph {g : Graph} (hg : g.Coherent) (ids : List Text) (o : KeyOrder) :
    (g.subgraph ids o).sortedVertices = g.sortedVertices.filter fun v => v.id ∈ ids := by
  have hsub := (balanced_subgraph g ids o).toCoherent
  have hsorted (g : Graph) : g.sortedVertices.Pairwise fun v w => v.id ≤ w.id := by
    refine (List.pairwise_mergeSort ?_ ?_ g.vertices).imp of_decide_eq_true
    · intro u v w huv hvw
      simp only [decide_eq_true_eq] at huv hvw ⊢
      exact List.le_trans huv hvw
    · intro v w
      simpa using List.le_total v.id w.id
  have hmem {g : Graph} {v : Vertex} : v ∈ g.sortedVertices ↔ v ∈ g.vertices :=
    (List.mergeSort_perm ..).mem_iff
  have hnodup {g : Graph} (h : g.Coherent) : g.sortedVertices.Nodup :=
    (List.mergeSort_perm ..).nodup_iff.2 h.vertices.of_map
  have hperm : (g.subgraph ids o).sortedVertices.Perm
      (g.sortedVertices.filter fun v => v.id ∈ ids) := by
    refine (List.perm_ext_iff_of_nodup (hnodup hsub) ((hnodup hg).filter _)).2 fun v => ?_
    rw [List.mem_filter, hmem, hmem, hsub.mem_vertices, hg.mem_vertices, vertex?_subgraph]
    by_cases hv : v.id ∈ ids <;> simp [hv]
  refine hperm.eq_of_pairwise (fun v w hv _ hvw hwv => ?_) (hsorted _) ((hsorted g).filter _)
  -- Two cubes of one name are the same, since a graph has no name twice.
  have hw : w ∈ (g.subgraph ids o).sortedVertices := hperm.mem_iff.2 ‹_›
  exact List.inj_on_of_nodup_map hsub.vertices (hmem.1 hv) (hmem.1 hw) (List.le_antisymm hvw hwv)

/-- What a cube of the part refers to is what it refers to in the whole graph, without the cubes
that do not belong to the part. -/
theorem usesOf_subgraph {g : Graph} (hg : g.Balanced) {ids : List Text} (o : KeyOrder) {id : Text}
    (hid : id ∈ ids) :
    (g.subgraph ids o).usesOf id = (g.usesOf id).filter (g.subgraph ids o).has := by
  refine Text.eq_of_strict (Text.strict_sort ((balanced_subgraph g ids o).uses id))
    ((Text.strict_sort (hg.uses id)).filter _) fun used => ?_
  rw [List.mem_filter, usesOf, usesOf, Text.mem_sort, Text.mem_sort, mem_uses_subgraph hg,
    has_subgraph]
  exact ⟨fun h => ⟨h.2.2, h.2.1, (hg.ends h.2.2).2⟩, fun h => ⟨hid, h.2.1, h.1⟩⟩

/-! ## Closed parts -/

/-- The cubes of a list use each other only. -/
def Closed (g : Graph) (ids : List Text) : Prop := ∀ id ∈ ids, ∀ used, g.Uses id used → used ∈ ids

/-- A cube is closed together with all that it depends on. -/
theorem closed_dependencies (g : Graph) (id : Text) (o : KeyOrder) :
    g.Closed (id :: g.dependencies id o) := by
  intro user huser used hused
  rw [List.mem_cons, mem_dependencies] at huser ⊢
  obtain rfl | hpath := huser
  · exact .inr (.single hused)
  · exact .inr (hpath.tail hused)

section

variable {g : Graph} (hg : g.Balanced) {ids : List Text} (hids : g.Closed ids) (o : KeyOrder)

include hg hids

theorem Closed.uses_iff {id used : Text} (hid : id ∈ ids) :
    (g.subgraph ids o).Uses id used ↔ g.Uses id used :=
  (mem_uses_subgraph hg).trans ⟨fun h => h.2.2, fun h => ⟨hid, hids id hid used h, h⟩⟩

/-- No path of references leads out of a closed part. -/
theorem Closed.path {id x : Text} (hid : id ∈ ids) (h : ReflTransGen g.Uses id x) :
    x ∈ ids ∧ ReflTransGen (g.subgraph ids o).Uses id x := by
  induction h with
  | refl => exact ⟨hid, .refl⟩
  | tail _ hused ih =>
    exact ⟨hids _ ih.1 _ hused, ih.2.tail ((hids.uses_iff hg o ih.1).2 hused)⟩

theorem Closed.path_iff {id x : Text} (hid : id ∈ ids) :
    ReflTransGen (g.subgraph ids o).Uses id x ↔ ReflTransGen g.Uses id x := by
  have hwhole (a b : Text) (h : (g.subgraph ids o).Uses a b) : g.Uses a b :=
    ((mem_uses_subgraph hg).1 h).2.2
  exact ⟨fun h => ReflTransGen.mono hwhole id x h, fun h => (hids.path hg o hid h).2⟩

theorem Closed.dependsOn_iff {id x : Text} (hid : id ∈ ids) :
    (g.subgraph ids o).DependsOn id x ↔ g.DependsOn id x := by
  rw [DependsOn, DependsOn, TransGen.head'_iff, TransGen.head'_iff]
  refine exists_congr fun used => ?_
  rw [hids.uses_iff hg o hid]
  exact and_congr_right fun hused => hids.path_iff hg o (hids id hid used hused)

theorem Closed.meetsCycle_iff {id : Text} (hid : id ∈ ids) :
    (g.subgraph ids o).MeetsCycle id ↔ g.MeetsCycle id := by
  refine exists_congr fun x => ?_
  rw [hids.path_iff hg o hid, onCycle_iff, onCycle_iff]
  exact and_congr_right fun hx => hids.dependsOn_iff hg o (hids.path hg o hid hx).1

theorem Closed.dependencies_eq {id : Text} (hid : id ∈ ids) (o₁ o₂ : KeyOrder) :
    (g.subgraph ids o).dependencies id o₁ = g.dependencies id o₂ :=
  Text.eq_of_strict (strict_reach ..) (strict_reach ..) fun x => by
    rw [mem_dependencies, mem_dependencies, hids.dependsOn_iff hg o hid]

end

/-! ## Greedy arrangements -/

/-- At each place of a list stands the least of the cubes that could come next: what comes later and
uses only cubes in front of that place is greater. -/
def Greedy (g : Graph) (l : List Text) : Prop :=
  ∀ ⦃front id back⦄, l = front ++ id :: back →
    ∀ x ∈ back, (∀ used, g.Uses x used → used ∈ front) → id < x

theorem Settled.of_prefix {g : Graph} {l l' : List Text} (h : g.Settled l) (hl : l' <+: l) :
    g.Settled l' := fun _ _ hfront => h (hfront.trans hl)

/-- The cubes at the end of a settled list may stand behind more than they did. -/
theorem Settled.graft {g : Graph} {l l' : List Text} (hl' : g.Settled l') (hsub : l ⊆ l')
    {more : List Text} (h : g.Settled (l ++ more)) : g.Settled (l' ++ more) := by
  induction more using List.reverseRecOn with
  | nil => simpa using hl'
  | append_singleton more id ih =>
    rw [← List.append_assoc] at h ⊢
    refine settled_snoc (ih (h.of_prefix (List.prefix_append ..))) fun used hused => ?_
    exact (List.mem_append.1 (h (List.prefix_refl _) hused)).elim
      (fun hold => List.mem_append_left more (hsub hold)) (List.mem_append_right l')

/-- A cube that could come earlier may be put there. -/
theorem Arranges.advance {g : Graph} {front mid back : List Text} {x : Text}
    (h : g.Arranges (front ++ mid ++ x :: back)) (hx : ∀ used, g.Uses x used → used ∈ front) :
    g.Arranges (front ++ x :: mid ++ back) := by
  have hperm : (front ++ x :: mid ++ back).Perm (front ++ mid ++ x :: back) := by
    have hmiddle : (mid ++ x :: back).Perm (x :: (mid ++ back)) := List.perm_middle
    simpa using hmiddle.symm.append_left front
  refine ⟨hperm.nodup_iff.2 h.nodup, fun id => hperm.mem_iff.trans (h.mem_iff id), ?_⟩
  have hfront : g.Settled (front ++ mid) := h.settled.of_prefix (List.prefix_append ..)
  have hplaced : g.Settled (front ++ [x]) :=
    settled_snoc (hfront.of_prefix (List.prefix_append ..)) hx
  have hmid : g.Settled (front ++ x :: mid) := by
    simpa using hplaced.graft (List.subset_append_left ..) hfront
  refine hmid.graft (l := front ++ mid ++ [x]) ?_ (by simpa using h.settled)
  intro y hy
  simp only [List.mem_append, List.mem_cons, List.not_mem_nil, or_false] at hy ⊢
  tauto

/-- The least arrangement is greedy: otherwise a lesser cube could be put in front. -/
theorem Arranges.greedy_of_least {g : Graph} {l : List Text} (h : g.Arranges l)
    (hleast : ∀ l', g.Arranges l' → l ≤ l') : g.Greedy l := by
  rintro front id back rfl x hx hused
  by_contra hnot
  have hne : x ≠ id := by
    rintro rfl
    exact (List.nodup_cons.1 (List.nodup_append.1 h.nodup).2.1).1 hx
  have hlt : x < id := Std.lt_of_le_of_ne (List.not_lt.1 hnot) hne
  obtain ⟨mid, rest, rfl⟩ := List.append_of_mem hx
  have hsplit : g.Arranges (front ++ (id :: mid) ++ x :: rest) := by simpa using h
  have hother : g.Arranges (front ++ x :: id :: mid ++ rest) := hsplit.advance hused
  have hless : front ++ x :: id :: mid ++ rest < front ++ id :: (mid ++ x :: rest) := by
    rw [List.append_assoc]
    exact List.append_left_lt (List.cons_lt_cons_iff.2 (.inl hlt))
  exact List.not_lt.2 (hleast _ hother) hless

/-- A greedy arrangement is not greater than any other. -/
theorem Greedy.le {g : Graph} {front l l' : List Text} (h : g.Greedy (front ++ l))
    (hl : g.Arranges (front ++ l)) (hl' : g.Arranges (front ++ l')) : l ≤ l' := by
  induction l generalizing front l' with
  | nil => exact List.nil_le l'
  | cons id l ih =>
    have hmem (x : Text) : x ∈ front ++ id :: l ↔ x ∈ front ++ l' := by
      rw [hl.mem_iff, hl'.mem_iff]
    have hnew : id ∉ front := fun hold =>
      (List.nodup_append.1 hl.nodup).2.2 id hold id (List.mem_cons_self ..) rfl
    cases l' with
    | nil => exact absurd (by simpa using (hmem id).1 (by simp)) hnew
    | cons x l' =>
      by_cases hx : x = id
      · subst hx
        rw [List.append_cons] at h hl hl'
        exact List.cons_le_cons_iff.2 (.inr ⟨rfl, ih h hl hl'⟩)
      · -- The other one goes on with a cube that could have come next here, too.
        have hxnew : x ∉ front := fun hold =>
          (List.nodup_append.1 hl'.nodup).2.2 x hold x (List.mem_cons_self ..) rfl
        have hxlater : x ∈ l := by
          have := (hmem x).2 (by simp)
          simp only [List.mem_append, List.mem_cons] at this
          exact (this.resolve_left hxnew).resolve_left hx
        have hplace : front ++ [x] <+: front ++ x :: l' := ⟨l', by simp⟩
        have hless : id < x := h rfl x hxlater fun used hused => hl'.settled hplace hused
        exact List.le_of_lt (List.cons_lt_cons_iff.2 (.inl hless))

/-- The least arrangement is the greedy one. -/
theorem Arranges.least_iff_greedy {g : Graph} {l : List Text} (h : g.Arranges l) :
    (∀ l', g.Arranges l' → l ≤ l') ↔ g.Greedy l :=
  ⟨h.greedy_of_least, fun hgreedy _ hl' => @Greedy.le g [] l _ hgreedy h hl'⟩

/-! ## The order of a part -/

/-- Where something stands in a list of which only some elements are kept, it stood in the list. -/
theorem exists_split_of_filter {p : Text → Bool} {l front back : List Text} {id : Text}
    (h : l.filter p = front ++ id :: back) : ∃ front' back', l = front' ++ id :: back' ∧
      front'.filter p = front ∧ back'.filter p = back := by
  obtain ⟨front', rest, rfl, hfront, hrest⟩ := List.filter_eq_append_iff.1 h
  obtain ⟨skipped, back', rfl, hskipped, -, hback⟩ := List.filter_eq_cons_iff.1 hrest
  have hnone : skipped.filter p = [] := List.filter_eq_nil_iff.2 hskipped
  exact ⟨front' ++ skipped, back', by simp, by rw [List.filter_append, hnone, hfront,
    List.append_nil], hback⟩

section

variable {g : Graph} (hg : g.Balanced) {ids : List Text} (hids : g.Closed ids) (o : KeyOrder)

include hg hids

theorem Arranges.part {l : List Text} (h : g.Arranges l) :
    (g.subgraph ids o).Arranges (l.filter (g.subgraph ids o).has) where
  nodup := h.nodup.filter _
  mem_iff id := by
    rw [List.mem_filter, h.mem_iff, has_subgraph]
    constructor
    · rintro ⟨⟨-, hnone⟩, hid⟩
      exact ⟨hid, mt (hids.meetsCycle_iff hg o hid.1).1 hnone⟩
    · rintro ⟨hid, hnone⟩
      exact ⟨⟨hid.2, mt (hids.meetsCycle_iff hg o hid.1).2 hnone⟩, hid⟩
  settled := by
    rintro front id ⟨back, hsplit⟩ used hused
    have hkept : l.filter (g.subgraph ids o).has = front ++ id :: back := by
      rw [← hsplit]
      simp
    obtain ⟨front', back', rfl, rfl, -⟩ := exists_split_of_filter hkept
    have hsub := (balanced_subgraph g ids o).ends hused
    have hwhole : g.Uses id used := ((mem_uses_subgraph hg).1 hused).2.2
    exact List.mem_filter.2 ⟨h.settled ⟨back', by simp⟩ hwhole, hsub.2⟩

/-- Cubes of the part that could come next in it could come next in the whole graph. -/
theorem Greedy.part {l : List Text} (h : g.Greedy l) :
    (g.subgraph ids o).Greedy (l.filter (g.subgraph ids o).has) := by
  intro front id back hsplit x hx hused
  obtain ⟨front', back', rfl, rfl, rfl⟩ := exists_split_of_filter hsplit
  obtain ⟨hxback, hxhas⟩ := List.mem_filter.1 hx
  refine h rfl x hxback fun used huse => ?_
  have hpart := (hids.uses_iff hg o (has_subgraph.1 hxhas).1).2 huse
  exact (List.mem_filter.1 (hused used hpart)).1

theorem Ordered.part {first rest : List Text} (h : g.Ordered first rest) :
    (g.subgraph ids o).Ordered (first.filter (g.subgraph ids o).has)
      (rest.filter (g.subgraph ids o).has) := by
  have harranges := h.arranges.part hg hids o
  have hgreedy := h.arranges.greedy_of_least fun _ => h.least
  refine ⟨harranges, fun {l} => harranges.least_iff_greedy.2 (hgreedy.part hg hids o) l,
    fun id => ?_, h.sorted.filter _⟩
  rw [List.mem_filter, h.mem_rest, has_subgraph]
  constructor
  · rintro ⟨⟨-, hcycle⟩, hid⟩
    exact ⟨hid, (hids.meetsCycle_iff hg o hid.1).2 hcycle⟩
  · rintro ⟨hid, hcycle⟩
    exact ⟨⟨hid.2, (hids.meetsCycle_iff hg o hid.1).1 hcycle⟩, hid⟩

end

/-- A graph has one order. -/
theorem Ordered.eq {g : Graph} {first rest first' rest' : List Text} (h : g.Ordered first rest)
    (h' : g.Ordered first' rest') : first ++ rest = first' ++ rest' := by
  have hfirst : first = first' := List.le_antisymm (h.least h'.arranges) (h'.least h.arranges)
  have hrest : rest = rest' := Text.eq_of_strict h.sorted h'.sorted fun id => by
    rw [h.mem_rest, h'.mem_rest]
  rw [hfirst, hrest]

theorem Closed.order_eq {g : Graph} (hg : g.Balanced) {ids : List Text} (hids : g.Closed ids)
    (o o₁ o₂ o₁' o₂' : KeyOrder) :
    (g.subgraph ids o).order o₁ o₂ = (g.order o₁' o₂').filter (g.subgraph ids o).has := by
  obtain ⟨first, rest, horder, hordered⟩ := exists_ordered (balanced_subgraph g ids o) o₁ o₂
  obtain ⟨first', rest', horder', hordered'⟩ := exists_ordered hg o₁' o₂'
  rw [horder, horder', List.filter_append]
  exact hordered.eq (hordered'.part hg hids o)

/-- Part of a graph has the known ones of the cubes that were asked for, as they are, and what each
of them refers to is what it refers to in the whole graph, as far as that belongs to the part. If
the cubes use each other only, then each depends on the same cubes as in the whole graph, and the
order is that of the whole graph with all other cubes left out. A cube together with all that it
depends on is an example of such a part. -/
theorem parts_after (calls : List Call) (ids : List Text) (o : KeyOrder) :
    (∀ id, ((after calls).subgraph ids o).vertex? id =
      if id ∈ ids then (after calls).vertex? id else none) ∧
    ((after calls).subgraph ids o).sortedVertices =
      ((after calls).sortedVertices.filter fun v => v.id ∈ ids) ∧
    (∀ id, ((after calls).subgraph ids o).has id = true →
      ((after calls).subgraph ids o).usesOf id =
        ((after calls).usesOf id).filter ((after calls).subgraph ids o).has) ∧
    ((after calls).Closed ids →
      (∀ id, ((after calls).subgraph ids o).has id = true → ∀ o₁ o₂,
        ((after calls).subgraph ids o).dependencies id o₁ = (after calls).dependencies id o₂) ∧
      ∀ o₁ o₂ o₁' o₂', ((after calls).subgraph ids o).order o₁ o₂ =
        ((after calls).order o₁' o₂').filter ((after calls).subgraph ids o).has) ∧
    ∀ id o', (after calls).Closed (id :: (after calls).dependencies id o') := by
  have hg := balanced_after calls
  refine ⟨vertex?_subgraph _ ids o, sortedVertices_subgraph hg.toCoherent ids o, fun id hid => ?_,
    fun hids => ⟨fun id hid o₁ o₂ => ?_, ?_⟩, (after calls).closed_dependencies⟩
  · exact usesOf_subgraph hg o (has_subgraph.1 hid).1
  · exact hids.dependencies_eq hg o (has_subgraph.1 hid).1 o₁ o₂
  · exact hids.order_eq hg o

/-- Two cycles, one of which can be reached from a cube of its own, and cubes besides. -/
def twoCycles : List Call :=
  [.addVertex (lit "A") [], .addVertex (lit "B") (lit "b.js"), .addVertex (lit "C") (lit "c.js"),
    .addVertex (lit "D") [], .addVertex (lit "E") (lit "e.js"), .addVertex (lit "F") [],
    .addVertex (lit "G") (lit "g.js"), .addVertex (lit "H") [], .addEdge (lit "B") (lit "G"),
    .addEdge (lit "G") (lit "B"), .addEdge (lit "C") (lit "B"), .addEdge (lit "C") (lit "E"),
    .addEdge (lit "D") (lit "E"), .addEdge (lit "F") (lit "H"), .addEdge (lit "H") (lit "F"),
    .addEdge (lit "H") (lit "C")]

/-- The cycle that can be reached, with a name that is no cube and one that comes twice. -/
def reachedCycle : List Text := ["C", "X", "B", "E", "G", "E"].map lit

/-- The part has a cycle and lies in front of another one, and its order is that of the whole. -/
theorem reachedCycle_after :
    (after twoCycles).Closed reachedCycle ∧
    ((after twoCycles).subgraph reachedCycle).has (lit "C") = true ∧
    ((after twoCycles).subgraph reachedCycle).usesOf (lit "C") =
      ((after twoCycles).usesOf (lit "C")).filter ((after twoCycles).subgraph reachedCycle).has ∧
    (∀ o₁ o₂, ((after twoCycles).subgraph reachedCycle).dependencies (lit "C") o₁ =
      (after twoCycles).dependencies (lit "C") o₂) ∧
    ((after twoCycles).subgraph reachedCycle).order =
      (after twoCycles).order.filter ((after twoCycles).subgraph reachedCycle).has := by
  have hclosed : (after twoCycles).Closed reachedCycle := by
    have hlists : ∀ id ∈ reachedCycle, ∀ used ∈ (after twoCycles).uses.neighbours id,
        used ∈ reachedCycle := by decide +kernel
    exact hlists
  have hhas : ((after twoCycles).subgraph reachedCycle).has (lit "C") = true := by decide +kernel
  obtain ⟨-, -, huses, hrest, -⟩ := parts_after twoCycles reachedCycle .added
  obtain ⟨hdependencies, horder⟩ := hrest hclosed
  exact ⟨hclosed, hhas, huses _ hhas, hdependencies _ hhas, horder ..⟩

example : (after twoCycles).order = ["A", "E", "D", "B", "C", "F", "G", "H"].map lit := by cbv

example : ((after twoCycles).subgraph reachedCycle).order = ["E", "B", "C", "G"].map lit := by cbv

end CubeSchema.Graph
