import CubeSchema.Proofs.Graph.Ordering

/-!
# Graphs that give the same answers

Cubes and references may be added to a graph in any order, and the keys of a table may be met in any
order. This leaves traces in the lists of the graph, but in none of its answers: they tell which
cubes and references there are, and nothing else (`SameReferences.answers`). For most of them this
follows from what they have been shown to be. Only the numbers of the cubes and of the references
have to be counted again, over the lists of both graphs.
-/

namespace CubeSchema.Graph

/-! ## What a graph is asked -/

/-- All that can be asked of a graph. -/
inductive Question where
  /-- The cube of a name. -/
  | vertex (id : Text)
  /-- All cubes by name. -/
  | vertices
  /-- The number of cubes. -/
  | vertexCount
  /-- The number of references. -/
  | edgeCount
  /-- What a cube refers to. -/
  | uses (id : Text)
  /-- What refers to a cube. -/
  | users (id : Text)
  /-- What a cube depends on. -/
  | dependencies (id : Text)
  /-- What depends on some cubes. -/
  | affected (changed : List Text)
  /-- The cubes that refer to no other. -/
  | roots
  /-- The cubes that no other refers to. -/
  | leaves
  /-- The cubes in an order of their references. -/
  | order
  /-- A question to the graph of some of the cubes. -/
  | narrowed (ids : List Text) (q : Question)

/-- What a graph answers. -/
inductive Answer where
  | vertex (v : Option Vertex)
  | vertices (vs : List Vertex)
  | count (n : Nat)
  | names (ids : List Text)
  deriving DecidableEq, Repr

/-- The answer of a graph to a question. -/
def answer (g : Graph) : Question → Answer
  | .vertex id => .vertex (g.vertex? id)
  | .vertices => .vertices g.sortedVertices
  | .vertexCount => .count g.vertexCount
  | .edgeCount => .count g.edgeCount
  | .uses id => .names (g.usesOf id)
  | .users id => .names (g.usersOf id)
  | .dependencies id => .names (g.dependencies id)
  | .affected changed => .names (g.affected changed)
  | .roots => .names g.roots
  | .leaves => .names g.leaves
  | .order => .names g.order
  | .narrowed ids q => (g.subgraph ids).answer q

/-! ## The same cubes and references -/

/-- Two graphs have the same cubes, perhaps from other files, and the same references. -/
structure SameReferences (g g' : Graph) : Prop where
  /-- The cubes are the same. -/
  has (id : Text) : g.has id = g'.has id
  /-- The references are the same. -/
  uses (a b : Text) : g.Uses a b ↔ g'.Uses a b

namespace SameReferences

variable {g g' : Graph}

theorem symm (h : SameReferences g g') : SameReferences g' g :=
  ⟨fun id => (h.has id).symm, fun a b => (h.uses a b).symm⟩

theorem uses_eq (h : SameReferences g g') : g.Uses = g'.Uses :=
  funext fun a => funext fun b => propext (h.uses a b)

theorem meetsCycle_iff (h : SameReferences g g') (id : Text) :
    g.MeetsCycle id ↔ g'.MeetsCycle id := by
  unfold MeetsCycle OnCycle
  rw [h.uses_eq]

theorem perm_vertices (hg : g.Balanced) (hg' : g'.Balanced) (h : SameReferences g g') :
    (g.vertices.map Vertex.id).Perm (g'.vertices.map Vertex.id) :=
  (List.perm_ext_iff_of_nodup hg.vertices hg'.vertices).2 fun id => by
    rw [← has_iff, ← has_iff, h.has]

theorem perm_uses (hg : g.Balanced) (hg' : g'.Balanced) (h : SameReferences g g') (id : Text) :
    (g.uses.neighbours id).Perm (g'.uses.neighbours id) :=
  (List.perm_ext_iff_of_nodup (hg.uses id) (hg'.uses id)).2 (h.uses id)

theorem perm_usedBy (hg : g.Balanced) (hg' : g'.Balanced) (h : SameReferences g g') (id : Text) :
    (g.usedBy.neighbours id).Perm (g'.usedBy.neighbours id) :=
  (List.perm_ext_iff_of_nodup (hg.usedBy id) (hg'.usedBy id)).2 fun user => by
    rw [hg.agree, hg'.agree]
    exact h.uses user id

theorem edgeCount_eq (hg : g.Balanced) (hg' : g'.Balanced) (h : SameReferences g g') :
    g.edgeCount = g'.edgeCount := by
  have hperm : g.uses.entries.Perm g'.uses.entries := by
    refine (List.perm_ext_iff_of_nodup (Adjacency.nodup_entries hg.usesKeys hg.uses)
      (Adjacency.nodup_entries hg'.usesKeys hg'.uses)).2 fun e => ?_
    rw [Adjacency.mem_entries hg.usesKeys, Adjacency.mem_entries hg'.usesKeys]
    exact h.uses e.1 e.2
  rw [hg.total_uses, hg'.total_uses, ← Adjacency.length_entries, ← Adjacency.length_entries,
    hperm.length_eq]

theorem arranges (h : SameReferences g g') {l : List Text} (hl : g.Arranges l) : g'.Arranges l where
  nodup := hl.nodup
  mem_iff id := by rw [hl.mem_iff, h.has, h.meetsCycle_iff]
  settled _ _ hprefix _ hused := hl.settled hprefix ((h.uses _ _).2 hused)

/-- An order has to begin with the least arrangement, and there is one way to go on. -/
theorem order_eq (hg : g.Balanced) (hg' : g'.Balanced) (h : SameReferences g g')
    (o₁ o₂ o₁' o₂' : KeyOrder) : g.order o₁ o₂ = g'.order o₁' o₂' := by
  obtain ⟨first, rest, horder, hordered⟩ := exists_ordered hg o₁ o₂
  obtain ⟨first', rest', horder', hordered'⟩ := exists_ordered hg' o₁' o₂'
  have hfirst : first = first' := List.le_antisymm
    (hordered.least (h.symm.arranges hordered'.arranges))
    (hordered'.least (h.arranges hordered.arranges))
  have hrest : rest = rest' := Text.eq_of_strict hordered.sorted hordered'.sorted fun id => by
    rw [hordered.mem_rest, hordered'.mem_rest, h.has, h.meetsCycle_iff]
  rw [horder, horder', hfirst, hrest]

theorem subgraph (hg : g.Balanced) (hg' : g'.Balanced) (h : SameReferences g g')
    {ids ids' : List Text} (hids : ∀ id, id ∈ ids ↔ id ∈ ids') (o o' : KeyOrder) :
    SameReferences (g.subgraph ids o) (g'.subgraph ids' o') where
  has id := by rw [Bool.eq_iff_iff, has_subgraph, has_subgraph, hids, h.has]
  uses a b := by
    have huses := h.uses a b
    unfold Uses Adjacency.Leads at huses ⊢
    rw [mem_uses_subgraph hg, mem_uses_subgraph hg', hids, hids, huses]

end SameReferences

/-- Two graphs cannot be told apart by what they answer about their cubes and references, in
whatever order the keys of their tables are met. -/
structure SameAnswers (g g' : Graph) : Prop where
  /-- The cubes that a cube refers to. -/
  usesOf (id : Text) : g.usesOf id = g'.usesOf id
  /-- The cubes that refer to a cube. -/
  usersOf (id : Text) : g.usersOf id = g'.usersOf id
  /-- What a cube depends on. -/
  dependencies (id : Text) (o o' : KeyOrder) : g.dependencies id o = g'.dependencies id o'
  /-- What depends on some cubes. -/
  affected (changed : List Text) (o o' : KeyOrder) : g.affected changed o = g'.affected changed o'
  /-- The cubes that refer to no other. -/
  roots (o o' : KeyOrder) : g.roots o = g'.roots o'
  /-- The cubes that no other refers to. -/
  leaves (o o' : KeyOrder) : g.leaves o = g'.leaves o'
  /-- All cubes in the order of their references. -/
  order (o₁ o₂ o₁' o₂' : KeyOrder) : g.order o₁ o₂ = g'.order o₁' o₂'
  /-- The number of cubes. -/
  vertexCount : g.vertexCount = g'.vertexCount
  /-- The number of references. -/
  edgeCount : g.edgeCount = g'.edgeCount

/-- Sorting and filtering do not depend on the order in which the keys are met. -/
theorem sort_filter_arrange_eq {ids ids' : List Text} (h : ids.Perm ids') {p p' : Text → Bool}
    (hp : ∀ id, p id = p' id) (o o' : KeyOrder) :
    Text.sort ((o.arrange ids).filter p) = Text.sort ((o'.arrange ids').filter p') := by
  obtain rfl : p = p' := funext hp
  have hperm : (o.arrange ids).Perm (o'.arrange ids') := calc
    List.Perm (o.arrange ids) ids := o.perm ids
    List.Perm _ ids' := h
    List.Perm _ (o'.arrange ids') := (o'.perm ids').symm
  exact Text.sort_eq_of_perm (hperm.filter p)

theorem SameReferences.answers {g g' : Graph} (hg : g.Balanced) (hg' : g'.Balanced)
    (h : SameReferences g g') : SameAnswers g g' where
  usesOf id := Text.sort_eq_of_perm (h.perm_uses hg hg' id)
  usersOf id := Text.sort_eq_of_perm (h.perm_usedBy hg hg' id)
  dependencies id o o' := Text.eq_of_strict (strict_reach ..) (strict_reach ..) fun x => by
    rw [mem_dependencies, mem_dependencies, DependsOn, DependsOn, h.uses_eq]
  affected changed o o' := Text.eq_of_strict (strict_reach ..) (strict_reach ..) fun x => by
    rw [mem_affected hg.toCoherent, mem_affected hg'.toCoherent]
    simp only [DependsOn, h.uses_eq]
  roots := sort_filter_arrange_eq (h.perm_vertices hg hg') fun id =>
    (h.perm_uses hg hg' id).isEmpty_eq
  leaves := sort_filter_arrange_eq (h.perm_vertices hg hg') fun id =>
    (h.perm_usedBy hg hg' id).isEmpty_eq
  order := h.order_eq hg hg'
  vertexCount := by
    have hlength := (h.perm_vertices hg hg').length_eq
    rwa [List.length_map, List.length_map] at hlength
  edgeCount := h.edgeCount_eq hg hg'

/-! ## The same cubes from the same files -/

/-- Two graphs that have come to the same cubes and references. -/
structure Alike (g g' : Graph) : Prop where
  /-- The books of the one are balanced. -/
  left : g.Balanced
  /-- The books of the other are balanced. -/
  right : g'.Balanced
  /-- The cubes are the same, from the same files. -/
  vertices : g.vertices = g'.vertices
  /-- The references are the same. -/
  uses (a b : Text) : g.Uses a b ↔ g'.Uses a b

theorem Alike.sameReferences {g g' : Graph} (h : g.Alike g') : SameReferences g g' :=
  ⟨fun id => by rw [has, has, vertex?, vertex?, h.vertices], h.uses⟩

theorem Alike.subgraph {g g' : Graph} (h : g.Alike g') (ids : List Text) :
    (g.subgraph ids).Alike (g'.subgraph ids) where
  left := balanced_subgraph ..
  right := balanced_subgraph ..
  vertices := by
    have hvertex : g.vertex? = g'.vertex? := funext fun id => by rw [vertex?, vertex?, h.vertices]
    rw [subgraph_eq, subgraph_eq, vertices_connecting, vertices_connecting, bare, bare, hvertex]
  uses := (h.sameReferences.subgraph h.left h.right (fun _ => Iff.rfl) ..).uses

/-- Graphs that are alike cannot be told apart by their answers. -/
theorem Alike.answer_eq {g g' : Graph} (h : g.Alike g') (q : Question) :
    g.answer q = g'.answer q := by
  have hsame := h.sameReferences.answers h.left h.right
  induction q generalizing g g' with
  | vertex id => rw [answer, answer, vertex?, vertex?, h.vertices]
  | vertices => rw [answer, answer, sortedVertices, sortedVertices, h.vertices]
  | vertexCount => rw [answer, answer, hsame.vertexCount]
  | edgeCount => rw [answer, answer, hsame.edgeCount]
  | uses id => rw [answer, answer, hsame.usesOf]
  | users id => rw [answer, answer, hsame.usersOf]
  | dependencies id => exact congrArg _ (hsame.dependencies ..)
  | affected changed => exact congrArg _ (hsame.affected ..)
  | roots => exact congrArg _ (hsame.roots ..)
  | leaves => exact congrArg _ (hsame.leaves ..)
  | order => exact congrArg _ (hsame.order ..)
  | narrowed ids q ih =>
    have hsub := h.subgraph ids
    exact ih hsub (hsub.sameReferences.answers hsub.left hsub.right)

/-! ## Histories -/

/-- However two graphs have come to have the same cubes and references, they answer the same, and so
do their parts with the same cubes. -/
theorem answers_after {calls calls' : List Call}
    (h : SameReferences (after calls) (after calls')) :
    SameAnswers (after calls) (after calls') ∧
    ∀ ids ids', (∀ id, id ∈ ids ↔ id ∈ ids') → ∀ o o',
      SameAnswers ((after calls).subgraph ids o) ((after calls').subgraph ids' o') := by
  have hg := balanced_after calls
  have hg' := balanced_after calls'
  refine ⟨h.answers hg hg', fun ids ids' hids o o' => ?_⟩
  exact (h.subgraph hg hg' hids o o').answers (balanced_subgraph ..) (balanced_subgraph ..)

/-- Two cubes that refer to each other, with one before them and one besides. -/
def forwards : List Call :=
  [.addVertex (lit "A") (lit "a.js"), .addVertex (lit "B") (lit "b.js"),
    .addVertex (lit "C") (lit "c.js"), .addVertex (lit "D") (lit "d.js"),
    .addEdge (lit "A") (lit "B"), .addEdge (lit "B") (lit "A"), .addEdge (lit "C") (lit "A"),
    .addEdge (lit "C") (lit "D")]

/-- The same graph from the other end, with a reference that comes too early, one that comes twice,
one of a cube to itself, and a cube that is added twice. -/
def backwards : List Call :=
  [.addVertex (lit "D") (lit "d.js"), .addVertex (lit "C") (lit "c.js"),
    .addVertex (lit "B") (lit "b.js"), .addEdge (lit "C") (lit "D"),
    .addEdge (lit "C") (lit "A"), .addVertex (lit "A") (lit "x.js"),
    .addVertex (lit "A") (lit "y.js"), .addEdge (lit "C") (lit "A"),
    .addEdge (lit "C") (lit "D"), .addEdge (lit "B") (lit "B"), .addEdge (lit "B") (lit "A"),
    .addEdge (lit "A") (lit "B")]

/-- The two histories leave different lists, and the answers are the same. -/
theorem backwards_answers :
    SameReferences (after forwards) (after backwards) ∧
    (after forwards).uses ≠ (after backwards).uses ∧
    SameAnswers (after forwards) (after backwards) ∧
    ∀ o o', SameAnswers ((after forwards).subgraph [lit "C", lit "A", lit "B"] o)
      ((after backwards).subgraph [lit "A", lit "B", lit "C", lit "B"] o') := by
  have hids : ((after forwards).vertices.map Vertex.id).Perm
      ((after backwards).vertices.map Vertex.id) := by decide +kernel
  have hentries : (after forwards).uses.entries.Perm (after backwards).uses.entries := by
    decide +kernel
  have hsame : SameReferences (after forwards) (after backwards) := by
    refine ⟨fun id => ?_, fun a b => ?_⟩
    · rw [Bool.eq_iff_iff, has_iff, has_iff, hids.mem_iff]
    · have hedge := hentries.mem_iff (a := (a, b))
      rwa [Adjacency.mem_entries (balanced_after _).usesKeys,
        Adjacency.mem_entries (balanced_after _).usesKeys] at hedge
  obtain ⟨hanswers, hparts⟩ := answers_after hsame
  refine ⟨hsame, by decide +kernel, hanswers, hparts _ _ fun id => ?_⟩
  -- The lists name the same cubes, in another order and one of them twice.
  simp only [List.mem_cons, List.not_mem_nil, or_false]
  constructor
  · rintro (rfl | rfl | rfl) <;> simp
  · rintro (rfl | rfl | rfl | rfl) <;> simp

end CubeSchema.Graph
