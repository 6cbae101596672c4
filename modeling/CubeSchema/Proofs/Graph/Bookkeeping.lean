import CubeSchema.Proofs.Graph.Edges
import Mathlib.Data.List.Nodup

/-!
# The books of a graph

A graph enters every reference twice, in the list of the cube that refers and in the list of the
cube that is referred to, and it counts the references besides. `Call` lists what can be done with a
graph. Whatever is done, and whether or not it succeeds, the books stay balanced (`Balanced`): one
call keeps them so, and so does a whole history (`books_balance`).
-/

namespace CubeSchema

namespace Adjacency

/-- A table has a list for the cube to which something was added, and for those it had before. -/
theorem keys_add (a : Adjacency) (id x : Text) : (a.add id x).map Prod.fst =
    if id ∈ a.map Prod.fst then a.map Prod.fst else a.map Prod.fst ++ [id] := by
  induction a with
  | nil => rfl
  | cons entry a ih =>
    obtain ⟨key, xs⟩ := entry
    rw [add]
    by_cases hkey : key = id
    · subst hkey
      rw [if_pos rfl, if_pos (by simp)]
      rfl
    · have hne : id ≠ key := fun h => hkey h.symm
      rw [if_neg hkey, List.map_cons, List.map_cons, ih]
      simp only [List.mem_cons, hne, false_or]
      split <;> rfl

theorem nodup_keys_add {a : Adjacency} (h : (a.map Prod.fst).Nodup) (id x : Text) :
    ((a.add id x).map Prod.fst).Nodup := by
  rw [keys_add]
  split
  · exact h
  · rename_i hnew
    exact nodup_snoc h hnew

theorem total_add (a : Adjacency) (id x : Text) : (a.add id x).total = a.total + 1 := by
  induction a with
  | nil => rfl
  | cons entry a ih =>
    obtain ⟨key, xs⟩ := entry
    rw [add]
    by_cases hkey : key = id
    · rw [if_pos hkey]
      simp only [total, List.length_append, List.length_singleton]
      omega
    · rw [if_neg hkey]
      simp only [total]
      omega

/-- The elements of all lists, each with the cube that has the list. -/
def entries (a : Adjacency) : List (Text × Text) := a.flatMap fun e => e.2.map fun x => (e.1, x)

theorem length_entries (a : Adjacency) : a.entries.length = a.total := by
  induction a with
  | nil => rfl
  | cons entry a ih =>
    rw [entries, List.flatMap_cons, List.length_append, List.length_map, ← entries, ih]
    rfl

/-- Nothing is listed for a cube without a list. -/
theorem neighbours_of_not_mem {a : Adjacency} {id : Text} (h : id ∉ a.map Prod.fst) :
    a.neighbours id = [] := by
  induction a with
  | nil => rfl
  | cons entry a ih =>
    obtain ⟨key, xs⟩ := entry
    rw [List.map_cons, List.mem_cons, not_or] at h
    rw [neighbours_cons, if_neg fun hkey => h.1 hkey.symm, ih h.2]

theorem mem_entries {a : Adjacency} (h : (a.map Prod.fst).Nodup) {id x : Text} :
    (id, x) ∈ a.entries ↔ x ∈ a.neighbours id := by
  induction a with
  | nil => exact ⟨fun h => absurd h List.not_mem_nil, fun h => absurd h List.not_mem_nil⟩
  | cons entry a ih =>
    obtain ⟨key, xs⟩ := entry
    obtain ⟨hnew, hrest⟩ := List.nodup_cons.1 h
    rw [entries, List.flatMap_cons, List.mem_append, List.mem_map, ← entries, ih hrest,
      neighbours_cons]
    by_cases hkey : key = id
    · subst hkey
      rw [if_pos rfl, neighbours_of_not_mem hnew]
      simp
    · rw [if_neg hkey]
      simp [hkey]

theorem nodup_entries {a : Adjacency} (h : (a.map Prod.fst).Nodup)
    (hlists : ∀ id, (a.neighbours id).Nodup) : a.entries.Nodup := by
  induction a with
  | nil => exact List.nodup_nil
  | cons entry a ih =>
    obtain ⟨key, xs⟩ := entry
    obtain ⟨hnew, hrest⟩ := List.nodup_cons.1 h
    have hxs : xs.Nodup := by simpa [neighbours_cons] using hlists key
    have hothers (id : Text) : (neighbours a id).Nodup := by
      by_cases hkey : key = id
      · rw [← hkey, neighbours_of_not_mem hnew]
        exact List.nodup_nil
      · simpa [neighbours_cons, hkey] using hlists id
    rw [entries, List.flatMap_cons, ← entries]
    refine List.nodup_append.2 ⟨hxs.map fun x y h => (Prod.mk.inj h).2, ih hrest hothers, ?_⟩
    rintro e he _ he' rfl
    obtain ⟨x, -, rfl⟩ := List.mem_map.1 he
    have hx := (mem_entries hrest).1 he'
    rw [neighbours_of_not_mem hnew] at hx
    exact List.not_mem_nil hx

end Adjacency

namespace Graph

/-! ## Calls -/

/-- What can be done with a graph. -/
inductive Call where
  /-- To add a cube. -/
  | addVertex (id file : Text)
  /-- To add a reference, which fails when one of its ends is no cube of the graph. -/
  | addEdge (source target : Text)
  /-- To go on with the graph of some of the cubes. -/
  | narrow (ids : List Text) (o : KeyOrder)

/-- The graph after a call. -/
def call (g : Graph) : Call → Graph
  | .addVertex id file => g.addVertex id file
  | .addEdge source target => g.connect source target
  | .narrow ids o => g.subgraph ids o

/-- The graph after a history of calls, of which the first finds no cubes. -/
def after (calls : List Call) : Graph := calls.foldl call {}

/-! ## Balanced books -/

/-- Everything that a graph writes down about its references fits together. -/
structure Balanced (g : Graph) : Prop extends Coherent g where
  /-- Every cube has one list of the cubes that it refers to. -/
  usesKeys : (g.uses.map Prod.fst).Nodup
  /-- Every cube has one list of the cubes that refer to it. -/
  usedByKeys : (g.usedBy.map Prod.fst).Nodup
  /-- No cube refers to itself. -/
  irrefl (id : Text) : id ∉ g.uses.neighbours id
  /-- Both ends of a reference are cubes of the graph. -/
  ends {source target : Text} (h : target ∈ g.uses.neighbours source) :
    g.has source = true ∧ g.has target = true
  /-- All references are counted where they start. -/
  total_uses : g.edgeCount = g.uses.total
  /-- All references are counted where they lead. -/
  total_usedBy : g.edgeCount = g.usedBy.total

/-- A reference is entered at both of its ends equally often. -/
theorem Coherent.count_eq {g : Graph} (h : g.Coherent) (a b : Text) :
    (g.uses.neighbours a).count b = (g.usedBy.neighbours b).count a := by
  rw [(h.uses a).count, (h.usedBy b).count]
  simp only [h.agree]

theorem balanced_empty : Balanced {} where
  toCoherent := coherent_empty
  usesKeys := List.nodup_nil
  usedByKeys := List.nodup_nil
  irrefl _ := List.not_mem_nil
  ends h := absurd h List.not_mem_nil
  total_uses := rfl
  total_usedBy := rfl

theorem has_addVertex {g : Graph} {id file x : Text} :
    (g.addVertex id file).has x = true ↔ g.has x = true ∨ x = id := by
  rw [has_iff, ids_addVertex]
  split
  · rename_i hid
    rw [← has_iff]
    exact ⟨.inl, fun h => h.elim (fun h => h) fun h => h ▸ hid⟩
  · rw [List.mem_append, List.mem_singleton, has_iff]

/-- Adding a cube does not touch the references. -/
theorem addVertex_eq (g : Graph) (id file : Text) :
    ∃ vertices, g.addVertex id file = { g with vertices } := by
  unfold addVertex
  split
  · exact ⟨_, rfl⟩
  · exact ⟨_, rfl⟩

theorem Balanced.addVertex {g : Graph} (h : g.Balanced) (id file : Text) :
    (g.addVertex id file).Balanced := by
  have hhas : ∀ {x}, g.has x = true → (g.addVertex id file).has x = true :=
    fun hx => has_addVertex.2 (.inl hx)
  have hcoherent := h.toCoherent.addVertex id file
  obtain ⟨vertices, heq⟩ := g.addVertex_eq id file
  rw [heq] at hcoherent hhas ⊢
  exact ⟨hcoherent, h.usesKeys, h.usedByKeys, h.irrefl,
    fun hmem => (h.ends hmem).imp hhas hhas, h.total_uses, h.total_usedBy⟩

theorem Balanced.connect {g : Graph} (h : g.Balanced) (source target : Text) :
    (g.connect source target).Balanced := by
  have hhas : ∀ x, (g.connect source target).has x = g.has x := fun x => by
    rw [has, has, vertex?, vertex?, vertices_connect]
  -- Connecting adds one reference on each side, or leaves both sides as they are.
  refine { toCoherent := h.toCoherent.connect source target, usesKeys := ?_, usedByKeys := ?_,
           irrefl := fun id => ?_, ends := fun {a b} hmem => ?_, total_uses := ?_,
           total_usedBy := ?_ }
  · rw [connect_eq]
    split
    · exact Adjacency.nodup_keys_add h.usesKeys _ _
    · exact h.usesKeys
  · rw [connect_eq]
    split
    · exact Adjacency.nodup_keys_add h.usedByKeys _ _
    · exact h.usedByKeys
  · rw [mem_uses_connect]
    rintro (hold | ⟨-, -, -, -, hne⟩)
    · exact h.irrefl id hold
    · exact hne rfl
  · rw [hhas, hhas]
    obtain hold | ⟨-, -, ha, hb, -⟩ := mem_uses_connect.1 hmem
    · exact h.ends hold
    · exact ⟨ha, hb⟩
  · rw [connect_eq]
    split
    · rw [Adjacency.total_add, h.total_uses]
    · exact h.total_uses
  · rw [connect_eq]
    split
    · rw [Adjacency.total_add, h.total_usedBy]
    · exact h.total_usedBy

/-- Adding a reference fails at the first of its ends that is no cube. -/
theorem addEdge_eq_error_iff {g : Graph} {a b : Text} {e : UnknownCube} :
    g.addEdge a b = .error e ↔
      (g.has a = false ∧ e = ⟨a⟩) ∨ (g.has a = true ∧ g.has b = false ∧ e = ⟨b⟩) := by
  unfold addEdge
  cases g.has a with
  | false => simpa using eq_comm
  | true =>
    cases g.has b with
    | false => simpa using eq_comm
    | true =>
      simp only [Bool.not_true, Bool.false_eq_true, if_false]
      split <;> simp

theorem exists_addEdge_eq_error_iff {g : Graph} {a b : Text} :
    (∃ e, g.addEdge a b = .error e) ↔ g.has a = false ∨ g.has b = false := by
  simp only [addEdge_eq_error_iff]
  constructor
  · rintro ⟨e, ⟨ha, -⟩ | ⟨-, hb, -⟩⟩
    · exact .inl ha
    · exact .inr hb
  · intro h
    cases ha : g.has a with
    | false => exact ⟨⟨a⟩, .inl ⟨rfl, rfl⟩⟩
    | true => exact ⟨⟨b⟩, .inr ⟨rfl, h.resolve_left (by simp [ha]), rfl⟩⟩

/-- A reference that can be added joins the others, unless it leads from a cube to itself. -/
theorem mem_uses_of_addEdge {g g' : Graph} {a b : Text} (h : g.addEdge a b = .ok g') (x y : Text) :
    y ∈ g'.uses.neighbours x ↔ y ∈ g.uses.neighbours x ∨ (x = a ∧ y = b ∧ a ≠ b) := by
  have hends : g.has a = true ∧ g.has b = true := by
    have hfails := mt (exists_addEdge_eq_error_iff (g := g) (a := a) (b := b)).2
      (by rw [h]; simp)
    simpa using hfails
  have hconnect : g.connect a b = g' := by rw [Graph.connect, h]
  rw [← hconnect, mem_uses_connect]
  refine or_congr_right ⟨?_, ?_⟩
  · rintro ⟨rfl, rfl, -, -, hne⟩
    exact ⟨rfl, rfl, hne⟩
  · rintro ⟨rfl, rfl, hne⟩
    exact ⟨rfl, rfl, hends.1, hends.2, hne⟩

theorem Balanced.adding {g : Graph} (h : g.Balanced) (vs : List Vertex) :
    (g.adding vs).Balanced := by
  unfold Graph.adding
  induction vs generalizing g with
  | nil => exact h
  | cons v vs ih => exact ih (h.addVertex v.id v.file)

theorem Balanced.connecting {g : Graph} (h : g.Balanced) (edges : List (Text × Text)) :
    (g.connecting edges).Balanced := by
  unfold Graph.connecting
  induction edges generalizing g with
  | nil => exact h
  | cons e edges ih => exact ih (h.connect e.1 e.2)

/-! ## Part of a graph -/

/-- The cubes of a graph that stand in a list, without their references. -/
def bare (g : Graph) (ids : List Text) : Graph := ({} : Graph).adding (ids.filterMap g.vertex?)

/-- The references of some cubes to cubes of the graph of others. -/
def edgesAmong (g : Graph) (cubes : Graph) (ids : List Text) : List (Text × Text) :=
  ids.flatMap fun id => ((g.uses.neighbours id).filter cubes.has).map fun target => (id, target)

theorem subgraph_eq (g : Graph) (ids : List Text) (o : KeyOrder) : g.subgraph ids o =
    (g.bare ids).connecting
      (g.edgesAmong (g.bare ids) (o.arrange ((g.bare ids).vertices.map Vertex.id))) := by
  simp only [subgraph, connecting, edgesAmong, bare, adding, List.foldl_flatMap, List.foldl_map]

theorem has_adding {g : Graph} {vs : List Vertex} {x : Text} :
    (g.adding vs).has x = true ↔ g.has x = true ∨ x ∈ vs.map Vertex.id := by
  unfold adding
  induction vs generalizing g with
  | nil => simp
  | cons v vs ih => rw [List.foldl_cons, ih, has_addVertex, or_assoc, List.map_cons, List.mem_cons]

theorem has_bare {g : Graph} {ids : List Text} {x : Text} :
    (g.bare ids).has x = true ↔ x ∈ ids ∧ g.has x = true := by
  have hid {id : Text} {v : Vertex} (h : g.vertex? id = some v) : v.id = id := by
    simpa using List.find?_some h
  rw [bare, has_adding]
  simp only [List.mem_map, List.mem_filterMap]
  constructor
  · rintro (h | ⟨v, ⟨id, hmem, hv⟩, rfl⟩)
    · cases h
    · have heq := hid hv
      subst heq
      exact ⟨hmem, by rw [has, hv]; rfl⟩
  · rintro ⟨hmem, hx⟩
    obtain ⟨v, hv⟩ := Option.isSome_iff_exists.1 hx
    exact .inr ⟨v, ⟨x, hmem, hv⟩, hid hv⟩

/-- Part of a graph has the cubes that were asked for, as far as they are there. -/
theorem has_subgraph {g : Graph} {ids : List Text} {o : KeyOrder} {x : Text} :
    (g.subgraph ids o).has x = true ↔ x ∈ ids ∧ g.has x = true := by
  rw [← has_bare, subgraph_eq, has, vertex?, vertices_connecting]
  rfl

/-- Part of a graph has the references between its cubes. -/
theorem mem_uses_subgraph {g : Graph} (hg : g.Balanced) {ids : List Text} {o : KeyOrder}
    {a b : Text} : b ∈ (g.subgraph ids o).uses.neighbours a ↔
      a ∈ ids ∧ b ∈ ids ∧ b ∈ g.uses.neighbours a := by
  have hnone : (g.bare ids).uses = [] := uses_adding {} _
  have hedge : (a, b) ∈ g.edgesAmong (g.bare ids)
      (o.arrange ((g.bare ids).vertices.map Vertex.id)) ↔
        (g.bare ids).has a = true ∧ b ∈ g.uses.neighbours a ∧ (g.bare ids).has b = true := by
    rw [edgesAmong, List.mem_flatMap, has_iff, ← (o.perm _).mem_iff]
    constructor
    · rintro ⟨_, ha, hmem⟩
      obtain ⟨_, hb, heq⟩ := List.mem_map.1 hmem
      obtain ⟨rfl, rfl⟩ := Prod.mk.inj heq
      exact ⟨ha, List.mem_filter.1 hb⟩
    · rintro ⟨ha, hb⟩
      exact ⟨a, ha, List.mem_map_of_mem (List.mem_filter.2 hb)⟩
  rw [subgraph_eq, mem_uses_connecting, hedge, hnone, has_bare, has_bare]
  constructor
  · rintro (h | ⟨⟨⟨ha, -⟩, hab, hb, -⟩, -⟩)
    · exact absurd h List.not_mem_nil
    · exact ⟨ha, hb, hab⟩
  · rintro ⟨ha, hb, hab⟩
    have hends := hg.ends hab
    have hne : a ≠ b := fun heq => hg.irrefl a (heq ▸ hab)
    exact .inr ⟨⟨⟨ha, hends.1⟩, hab, hb, hends.2⟩, ⟨ha, hends.1⟩, ⟨hb, hends.2⟩, hne⟩

theorem balanced_subgraph (g : Graph) (ids : List Text) (o : KeyOrder) :
    (g.subgraph ids o).Balanced := by
  rw [subgraph_eq]
  exact (balanced_empty.adding _).connecting _

/-! ## Histories -/

theorem Balanced.call {g : Graph} (h : g.Balanced) (c : Call) : (g.call c).Balanced := by
  cases c with
  | addVertex id file => exact h.addVertex id file
  | addEdge source target => exact h.connect source target
  | narrow ids o => exact balanced_subgraph g ids o

theorem Balanced.calls {g : Graph} (h : g.Balanced) (calls : List Call) :
    (calls.foldl Graph.call g).Balanced := by
  induction calls generalizing g with
  | nil => exact h
  | cons c calls ih => exact ih (h.call c)

theorem balanced_after (calls : List Call) : (after calls).Balanced := balanced_empty.calls calls

/-- Whatever is done with a graph, its books are balanced: every reference is entered at both ends,
once, between two different cubes of the graph, and it is counted. A reference cannot be added
exactly when one of its ends is no cube, and then nothing changes; otherwise it is there. As a part
of a graph has a history too, all this holds of the parts as well. -/
theorem books_balance (calls : List Call) :
    (after calls).Balanced ∧
    (∀ a b, ((after calls).uses.neighbours a).count b =
      ((after calls).usedBy.neighbours b).count a) ∧
    (∀ a b,
      ((∃ e, (after calls).addEdge a b = .error e) ↔
        (after calls).has a = false ∨ (after calls).has b = false) ∧
      (∀ e, (after calls).addEdge a b = .error e →
        (after calls).call (.addEdge a b) = after calls) ∧
      ∀ g, (after calls).addEdge a b = .ok g → (after calls).call (.addEdge a b) = g ∧
        ∀ x y, y ∈ g.uses.neighbours x ↔
          y ∈ (after calls).uses.neighbours x ∨ (x = a ∧ y = b ∧ a ≠ b)) ∧
    ∀ ids o, (after calls).subgraph ids o = after (calls ++ [.narrow ids o]) := by
  refine ⟨balanced_after calls, (balanced_after calls).count_eq,
    fun a b => ⟨exists_addEdge_eq_error_iff, ?_, ?_⟩, fun ids o => ?_⟩
  · intro e he
    rw [Graph.call, Graph.connect, he]
  · intro g hg
    refine ⟨?_, mem_uses_of_addEdge hg⟩
    rw [Graph.call, Graph.connect, hg]
  · rw [after, after, List.foldl_append]
    rfl

end Graph

end CubeSchema
