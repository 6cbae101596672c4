import CubeSchema.Graph

/-!
# The references of a graph

A graph keeps every reference twice, at the cube it starts from and at the cube it leads to.
`Graph.Coherent` says that the two agree and that nothing is listed twice; adding cubes and
references keeps it so. A coherent graph is known by its cubes and its references: the sorted
answers of two graphs with the same cubes and references are the same.
-/

namespace CubeSchema

/-- A list without repetitions stays so when something new is put at its end. -/
theorem nodup_snoc {ts : List Text} {t : Text} (h : ts.Nodup) (ht : t ∉ ts) :
    (ts ++ [t]).Nodup := by
  refine List.nodup_append.2 ⟨h, List.nodup_cons.2 ⟨by simp, List.nodup_nil⟩, ?_⟩
  rintro x hx y hy rfl
  exact ht (List.mem_singleton.1 hy ▸ hx)

/-! ## Sorted lists -/

theorem Text.perm_sort (ts : List Text) : (Text.sort ts).Perm ts := List.mergeSort_perm ..

theorem Text.mem_sort {ts : List Text} {t : Text} : t ∈ Text.sort ts ↔ t ∈ ts :=
  (Text.perm_sort ts).mem_iff

theorem Text.pairwise_sort (ts : List Text) : (Text.sort ts).Pairwise (· ≤ ·) := by
  have hsorted : (Text.sort ts).Pairwise fun a b => decide (a ≤ b) = true := by
    refine List.pairwise_mergeSort ?_ ?_ ts
    · intro a b c hab hbc
      simp only [decide_eq_true_eq] at hab hbc ⊢
      exact List.le_trans hab hbc
    · intro a b
      simpa using List.le_total a b
  exact hsorted.imp fun h => of_decide_eq_true h

/-- What a sorted list begins with is the least of the texts. -/
theorem Text.le_of_sort_eq_cons {ts rest : List Text} {t : Text} (h : Text.sort ts = t :: rest) :
    ∀ x ∈ ts, t ≤ x := by
  intro x hx
  have hsorted := Text.pairwise_sort ts
  rw [h, List.pairwise_cons] at hsorted
  rw [← Text.mem_sort, h, List.mem_cons] at hx
  obtain rfl | hx := hx
  · exact List.le_refl x
  · exact hsorted.1 x hx

/-- Texts that are all different are sorted in a strict order. -/
theorem Text.strict_sort {ts : List Text} (h : ts.Nodup) : (Text.sort ts).Pairwise (· < ·) :=
  (Text.pairwise_sort ts).imp₂ (fun _ _ hle hne => Std.lt_of_le_of_ne hle hne)
    ((Text.perm_sort ts).nodup_iff.2 h)

/-- Rearranged lists are sorted to the same list. -/
theorem Text.sort_eq_of_perm {l₁ l₂ : List Text} (h : l₁.Perm l₂) :
    Text.sort l₁ = Text.sort l₂ := by
  -- Of two sorted lists that are rearrangements of one another, neither has anything out of place.
  refine List.Perm.eq_of_pairwise ?_ (Text.pairwise_sort l₁) (Text.pairwise_sort l₂) ?_
  · exact fun a b _ _ hab hba => List.le_antisymm hab hba
  · exact (Text.perm_sort l₁).trans (h.trans (Text.perm_sort l₂).symm)

/-- Lists that hold the same texts, each once, are sorted to the same list. -/
theorem Text.sort_eq_of_mem_iff {l₁ l₂ : List Text} (h₁ : l₁.Nodup) (h₂ : l₂.Nodup)
    (h : ∀ t, t ∈ l₁ ↔ t ∈ l₂) : Text.sort l₁ = Text.sort l₂ :=
  Text.sort_eq_of_perm ((List.perm_ext_iff_of_nodup h₁ h₂).2 h)

/-- In a strict order nothing stands twice. -/
theorem Text.nodup_of_strict {ts : List Text} (h : ts.Pairwise (· < ·)) : ts.Nodup := by
  refine h.imp ?_
  rintro t _ hlt rfl
  exact List.lt_irrefl t hlt

/-- In a strict order there is one place for everything. -/
theorem Text.eq_of_strict {l₁ l₂ : List Text} (h₁ : l₁.Pairwise (· < ·)) (h₂ : l₂.Pairwise (· < ·))
    (h : ∀ t, t ∈ l₁ ↔ t ∈ l₂) : l₁ = l₂ := by
  have hperm : l₁.Perm l₂ :=
    (List.perm_ext_iff_of_nodup (Text.nodup_of_strict h₁) (Text.nodup_of_strict h₂)).2 h
  refine hperm.eq_of_pairwise ?_ h₁ h₂
  exact fun a b _ _ hab hba => absurd hba (List.lt_asymm hab)

namespace Adjacency

/-- Adding to one list leaves the others as they are. -/
theorem neighbours_add (a : Adjacency) (id x other : Text) : (a.add id x).neighbours other =
    if id = other then a.neighbours other ++ [x] else a.neighbours other := by
  induction a with
  | nil =>
    rw [add, neighbours_cons]
    rfl
  | cons entry a ih =>
    obtain ⟨key, xs⟩ := entry
    rw [add]
    by_cases hkey : key = id
    · subst hkey
      rw [if_pos rfl, neighbours_cons, neighbours_cons]
      split <;> rfl
    · rw [if_neg hkey, neighbours_cons, neighbours_cons, ih]
      by_cases hother : key = other
      · have hne : id ≠ other := fun h => hkey (hother.trans h.symm)
        rw [if_pos hother, if_pos hother, if_neg hne]
      · rw [if_neg hother, if_neg hother]

end Adjacency

namespace Graph

/-- Both lists of a graph tell the same references, and nothing is listed twice. -/
structure Coherent (g : Graph) : Prop where
  /-- Every cube occurs once. -/
  vertices : (g.vertices.map Vertex.id).Nodup
  /-- Every reference of a cube occurs once. -/
  uses (id : Text) : (g.uses.neighbours id).Nodup
  /-- Every reference to a cube occurs once. -/
  usedBy (id : Text) : (g.usedBy.neighbours id).Nodup
  /-- A reference stands in the one list exactly if it stands in the other. -/
  agree (source target : Text) :
    source ∈ g.usedBy.neighbours target ↔ target ∈ g.uses.neighbours source

theorem has_iff {g : Graph} {id : Text} : g.has id = true ↔ id ∈ g.vertices.map Vertex.id := by
  unfold has vertex?
  rw [List.find?_isSome, List.mem_map]
  simp

theorem coherent_empty : Coherent {} := by
  constructor <;> simp [Adjacency.neighbours]

/-! ## Adding cubes -/

/-- Adding a cube adds its name, unless it is there. -/
theorem ids_addVertex (g : Graph) (id file : Text) : (g.addVertex id file).vertices.map Vertex.id =
    if g.has id then g.vertices.map Vertex.id else g.vertices.map Vertex.id ++ [id] := by
  unfold addVertex
  split
  · rw [List.map_map]
    refine List.map_congr_left fun v _ => ?_
    by_cases hv : v.id = id <;> simp [hv]
  · simp

theorem Coherent.addVertex {g : Graph} (h : g.Coherent) (id file : Text) :
    (g.addVertex id file).Coherent := by
  have huses : (g.addVertex id file).uses = g.uses := by
    unfold Graph.addVertex
    split <;> rfl
  have husedBy : (g.addVertex id file).usedBy = g.usedBy := by
    unfold Graph.addVertex
    split <;> rfl
  refine ⟨?_, fun x => huses ▸ h.uses x, fun x => husedBy ▸ h.usedBy x, fun s t => ?_⟩
  · rw [ids_addVertex]
    split
    · exact h.vertices
    · rename_i hnew
      exact nodup_snoc h.vertices fun hid => hnew (has_iff.2 hid)
  · rw [huses, husedBy]
    exact h.agree s t

/-- The graph with all cubes of a list added, with the files that declare them. -/
def adding (g : Graph) (vs : List Vertex) : Graph := vs.foldl (fun g v => g.addVertex v.id v.file) g

theorem Coherent.adding {g : Graph} (h : g.Coherent) (vs : List Vertex) :
    (g.adding vs).Coherent := by
  unfold Graph.adding
  induction vs generalizing g with
  | nil => exact h
  | cons v vs ih => exact ih (h.addVertex v.id v.file)

/-- Cubes of different names that are not there yet are put at the end. -/
theorem vertices_adding {g : Graph} {vs : List Vertex}
    (h : ((g.vertices ++ vs).map Vertex.id).Nodup) : (g.adding vs).vertices = g.vertices ++ vs := by
  unfold adding
  induction vs generalizing g with
  | nil => simp
  | cons v vs ih =>
    have hnew : ¬ g.has v.id = true := by
      rw [has_iff]
      intro hmem
      rw [List.map_append] at h
      exact (List.nodup_append.1 h).2.2 v.id hmem v.id (List.mem_cons_self ..) rfl
    have hadd : (g.addVertex v.id v.file).vertices = g.vertices ++ [v] := by
      rw [addVertex, if_neg hnew]
    have hassoc : g.vertices ++ v :: vs = (g.addVertex v.id v.file).vertices ++ vs := by
      rw [hadd, List.append_assoc, List.singleton_append]
    rw [List.foldl_cons, ih (hassoc ▸ h), hassoc]

theorem uses_adding (g : Graph) (vs : List Vertex) : (g.adding vs).uses = g.uses := by
  unfold adding
  induction vs generalizing g with
  | nil => rfl
  | cons v vs ih =>
    rw [List.foldl_cons, ih]
    unfold addVertex
    split <;> rfl

/-! ## Adding references -/

/-- Adding a reference changes a graph only if both ends are different cubes and the reference is
new. -/
theorem connect_eq (g : Graph) (source target : Text) : g.connect source target =
    if g.has source = true ∧ g.has target = true ∧ source ≠ target ∧
        target ∉ g.uses.neighbours source then
      ⟨g.vertices, g.uses.add source target, g.usedBy.add target source, g.edgeCount + 1⟩
    else g := by
  unfold connect addEdge
  by_cases hsource : g.has source = true
  · by_cases htarget : g.has target = true
    · by_cases hself : source = target
      · simp [htarget, hself]
      · by_cases hold : target ∈ g.uses.neighbours source
        · simp [hsource, htarget, hself, hold]
        · simp [hsource, htarget, hself, hold]
    · simp [hsource, htarget]
  · simp [hsource]

@[simp] theorem vertices_connect (g : Graph) (source target : Text) :
    (g.connect source target).vertices = g.vertices := by
  rw [connect_eq]
  split <;> rfl

theorem mem_uses_connect {g : Graph} {source target a b : Text} :
    b ∈ (g.connect source target).uses.neighbours a ↔ b ∈ g.uses.neighbours a ∨
      (a = source ∧ b = target ∧ g.has a = true ∧ g.has b = true ∧ a ≠ b) := by
  rw [connect_eq]
  split
  · rename_i h
    obtain ⟨hsource, htarget, hself, -⟩ := h
    rw [Adjacency.neighbours_add]
    by_cases ha : source = a
    · subst ha
      rw [if_pos rfl, List.mem_append, List.mem_singleton]
      constructor
      · rintro (hb | rfl)
        · exact .inl hb
        · exact .inr ⟨rfl, rfl, hsource, htarget, hself⟩
      · exact Or.imp_right fun hb => hb.2.1
    · rw [if_neg ha]
      exact ⟨.inl, fun hb => hb.resolve_right fun hb => ha hb.1.symm⟩
  · rename_i h
    refine ⟨.inl, fun hb => hb.elim id ?_⟩
    rintro ⟨rfl, rfl, hsource, htarget, hself⟩
    exact Classical.byContradiction fun hold => h ⟨hsource, htarget, hself, hold⟩

/-- The lists of a table stay without repetitions when something new is added. -/
theorem nodup_neighbours_add {a : Adjacency} {id x other : Text}
    (h : (a.neighbours other).Nodup) (hnew : id = other → x ∉ a.neighbours other) :
    ((a.add id x).neighbours other).Nodup := by
  rw [Adjacency.neighbours_add]
  split
  · rename_i hid
    exact nodup_snoc h (hnew hid)
  · exact h

theorem Coherent.connect {g : Graph} (h : g.Coherent) (source target : Text) :
    (g.connect source target).Coherent := by
  rw [connect_eq]
  split
  · rename_i hadds
    obtain ⟨-, -, -, hnew⟩ := hadds
    refine ⟨h.vertices, fun id => ?_, fun id => ?_, fun s t => ?_⟩
    · refine nodup_neighbours_add (h.uses id) ?_
      rintro rfl
      exact hnew
    · refine nodup_neighbours_add (h.usedBy id) ?_
      rintro rfl
      rwa [h.agree]
    · -- Both lists get the one new reference, each at its own end.
      simp only [Adjacency.neighbours_add]
      by_cases hs : source = s
      · by_cases ht : target = t
        · simp [hs, ht]
        · simp only [hs, ht, if_true, if_false, List.mem_append, List.mem_singleton, h.agree]
          exact ⟨.inl, fun ht' => ht'.resolve_right fun h' => ht h'.symm⟩
      · by_cases ht : target = t
        · simp only [hs, ht, if_true, if_false, List.mem_append, List.mem_singleton, h.agree]
          exact ⟨fun hs' => hs'.resolve_right fun h' => hs h'.symm, .inl⟩
        · simp only [hs, ht, if_false, h.agree]
  · exact h

/-- The graph with all references of a list added. -/
def connecting (g : Graph) (edges : List (Text × Text)) : Graph :=
  edges.foldl (fun g e => g.connect e.1 e.2) g

theorem Coherent.connecting {g : Graph} (h : g.Coherent) (edges : List (Text × Text)) :
    (g.connecting edges).Coherent := by
  unfold Graph.connecting
  induction edges generalizing g with
  | nil => exact h
  | cons e edges ih => exact ih (h.connect e.1 e.2)

@[simp] theorem vertices_connecting (g : Graph) (edges : List (Text × Text)) :
    (g.connecting edges).vertices = g.vertices := by
  unfold connecting
  induction edges generalizing g with
  | nil => rfl
  | cons e edges ih => rw [List.foldl_cons, ih, vertices_connect]

/-- The references of a graph are those that were added between two of its cubes. -/
theorem mem_uses_connecting {g : Graph} {edges : List (Text × Text)} {a b : Text} :
    b ∈ (g.connecting edges).uses.neighbours a ↔ b ∈ g.uses.neighbours a ∨
      ((a, b) ∈ edges ∧ g.has a = true ∧ g.has b = true ∧ a ≠ b) := by
  unfold connecting
  induction edges generalizing g with
  | nil => simp
  | cons e edges ih =>
    -- The cubes do not change, so the condition on the ends can be asked of the first graph.
    have hhas : ∀ id, (g.connect e.1 e.2).has id = g.has id := fun id => by
      rw [has, has, vertex?, vertex?, vertices_connect]
    rw [List.foldl_cons, ih, mem_uses_connect, hhas, hhas, List.mem_cons, Prod.ext_iff]
    constructor
    · rintro ((hold | ⟨ha, hb, hrest⟩) | ⟨hmem, hrest⟩)
      · exact .inl hold
      · exact .inr ⟨.inl ⟨ha, hb⟩, hrest⟩
      · exact .inr ⟨.inr hmem, hrest⟩
    · rintro (hold | ⟨⟨ha, hb⟩ | hmem, hrest⟩)
      · exact .inl (.inl hold)
      · exact .inl (.inr ⟨ha, hb, hrest⟩)
      · exact .inr ⟨hmem, hrest⟩

/-! ## Sorted answers -/

/-- Graphs with the same cubes and references give the same answers. -/
theorem Coherent.answers_eq {g g' : Graph} (h : g.Coherent) (h' : g'.Coherent)
    (hhas : ∀ id, g.has id = true ↔ g'.has id = true)
    (huses : ∀ a b, b ∈ g.uses.neighbours a ↔ b ∈ g'.uses.neighbours a) :
    g.ids = g'.ids ∧ ∀ id, g.usesOf id = g'.usesOf id ∧ g.usersOf id = g'.usersOf id := by
  refine ⟨Text.sort_eq_of_mem_iff h.vertices h'.vertices fun id => ?_, fun id => ⟨?_, ?_⟩⟩
  · rw [← has_iff, ← has_iff, hhas]
  · exact Text.sort_eq_of_mem_iff (h.uses id) (h'.uses id) (huses id)
  · refine Text.sort_eq_of_mem_iff (h.usedBy id) (h'.usedBy id) fun a => ?_
    rw [h.agree, h'.agree, huses]

end Graph

end CubeSchema
