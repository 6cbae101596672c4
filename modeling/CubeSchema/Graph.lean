import CubeSchema.Text.Quoted

/-!
# The reference graph

The cubes and views of a project with the references between them: an edge runs from a cube to every
cube that it uses. Two declarations may refer to each other, so the graph may have cycles; every
question about it visits a cube at most once. Answers are sorted by name, so they depend only on the
cubes and the references, and never on the order in which these were added or in which the keys of a
table are met.
-/

namespace CubeSchema

/-- A cube of the graph, and the file or manifest that declares it. -/
structure Vertex where
  /-- The name of the cube. -/
  id : Text
  /-- Where it is declared. -/
  file : Text
  deriving DecidableEq, Repr

/-- The lists that a graph keeps per cube; a cube without an entry has the empty list. -/
abbrev Adjacency := List (Text × List Text)

namespace Adjacency

/-- The list of a cube. -/
def neighbours (a : Adjacency) (id : Text) : List Text := (a.lookup id).getD []

theorem neighbours_cons (key : Text) (xs : List Text) (a : Adjacency) (id : Text) :
    neighbours ((key, xs) :: a) id = if key = id then xs else a.neighbours id := by
  unfold neighbours
  rw [List.lookup_cons]
  by_cases h : key = id
  · simp [h]
  · have hne : (id == key) = false := by simpa using fun h' : id = key => h h'.symm
    simp [h, hne]

/-- The lengths of all lists together. -/
def total : Adjacency → Nat
  | [] => 0
  | (_, xs) :: rest => xs.length + total rest

/-- Appends an element to the list of a cube. -/
def add (a : Adjacency) (id x : Text) : Adjacency :=
  match a with
  | [] => [(id, [x])]
  | (key, xs) :: rest => if key = id then (key, xs ++ [x]) :: rest else (key, xs) :: add rest id x

end Adjacency

/-- An order in which the keys of a table are met. A table has no order of its own, so whatever goes
through one takes the order as an argument. -/
structure KeyOrder where
  /-- The keys in the order in which they are met. -/
  arrange : List Text → List Text
  /-- All keys are met, and none twice. -/
  perm (keys : List Text) : (arrange keys).Perm keys

/-- The keys in the order in which they were added. -/
def KeyOrder.added : KeyOrder := ⟨id, .refl⟩

/-- Cubes and the references between them. -/
structure Graph where
  /-- The cubes in the order they were added; every name occurs once. -/
  vertices : List Vertex := []
  /-- For every cube the cubes that it refers to. -/
  uses : Adjacency := []
  /-- For every cube the cubes that refer to it. -/
  usedBy : Adjacency := []
  /-- The number of references. -/
  edgeCount : Nat := 0
  deriving Repr

namespace Graph

/-- Why a reference cannot be added: one of its ends is no cube of the graph. -/
structure UnknownCube where
  /-- The name that no cube of the graph has. -/
  id : Text
  deriving DecidableEq, Repr

/-- The wording of a failure. -/
def UnknownCube.message (e : UnknownCube) : Text :=
  lit "cube " ++ Text.quoted e.id ++ lit " does not exist"

/-- The cube of a name. -/
def vertex? (g : Graph) (id : Text) : Option Vertex := g.vertices.find? fun v => v.id = id

/-- Whether a name is that of a cube. -/
def has (g : Graph) (id : Text) : Bool := (g.vertex? id).isSome

/-- The names of all cubes, sorted. -/
def ids (g : Graph) : List Text := Text.sort (g.vertices.map Vertex.id)

/-- The cubes sorted by name. -/
def sortedVertices (g : Graph) : List Vertex :=
  g.vertices.mergeSort fun a b => decide (a.id ≤ b.id)

/-- The number of cubes. -/
def vertexCount (g : Graph) : Nat := g.vertices.length

/-- Adds a cube; adding it again changes where it is declared. -/
def addVertex (g : Graph) (id file : Text) : Graph :=
  if g.has id then
    { g with vertices := g.vertices.map fun v => if v.id = id then ⟨id, file⟩ else v }
  else { g with vertices := g.vertices ++ [⟨id, file⟩] }

/-- Records that `source` refers to `target`. A cube's reference to itself and a reference that is
already there change nothing. -/
def addEdge (g : Graph) (source target : Text) : Except UnknownCube Graph :=
  if !g.has source then .error ⟨source⟩
  else if !g.has target then .error ⟨target⟩
  else if source = target || (g.uses.neighbours source).contains target then .ok g
  else .ok ⟨g.vertices, g.uses.add source target, g.usedBy.add target source, g.edgeCount + 1⟩

/-- The cubes that `id` refers to, sorted. -/
def usesOf (g : Graph) (id : Text) : List Text := Text.sort (g.uses.neighbours id)

/-- The cubes that refer to `id`, sorted. -/
def usersOf (g : Graph) (id : Text) : List Text := Text.sort (g.usedBy.neighbours id)

/-- The cubes that refer to no other, sorted. -/
def roots (g : Graph) (o : KeyOrder := .added) : List Text :=
  Text.sort ((o.arrange (g.vertices.map Vertex.id)).filter fun id => (g.uses.neighbours id).isEmpty)

/-- The cubes that no other refers to, sorted. -/
def leaves (g : Graph) (o : KeyOrder := .added) : List Text :=
  Text.sort
    ((o.arrange (g.vertices.map Vertex.id)).filter fun id => (g.usedBy.neighbours id).isEmpty)

/-! ## Searching -/

/-- A search under way. -/
structure Search where
  /-- The cubes that have been visited. -/
  visited : List Text
  /-- The cubes that are to be visited next, some of them perhaps more than once. -/
  queue : List Text

namespace Search

variable (next : Adjacency) (s : Search)

/-- A search begins with the neighbours of the given cubes. -/
def start (ids : List Text) : Search := ⟨[], ids.flatMap next.neighbours⟩

/-- Takes the next cube from the queue. If it has not been visited, it is now, and its neighbours
join the queue. -/
def turn : Search :=
  match s.queue with
  | [] => s
  | id :: queue =>
    if s.visited.contains id then ⟨s.visited, queue⟩
    else ⟨s.visited ++ [id], queue ++ next.neighbours id⟩

/-- The number of neighbours that the cubes have which are not among `visited`. -/
def unseen (next : Adjacency) (visited : List Text) : Nat :=
  Adjacency.total (next.filter fun e => !visited.contains e.1)

/-- The most that a search can still take from its queue. -/
def work : Nat := s.queue.length + unseen next s.visited

/-- A cube takes its neighbours along when it is visited. -/
theorem length_neighbours_add_unseen_le {visited : List Text} {id : Text} (h : id ∉ visited) :
    (next.neighbours id).length + unseen next (visited ++ [id]) ≤ unseen next visited := by
  induction next with
  | nil => simp [Adjacency.neighbours, unseen]
  | cons entry next ih =>
    obtain ⟨key, xs⟩ := entry
    rw [Adjacency.neighbours_cons]
    by_cases hkey : key = id
    · subst hkey
      simp only [unseen, List.filter_cons, List.contains_eq_mem, h, List.mem_append,
        List.mem_singleton, or_true, decide_true, decide_false, Bool.not_true, Bool.not_false,
        Bool.false_eq_true, if_true, if_false, Adjacency.total] at ih ⊢
      omega
    · by_cases hseen : key ∈ visited
      · simpa [unseen, hkey, hseen] using ih
      · simp only [unseen, List.filter_cons, List.contains_eq_mem, hseen, hkey, List.mem_append,
          List.mem_singleton, or_self, decide_false, Bool.not_false, if_true, if_false,
          Adjacency.total] at ih ⊢
        omega

/-- Every turn takes one cube from what is left. -/
theorem work_turn_lt {s : Search} (h : s.queue ≠ []) :
    (s.turn next).work next < s.work next := by
  obtain ⟨visited, queue⟩ := s
  cases queue with
  | nil => exact absurd rfl h
  | cons id queue =>
    by_cases hid : id ∈ visited
    · simp [turn, work, hid]
    · have := length_neighbours_add_unseen_le next hid
      simp only [turn, work, List.contains_eq_mem, hid, decide_false, Bool.false_eq_true, if_false,
        List.length_append, List.length_cons]
      omega

/-- Takes turns until the queue is empty. -/
def finish (s : Search) : Search := if _h : s.queue = [] then s else finish (s.turn next)
termination_by s.work next
decreasing_by exact work_turn_lt next _h

end Search

/-- Everything that can be reached from the given cubes by one or more steps, sorted. -/
def reach (next : Adjacency) (ids : List Text) (o : KeyOrder) : List Text :=
  Text.sort (o.arrange ((Search.start next ids).finish next).visited)

/-- Everything that `id` depends on through one or more references, sorted. The cube itself is among
them when it lies on a cycle. -/
def dependencies (g : Graph) (id : Text) (o : KeyOrder := .added) : List Text := reach g.uses [id] o

/-- Everything that depends on one of the given cubes through one or more references, sorted. -/
def affected (g : Graph) (changed : List Text) (o : KeyOrder := .added) : List Text :=
  reach g.usedBy changed o

/-! ## Ordering -/

/-- A number for each of some cubes. -/
abbrev Counts := List (Text × Int)

namespace Counts

/-- The number of a cube; a cube without one has zero. -/
def count (c : Counts) (id : Text) : Int := (c.lookup id).getD 0

theorem count_cons (key : Text) (n : Int) (c : Counts) (id : Text) :
    count ((key, n) :: c) id = if key = id then n else c.count id := by
  unfold count
  rw [List.lookup_cons]
  by_cases h : key = id
  · simp [h]
  · have hne : (id == key) = false := by simpa using fun h' : id = key => h h'.symm
    simp [h, hne]

/-- Lowers the number of a cube by one. -/
def lower : Counts → Text → Counts
  | [], id => [(id, -1)]
  | (key, n) :: rest, id => if key = id then (key, n - 1) :: rest else (key, n) :: lower rest id

/-- Takes the number of a cube away. -/
def drop (c : Counts) (id : Text) : Counts := c.filter fun e => e.1 ≠ id

/-- How many cubes have a number above zero. -/
def positives (c : Counts) : Nat := c.countP fun e => 0 < e.2

/-- A number that is lowered to zero was above it. -/
theorem positives_lower_le (c : Counts) (id : Text) :
    (c.lower id).positives + (if (c.lower id).count id = 0 then 1 else 0) ≤ c.positives := by
  induction c with
  | nil => simp [lower, positives, count]
  | cons entry c ih =>
    obtain ⟨key, n⟩ := entry
    rw [lower]
    by_cases hkey : key = id
    · rw [if_pos hkey, count_cons, if_pos hkey]
      simp only [positives, List.countP_cons, decide_eq_true_eq]
      split <;> split <;> split <;> omega
    · rw [if_neg hkey, count_cons, if_neg hkey]
      simp only [positives, List.countP_cons] at ih ⊢
      omega

theorem positives_drop_le (c : Counts) (id : Text) : (c.drop id).positives ≤ c.positives :=
  List.Sublist.countP_le List.filter_sublist

end Counts

/-- An ordering under way. -/
structure Countdown where
  /-- For every cube that is not placed, how many of the cubes that it uses are not placed. -/
  pending : Counts
  /-- The cubes that wait for no other and are not placed. -/
  ready : List Text
  /-- The cubes that are placed. -/
  placed : List Text

namespace Countdown

/-- At first every cube waits for all cubes that it uses. -/
def start (uses : Adjacency) (ids : List Text) : Countdown where
  pending := ids.map fun id => (id, (uses.neighbours id).length)
  ready := ids.filter fun id => (uses.neighbours id).length = 0
  placed := []

/-- A cube waits for one less; it becomes ready when there is none left. -/
def release (s : Countdown) (id : Text) : Countdown where
  pending := s.pending.lower id
  ready := if (s.pending.lower id).count id = 0 then s.ready ++ [id] else s.ready
  placed := s.placed

/-- Places the first of the cubes that are ready, and releases those that use it. -/
def turn (usedBy : Adjacency) (s : Countdown) : Countdown :=
  match Text.sort s.ready with
  | [] => s
  | id :: ready =>
    (usedBy.neighbours id).foldl release ⟨s.pending.drop id, ready, s.placed ++ [id]⟩

/-- How many cubes can still be placed. -/
def work (s : Countdown) : Nat := s.pending.positives + s.ready.length

theorem work_release_le (s : Countdown) (id : Text) : (s.release id).work ≤ s.work := by
  have := s.pending.positives_lower_le id
  simp only [release, work]
  split
  · rw [if_pos ‹_›] at this
    rw [List.length_append, List.length_singleton]
    omega
  · omega

theorem work_foldl_release_le (s : Countdown) (ids : List Text) :
    (ids.foldl release s).work ≤ s.work := by
  induction ids generalizing s with
  | nil => exact Nat.le_refl _
  | cons id ids ih => exact Nat.le_trans (ih _) (work_release_le s id)

/-- Every turn places one cube. -/
theorem work_turn_lt (usedBy : Adjacency) {s : Countdown} (h : s.ready ≠ []) :
    (s.turn usedBy).work < s.work := by
  have hlength : (Text.sort s.ready).length = s.ready.length := List.length_mergeSort _
  unfold turn
  split
  · rename_i hnil
    rw [hnil, List.length_nil] at hlength
    exact absurd (List.eq_nil_of_length_eq_zero hlength.symm) h
  · rename_i id ready hcons
    rw [hcons, List.length_cons] at hlength
    refine Nat.lt_of_le_of_lt (work_foldl_release_le _ _) ?_
    have := s.pending.positives_drop_le id
    simp only [work]
    omega

/-- Takes turns until no cube is ready. -/
def finish (usedBy : Adjacency) (s : Countdown) : Countdown :=
  if _h : s.ready = [] then s else finish usedBy (s.turn usedBy)
termination_by s.work
decreasing_by exact work_turn_lt usedBy _h

end Countdown

/-- The cubes with every cube behind the cubes that it uses, the least name first among those that
may come next. Cubes that cannot be placed so, because a cycle can be reached from them, stand at
the end by name. In the order `o` all cubes are met at first, and in the order `o'` those that are
left in the end. -/
def order (g : Graph) (o o' : KeyOrder := .added) : List Text :=
  let s := (Countdown.start g.uses (o.arrange (g.vertices.map Vertex.id))).finish g.usedBy
  s.placed ++ Text.sort (o'.arrange (s.pending.map Prod.fst))

/-! ## Part of a graph -/

/-- Adds a reference where both ends are cubes of the graph, and nothing else. -/
def connect (g : Graph) (source target : Text) : Graph :=
  match g.addEdge source target with
  | .ok g' => g'
  | .error _ => g

/-- The graph of the given cubes and the references between them; other names are left out. -/
def subgraph (g : Graph) (ids : List Text) (o : KeyOrder := .added) : Graph :=
  let known := ids.filterMap g.vertex?
  let bare := known.foldl (fun s v => s.addVertex v.id v.file) ({} : Graph)
  (o.arrange (bare.vertices.map Vertex.id)).foldl
    (fun s id =>
      ((g.uses.neighbours id).filter bare.has).foldl (fun s target => s.connect id target) s)
    bare

end Graph

end CubeSchema
