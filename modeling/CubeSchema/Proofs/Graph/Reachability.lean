import CubeSchema.Proofs.Graph.Bookkeeping
import Mathlib.Data.List.Chain
import Mathlib.Logic.Relation

/-!
# What can be reached in a graph

A search takes cubes from a queue until it is empty. Every turn uses up some of the work that is
left, so it ends after at most as many turns as there are references, and cubes in the queue at
first (`Search.finish_eq_iterate`). In between, all that has been met can be reached, and all that
is one step away from a visited cube has been met (`Search.Tracks`). In the end it is exactly what
can be reached that has been visited (`Search.mem_visited_finish`).

So a question for dependencies is a question for paths of references. A question for what is
affected goes along the same paths in reverse, because the two lists of a graph agree.
-/

namespace CubeSchema

/-- One cube stands in the list of another. -/
def Adjacency.Leads (next : Adjacency) (a b : Text) : Prop := b ∈ next.neighbours a

namespace Graph

open Relation

/-! ## Paths -/

/-- One cube refers to another. -/
def Uses (g : Graph) : Text → Text → Prop := g.uses.Leads

/-- One cube depends on another, through one or more references. -/
def DependsOn (g : Graph) : Text → Text → Prop := TransGen g.Uses

/-- A cube lies on a cycle: a path of references leads from it back to it. -/
def OnCycle (g : Graph) (id : Text) : Prop :=
  ∃ path : List Text, List.IsChain g.Uses (id :: (path ++ [id]))

/-- A cycle can be reached from a cube. -/
def MeetsCycle (g : Graph) (id : Text) : Prop := ∃ x, ReflTransGen g.Uses id x ∧ g.OnCycle x

theorem exists_isChain_iff {r : Text → Text → Prop} {a b : Text} :
    (∃ path : List Text, List.IsChain r (a :: (path ++ [b]))) ↔ TransGen r a b := by
  rw [TransGen.head'_iff]
  constructor
  · rintro ⟨path, hpath⟩
    cases path with
    | nil => exact ⟨b, (List.isChain_cons_cons.1 hpath).1, .refl⟩
    | cons c path =>
      obtain ⟨hac, hrest⟩ := List.isChain_cons_cons.1 hpath
      exact ⟨c, hac, List.relationReflTransGen_of_exists_isChain_cons (path ++ [b]) hrest (by simp)⟩
  · rintro ⟨c, hac, hcb⟩
    obtain ⟨path, hpath, hlast⟩ := List.exists_isChain_cons_of_relationReflTransGen hcb
    refine ⟨(c :: path).dropLast, ?_⟩
    rw [← hlast, List.dropLast_append_getLast]
    exact List.isChain_cons_cons.2 ⟨hac, hpath⟩

theorem onCycle_iff {g : Graph} {id : Text} : g.OnCycle id ↔ g.DependsOn id id :=
  exists_isChain_iff

/-- Only cubes of the graph depend on anything, and only on cubes of the graph. -/
theorem DependsOn.ends {g : Graph} (hg : g.Balanced) {a b : Text} (h : g.DependsOn a b) :
    g.has a = true ∧ g.has b = true := by
  obtain ⟨c, hac, -⟩ := TransGen.head'_iff.1 h
  obtain ⟨d, -, hdb⟩ := TransGen.tail'_iff.1 h
  exact ⟨(hg.ends hac).1, (hg.ends hdb).2⟩

/-! ## Searches -/

namespace Search

variable {next : Adjacency} {ids : List Text} {s : Search}

/-- What holds all along a search that begins at some cubes. -/
structure Tracks (next : Adjacency) (ids : List Text) (s : Search) : Prop where
  /-- No cube is visited twice. -/
  nodup : s.visited.Nodup
  /-- Whatever has been met can be reached. -/
  sound {x : Text} (h : x ∈ s.visited ∨ x ∈ s.queue) : ∃ id ∈ ids, TransGen next.Leads id x
  /-- Whatever is one step away from the beginning or from a visited cube has been met. -/
  closed {a x : Text} (ha : a ∈ ids ∨ a ∈ s.visited) (h : next.Leads a x) :
    x ∈ s.visited ∨ x ∈ s.queue

theorem tracks_start (next : Adjacency) (ids : List Text) : Tracks next ids (start next ids) where
  nodup := List.nodup_nil
  sound h := by
    obtain ⟨id, hid, hx⟩ := List.mem_flatMap.1 (h.resolve_left List.not_mem_nil)
    exact ⟨id, hid, .single hx⟩
  closed ha h := .inr (List.mem_flatMap.2 ⟨_, ha.resolve_right List.not_mem_nil, h⟩)

theorem Tracks.turn (h : Tracks next ids s) : Tracks next ids (s.turn next) := by
  obtain ⟨visited, queue⟩ := s
  cases queue with
  | nil => exact h
  | cons id queue =>
    simp only [Search.turn, List.contains_iff_mem]
    split
    · -- The cube has been visited before, so nothing is lost when it leaves the queue.
      rename_i hid
      refine ⟨h.nodup, fun hx => h.sound (hx.imp_right (List.mem_cons_of_mem id)), ?_⟩
      intro a x ha hax
      obtain hx | hx := h.closed ha hax
      · exact .inl hx
      · obtain rfl | hx := List.mem_cons.1 hx
        · exact .inl hid
        · exact .inr hx
    · rename_i hid
      obtain ⟨start, hstart, hreach⟩ := h.sound (.inr (List.mem_cons_self ..))
      refine ⟨nodup_snoc h.nodup hid, ?_, ?_⟩
      · intro x hx
        simp only [List.mem_append, List.mem_singleton] at hx
        obtain (hx | rfl) | hx | hx := hx
        · exact h.sound (.inl hx)
        · exact ⟨start, hstart, hreach⟩
        · exact h.sound (.inr (List.mem_cons_of_mem _ hx))
        · exact ⟨start, hstart, hreach.tail hx⟩
      · intro a x ha hax
        simp only [List.mem_append, List.mem_singleton] at ha ⊢
        -- What has been met before is still met: the cube at the front is visited now.
        have hkeep (hx : x ∈ visited ∨ x ∈ id :: queue) :
            (x ∈ visited ∨ x = id) ∨ x ∈ queue ∨ x ∈ next.neighbours id := by
          obtain hx | hx := hx
          · exact .inl (.inl hx)
          · exact (List.mem_cons.1 hx).imp .inr .inl
        obtain ha | ha | rfl := ha
        · exact hkeep (h.closed (.inl ha) hax)
        · exact hkeep (h.closed (.inr ha) hax)
        · exact .inr (.inr hax)

theorem Tracks.finish (h : Tracks next ids s) : Tracks next ids (s.finish next) := by
  induction s using Search.finish.induct next with
  | case1 s hqueue =>
    rw [Search.finish, dif_pos hqueue]
    exact h
  | case2 s hqueue ih =>
    rw [Search.finish, dif_neg hqueue]
    exact ih h.turn

theorem queue_finish (next : Adjacency) (s : Search) : (s.finish next).queue = [] := by
  induction s using Search.finish.induct next with
  | case1 s hqueue => rw [Search.finish, dif_pos hqueue, hqueue]
  | case2 s hqueue ih => rw [Search.finish, dif_neg hqueue, ih]

/-- A search visits exactly what can be reached by one or more steps. -/
theorem mem_visited_finish {x : Text} :
    x ∈ ((start next ids).finish next).visited ↔ ∃ id ∈ ids, TransGen next.Leads id x := by
  have htracks := (tracks_start next ids).finish
  have hqueue := queue_finish next (start next ids)
  generalize (start next ids).finish next = s at htracks hqueue
  refine ⟨fun hx => htracks.sound (.inl hx), ?_⟩
  rintro ⟨id, hid, hpath⟩
  -- Along the path everything has been visited, since nothing is left in the queue.
  have hvisited {a x : Text} (ha : a ∈ ids ∨ a ∈ s.visited) (h : next.Leads a x) :
      x ∈ s.visited :=
    (htracks.closed ha h).resolve_right (hqueue ▸ List.not_mem_nil)
  induction hpath with
  | single h => exact hvisited (.inl hid) h
  | tail _ h ih => exact hvisited (.inr ih) h

/-- A search has come to its end after as many turns as it has work. -/
theorem finish_eq_iterate (next : Adjacency) {n : Nat} {s : Search} (h : s.work next ≤ n) :
    s.finish next = (Search.turn next)^[n] s := by
  by_cases hqueue : s.queue = []
  · have hturn : s.turn next = s := by rw [Search.turn, hqueue]
    rw [Search.finish, dif_pos hqueue, Function.iterate_fixed hturn]
  · have hless := work_turn_lt next hqueue
    cases n with
    | zero => omega
    | succ n =>
      rw [Search.finish, dif_neg hqueue, Function.iterate_succ_apply]
      exact finish_eq_iterate next (by omega)

theorem work_start (next : Adjacency) (ids : List Text) :
    (start next ids).work next = (ids.flatMap next.neighbours).length + next.total := by
  simp [work, start, unseen]

end Search

theorem mem_reach {next : Adjacency} {ids : List Text} {o : KeyOrder} {x : Text} :
    x ∈ reach next ids o ↔ ∃ id ∈ ids, TransGen next.Leads id x := by
  rw [reach, Text.mem_sort, (o.perm _).mem_iff, Search.mem_visited_finish]

theorem strict_reach (next : Adjacency) (ids : List Text) (o : KeyOrder) :
    (reach next ids o).Pairwise (· < ·) :=
  Text.strict_sort ((o.perm _).nodup_iff.2 (Search.tracks_start next ids).finish.nodup)

/-! ## What depends on what -/

theorem mem_dependencies {g : Graph} {id x : Text} {o : KeyOrder} :
    x ∈ g.dependencies id o ↔ g.DependsOn id x := by
  simp only [dependencies, mem_reach, List.mem_singleton, exists_eq_left]
  rfl

theorem mem_affected {g : Graph} (hg : g.Coherent) {changed : List Text} {x : Text} {o : KeyOrder} :
    x ∈ g.affected changed o ↔ ∃ id ∈ changed, g.DependsOn x id := by
  have hswap : g.usedBy.Leads = Function.swap g.Uses := by
    funext a b
    exact propext (hg.agree b a)
  simp only [affected, mem_reach, hswap, transGen_swap]
  rfl

/-- Every search comes to its end, after at most as many turns as there are references, and cubes to
begin with. The dependencies of a cube are, in a strict order, the cubes that it depends on, and it
is among them exactly if it lies on a cycle. A cube is affected by changes exactly if one of its
dependencies has changed. -/
theorem reachable_after (calls : List Call) :
    (∀ next ∈ [(after calls).uses, (after calls).usedBy], ∀ ids n,
      (ids.flatMap next.neighbours).length + (after calls).edgeCount ≤ n →
        (Search.start next ids).finish next = (Search.turn next)^[n] (Search.start next ids) ∧
        ((Search.turn next)^[n] (Search.start next ids)).queue = []) ∧
    (∀ id o, ((after calls).dependencies id o).Pairwise (· < ·) ∧
      (∀ x, x ∈ (after calls).dependencies id o ↔
        (after calls).has x = true ∧ (after calls).DependsOn id x) ∧
      (id ∈ (after calls).dependencies id o ↔ (after calls).OnCycle id)) ∧
    ∀ changed o, ((after calls).affected changed o).Pairwise (· < ·) ∧
      ∀ x o', x ∈ (after calls).affected changed o ↔
        ∃ id ∈ changed, id ∈ (after calls).dependencies x o' := by
  have hbalanced := balanced_after calls
  refine ⟨fun next hnext ids n hn => ?_, fun id o => ⟨?_, fun x => ?_, ?_⟩,
    fun changed o => ⟨?_, ?_⟩⟩
  · have htotal : next.total = (after calls).edgeCount := by
      obtain rfl | rfl : next = _ ∨ next = _ := by simpa using hnext
      · exact hbalanced.total_uses.symm
      · exact hbalanced.total_usedBy.symm
    have hfinish := Search.finish_eq_iterate next (s := Search.start next ids) (n := n)
      (by rw [Search.work_start, htotal]; exact hn)
    exact ⟨hfinish, hfinish ▸ Search.queue_finish next _⟩
  · exact strict_reach ..
  · rw [mem_dependencies]
    exact ⟨fun h => ⟨(h.ends hbalanced).2, h⟩, And.right⟩
  · rw [mem_dependencies, onCycle_iff]
  · exact strict_reach ..
  · intro x o'
    simp only [mem_affected hbalanced.toCoherent, mem_dependencies]

end Graph

end CubeSchema
