import CubeSchema.Proofs.Graph.Reachability
import Mathlib.Data.Fintype.Card
import Mathlib.Data.List.Infix
import Mathlib.Data.Set.Finite.List
import Mathlib.Order.WellFounded

/-!
# The order of the cubes of a graph

The cubes are placed one by one, and counters tell which of them may come next. `OnTrack` ties the
counters, the list of the cubes that are ready and the cubes that are placed together; every turn
keeps it (`OnTrack.turn`). It also says why the order is the least one: an arrangement either begins
with what is placed already, or differs from it before that and is greater.

When no cube is ready any more, every cube that is left waits for another one that is left. There
are finitely many of them, so a cycle can be reached from each. From a placed cube none can, as it
stands behind all cubes that it uses.
-/

namespace CubeSchema

namespace Graph

open Relation

/-! ## Arrangements -/

/-- A list in which every cube stands behind the cubes that it uses. -/
def Settled (g : Graph) (l : List Text) : Prop :=
  ∀ ⦃front id⦄, front ++ [id] <+: l → ∀ ⦃used⦄, g.Uses id used → used ∈ front

/-- An order of the cubes from which no cycle can be reached, each behind the cubes that it uses. -/
structure Arranges (g : Graph) (l : List Text) : Prop where
  /-- Every cube stands in it once. -/
  nodup : l.Nodup
  /-- It has the cubes from which no cycle can be reached. -/
  mem_iff (id : Text) : id ∈ l ↔ g.has id = true ∧ ¬ g.MeetsCycle id
  /-- Every cube stands behind the cubes that it uses. -/
  settled : g.Settled l

theorem settled_nil (g : Graph) : g.Settled [] := fun front id h => by simp at h

theorem settled_snoc {g : Graph} {l : List Text} {id : Text} (hl : g.Settled l)
    (hid : ∀ used, g.Uses id used → used ∈ l) : g.Settled (l ++ [id]) := by
  intro front x h used hused
  obtain heq | hprefix := List.prefix_concat_iff.1 h
  · obtain ⟨rfl, hx⟩ := List.append_inj' heq rfl
    obtain rfl := List.singleton_inj.1 hx
    exact hid used hused
  · exact hl hprefix hused

/-- Where a cycle can be reached, the first step leads to a cube from which it can be reached. -/
theorem MeetsCycle.step {g : Graph} {id : Text} (h : g.MeetsCycle id) :
    ∃ used, g.Uses id used ∧ g.MeetsCycle used := by
  obtain ⟨x, hpath, hcycle⟩ := h
  obtain rfl | ⟨used, hused, hrest⟩ := hpath.cases_head
  · obtain ⟨used, hused, hback⟩ := TransGen.head'_iff.1 (onCycle_iff.1 hcycle)
    exact ⟨used, hused, id, hback, hcycle⟩
  · exact ⟨used, hused, x, hrest, hcycle⟩

/-- No cycle can be reached from a cube that stands behind all that it uses. -/
theorem Settled.not_meetsCycle {g : Graph} {l : List Text} (h : g.Settled l) {id : Text}
    (hid : id ∈ l) : ¬ g.MeetsCycle id := by
  -- By induction on the front that has been looked at: a cube uses nothing behind it.
  have hfront : ∀ front, front <+: l → ∀ id ∈ front, ¬ g.MeetsCycle id := by
    intro front
    induction front using List.reverseRecOn with
    | nil => simp
    | append_singleton front x ih =>
      intro hprefix id hid
      obtain hold | hx := List.mem_append.1 hid
      · exact ih ((List.prefix_append front [x]).trans hprefix) id hold
      · obtain rfl := List.mem_singleton.1 hx
        intro hmeets
        obtain ⟨used, hused, hstill⟩ := hmeets.step
        exact ih ((List.prefix_append front [id]).trans hprefix) used (h hprefix hused) hstill
  exact hfront l (List.prefix_refl l) id hid

/-- If each of finitely many cubes uses another one of them, a cycle can be reached from all. -/
theorem meetsCycle_of_stuck {g : Graph} {l : List Text} (h : ∀ a ∈ l, ∃ b ∈ l, g.Uses a b)
    {id : Text} (hid : id ∈ l) : g.MeetsCycle id := by
  by_contra hnone
  -- Without a cycle, what can be reached has a last cube, which uses no other of them.
  let reached : Set Text := {a | a ∈ l ∧ ReflTransGen g.Uses id a}
  let behind : reached → reached → Prop := fun a b => g.DependsOn b.1 a.1
  have : Finite reached := (l.finite_toSet.subset fun _ ha => ha.1).to_subtype
  have : IsTrans reached behind := ⟨fun a b c hba hcb => hcb.trans hba⟩
  have : Std.Irrefl behind := ⟨fun a ha => hnone ⟨a.1, a.2.2, onCycle_iff.2 ha⟩⟩
  obtain ⟨⟨a, hal, hpath⟩, -, hlast⟩ :=
    (Finite.wellFounded_of_trans_of_irrefl behind).has_min Set.univ ⟨⟨id, hid, .refl⟩, trivial⟩
  obtain ⟨b, hbl, hab⟩ := h a hal
  exact hlast ⟨b, hbl, hpath.tail hab⟩ trivial (.single hab)

/-! ## Counters -/

namespace Counts

theorem count_lower (c : Counts) (id x : Text) :
    (c.lower id).count x = if id = x then c.count x - 1 else c.count x := by
  induction c with
  | nil =>
    rw [lower, count_cons]
    rfl
  | cons entry c ih =>
    obtain ⟨key, n⟩ := entry
    rw [lower]
    by_cases hkey : key = id
    · subst hkey
      rw [if_pos rfl, count_cons, count_cons]
      split <;> rfl
    · rw [if_neg hkey, count_cons, count_cons, ih]
      by_cases hx : key = x
      · have hne : id ≠ x := fun h => hkey (hx.trans h.symm)
        rw [if_pos hx, if_pos hx, if_neg hne]
      · rw [if_neg hx, if_neg hx]

/-- A number that is there is changed in place. -/
theorem keys_lower {c : Counts} {id : Text} (h : id ∈ c.map Prod.fst) :
    (c.lower id).map Prod.fst = c.map Prod.fst := by
  induction c with
  | nil => exact absurd h List.not_mem_nil
  | cons entry c ih =>
    obtain ⟨key, n⟩ := entry
    rw [lower]
    by_cases hkey : key = id
    · rw [if_pos hkey]
      rfl
    · have hrest : id ∈ c.map Prod.fst :=
        (List.mem_cons.1 h).resolve_left fun heq => hkey heq.symm
      rw [if_neg hkey, List.map_cons, List.map_cons, ih hrest]

theorem keys_drop {c : Counts} (h : (c.map Prod.fst).Nodup) (id : Text) :
    (c.drop id).map Prod.fst = (c.map Prod.fst).erase id := by
  rw [h.erase_eq_filter, drop, List.filter_map]
  exact congrArg _ (List.filter_congr fun e _ => by by_cases he : e.1 = id <;> simp [he])

theorem count_drop (c : Counts) {id x : Text} (h : id ≠ x) : (c.drop id).count x = c.count x := by
  induction c with
  | nil => rfl
  | cons entry c ih =>
    obtain ⟨key, n⟩ := entry
    rw [drop, List.filter_cons]
    by_cases hkey : key = id
    · have hne : key ≠ x := fun hx => h (hkey.symm.trans hx)
      simp only [hkey, ne_eq, not_true_eq_false, decide_false, Bool.false_eq_true, if_false]
      rw [count_cons, if_neg h]
      exact ih
    · simp only [ne_eq, hkey, not_false_eq_true, decide_true, if_true]
      rw [count_cons, count_cons, ← ih, drop]

theorem count_map {f : Text → Int} {ids : List Text} {id : Text} (h : id ∈ ids) :
    count (ids.map fun x => (x, f x)) id = f id := by
  induction ids with
  | nil => exact absurd h List.not_mem_nil
  | cons x ids ih =>
    rw [List.map_cons, count_cons]
    split
    · rename_i heq
      rw [heq]
    · rename_i hne
      exact ih ((List.mem_cons.1 h).resolve_left fun heq => hne heq.symm)

end Counts

/-! ## Releasing -/

namespace Countdown

/-- What releasing some cubes does. -/
structure Released (ids : List Text) (s s' : Countdown) : Prop where
  /-- No cube is placed. -/
  placed : s'.placed = s.placed
  /-- The same cubes are pending. -/
  keys : s'.pending.map Prod.fst = s.pending.map Prod.fst
  /-- The cubes wait for one less. -/
  count (x : Text) : s'.pending.count x = s.pending.count x - if x ∈ ids then 1 else 0
  /-- Those that waited for one are ready. -/
  ready : s'.ready = s.ready ++ ids.filter fun id => s.pending.count id = 1

theorem released_foldl {ids : List Text} (hids : ids.Nodup) {s : Countdown}
    (hpending : ∀ id ∈ ids, id ∈ s.pending.map Prod.fst) :
    Released ids s (ids.foldl release s) := by
  induction ids generalizing s with
  | nil => constructor <;> simp
  | cons id ids ih =>
    obtain ⟨hnew, hids⟩ := List.nodup_cons.1 hids
    have hkeys : (s.release id).pending.map Prod.fst = s.pending.map Prod.fst :=
      Counts.keys_lower (hpending id (List.mem_cons_self ..))
    have hcount : ∀ x, (s.release id).pending.count x =
        if id = x then s.pending.count x - 1 else s.pending.count x :=
      s.pending.count_lower id
    have hrest := ih hids (s := s.release id) fun x hx =>
      hkeys ▸ hpending x (List.mem_cons_of_mem id hx)
    rw [List.foldl_cons]
    refine ⟨hrest.placed, hrest.keys.trans hkeys, fun x => ?_, ?_⟩
    · rw [hrest.count, hcount]
      by_cases hx : id = x
      · subst hx
        simp [hnew]
      · have hne : x ≠ id := fun h => hx h.symm
        simp [hx, hne]
    · -- The counters of the other cubes are not touched by the first release.
      have hothers : (ids.filter fun x => (s.release id).pending.count x = 1) =
          ids.filter fun x => s.pending.count x = 1 :=
        List.filter_congr fun x hx => by
          have hne : id ≠ x := fun h => hnew (h ▸ hx)
          rw [hcount, if_neg hne]
      have hfirst : (s.release id).ready =
          if s.pending.count id = 1 then s.ready ++ [id] else s.ready := by
        simp only [release, s.pending.count_lower, if_true]
        by_cases h : s.pending.count id = 1
        · simp [h]
        · have hne : s.pending.count id - 1 ≠ 0 := by omega
          simp [h, hne]
      rw [hrest.ready, hothers, hfirst, List.filter_cons]
      by_cases h : s.pending.count id = 1 <;> simp [h]

/-! ## One turn -/

/-- When a cube is placed, those that use it have one less to wait for. -/
theorem length_filter_unplaced {used placed : List Text} (hused : used.Nodup) {id : Text}
    (hid : id ∉ placed) : (used.filter fun x => x ∉ placed).length =
      (used.filter fun x => x ∉ placed ++ [id]).length + if id ∈ used then 1 else 0 := by
  have herase : (used.filter fun x => x ∉ placed ++ [id]) =
      (used.filter fun x => x ∉ placed).erase id := by
    rw [(hused.filter _).erase_eq_filter, List.filter_filter]
    exact List.filter_congr fun x _ => by by_cases hx : x = id <;> simp [hx]
  have hmem : id ∈ (used.filter fun x => x ∉ placed) ↔ id ∈ used := by simp [hid]
  rw [herase]
  by_cases h : id ∈ used
  · have hpos := List.length_pos_of_mem (hmem.2 h)
    rw [List.length_erase_of_mem (hmem.2 h), if_pos h]
    omega
  · rw [List.erase_of_not_mem (mt hmem.1 h), if_neg h, Nat.add_zero]

/-- What holds all along while the cubes of a graph are placed. -/
structure OnTrack (g : Graph) (s : Countdown) : Prop where
  /-- Every cube is either placed or pending. -/
  perm : (s.placed ++ s.pending.map Prod.fst).Perm (g.vertices.map Vertex.id)
  /-- A pending cube waits for the cubes that it uses and that are not placed. -/
  count {id : Text} (h : id ∈ s.pending.map Prod.fst) : s.pending.count id =
    ((g.uses.neighbours id).filter fun used => used ∉ s.placed).length
  /-- No cube is ready twice. -/
  nodup_ready : s.ready.Nodup
  /-- The pending cubes that wait for no other are ready. -/
  mem_ready (id : Text) :
    id ∈ s.ready ↔ id ∈ s.pending.map Prod.fst ∧ s.pending.count id = 0
  /-- The placed cubes stand behind the cubes that they use. -/
  settled : g.Settled s.placed
  /-- An arrangement begins with what is placed, or it is greater. -/
  least {l : List Text} (h : g.Arranges l) : s.placed <+: l ∨ ∀ more, s.placed ++ more < l

namespace OnTrack

variable {g : Graph} {s : Countdown}

theorem nodup (hg : g.Balanced) (h : OnTrack g s) :
    s.placed.Nodup ∧ (s.pending.map Prod.fst).Nodup ∧
      ∀ id ∈ s.placed, id ∉ s.pending.map Prod.fst := by
  obtain ⟨hplaced, hpending, hapart⟩ :=
    List.nodup_append.1 (h.perm.nodup_iff.2 hg.vertices)
  exact ⟨hplaced, hpending, fun id hid hid' => hapart id hid id hid' rfl⟩

theorem has_iff (h : OnTrack g s) {id : Text} :
    g.has id = true ↔ id ∈ s.placed ∨ id ∈ s.pending.map Prod.fst := by
  rw [Graph.has_iff, ← h.perm.mem_iff, List.mem_append]

/-- A cube is ready when it is pending and all that it uses is placed. -/
theorem mem_ready_iff (h : OnTrack g s) {id : Text} : id ∈ s.ready ↔
    id ∈ s.pending.map Prod.fst ∧ ∀ used, g.Uses id used → used ∈ s.placed := by
  rw [h.mem_ready]
  refine and_congr_right fun hid => ?_
  rw [h.count hid, Int.natCast_eq_zero, List.length_eq_zero_iff, List.filter_eq_nil_iff]
  simp only [decide_eq_true_eq, not_not]
  rfl

theorem start (hg : g.Balanced) (o : KeyOrder) :
    OnTrack g (Countdown.start g.uses (o.arrange (g.vertices.map Vertex.id))) := by
  have hperm := o.perm (g.vertices.map Vertex.id)
  generalize o.arrange (g.vertices.map Vertex.id) = ids at hperm
  have hkeys : (Countdown.start g.uses ids).pending.map Prod.fst = ids := by
    simp [Countdown.start, Function.comp_def]
  have hcount {id : Text} (h : id ∈ ids) : (Countdown.start g.uses ids).pending.count id =
      ((g.uses.neighbours id).length : Int) :=
    Counts.count_map h
  refine ⟨?_, fun {id} hid => ?_, ?_, fun id => ?_, g.settled_nil, fun {l} _ => ?_⟩
  · rw [hkeys]
    exact hperm
  · rw [hkeys] at hid
    rw [hcount hid]
    simp [Countdown.start]
  · exact (hperm.nodup_iff.2 hg.vertices).filter _
  · rw [hkeys, Countdown.start, List.mem_filter]
    refine and_congr_right fun hid => ?_
    rw [← Countdown.start, hcount hid]
    simp
  · exact .inl (List.nil_prefix)

/-- The first cube that is ready can be placed: it is settled behind the others, and no arrangement
that begins like them goes on with a lesser one. -/
theorem place (hg : g.Balanced) (h : OnTrack g s) {id : Text} (hid : id ∈ s.ready)
    (hfirst : ∀ x ∈ s.ready, id ≤ x) :
    g.Settled (s.placed ++ [id]) ∧
      ∀ {l}, g.Arranges l → s.placed ++ [id] <+: l ∨ ∀ more, s.placed ++ [id] ++ more < l := by
  obtain ⟨hpending, hused⟩ := h.mem_ready_iff.1 hid
  have hsettled := settled_snoc h.settled hused
  refine ⟨hsettled, fun {l} hl => ?_⟩
  obtain ⟨rest, rfl⟩ | hless := h.least hl
  · have hmem : id ∈ s.placed ++ rest := (hl.mem_iff id).2
      ⟨h.has_iff.2 (.inr hpending), hsettled.not_meetsCycle (by simp)⟩
    have hnew : id ∉ s.placed := fun hold => (h.nodup hg).2.2 id hold hpending
    cases rest with
    | nil => exact absurd (by simpa using hmem) hnew
    | cons x rest =>
      by_cases hx : x = id
      · subst hx
        exact .inl ⟨rest, by simp⟩
      · -- The arrangement goes on with another cube, which then is ready as well.
        have hxready : x ∈ s.ready := by
          have hxnew : x ∉ s.placed := fun hold =>
            (List.nodup_append.1 hl.nodup).2.2 x hold x (List.mem_cons_self ..) rfl
          have hxhas : g.has x = true := ((hl.mem_iff x).1 (by simp)).1
          exact h.mem_ready_iff.2 ⟨(h.has_iff.1 hxhas).resolve_left hxnew,
            hl.settled ⟨rest, by simp⟩⟩
        have hlt : id < x := Std.lt_of_le_of_ne (hfirst x hxready) fun heq => hx heq.symm
        refine .inr fun more => ?_
        rw [List.append_assoc]
        exact List.append_left_lt (List.cons_lt_cons_iff.2 (.inl hlt))
  · exact .inr fun more => by
      rw [List.append_assoc]
      exact hless ([id] ++ more)

/-- What uses a pending cube is pending too: it cannot have been placed before. -/
theorem pending_of_uses (hg : g.Balanced) (h : OnTrack g s) {id user : Text}
    (hid : id ∈ s.pending.map Prod.fst) (huses : g.Uses user id) :
    user ∈ s.pending.map Prod.fst := by
  refine (h.has_iff.1 (hg.ends huses).1).resolve_left fun hold => ?_
  obtain ⟨front, back, hplaced⟩ := List.append_of_mem hold
  have hprefix : front ++ [user] <+: s.placed := ⟨back, by simp [hplaced]⟩
  have hfront := h.settled hprefix huses
  exact (h.nodup hg).2.2 id (hplaced ▸ List.mem_append_left _ hfront) hid

/-- What one turn does: it places the first cube that is ready, and the cubes that use it wait for
one less. -/
structure Turned (g : Graph) (s s' : Countdown) (id : Text) : Prop where
  /-- The cube was ready. -/
  ready : id ∈ s.ready
  /-- It was the first of those. -/
  first : ∀ x ∈ s.ready, id ≤ x
  /-- It stands behind the other placed cubes. -/
  placed : s'.placed = s.placed ++ [id]
  /-- It is not pending any more. -/
  keys : s'.pending.map Prod.fst = (s.pending.map Prod.fst).erase id
  /-- The cubes that use it wait for one less. -/
  count {x : Text} (h : x ∈ s'.pending.map Prod.fst) : s'.pending.count x =
    s.pending.count x - if id ∈ g.uses.neighbours x then 1 else 0
  /-- No cube is ready twice. -/
  nodup_ready : s'.ready.Nodup
  /-- The other cubes that were ready still are, and those that waited for this one only are now. -/
  mem_ready (x : Text) : x ∈ s'.ready ↔
    (x ≠ id ∧ x ∈ s.ready) ∨ (x ∈ g.usedBy.neighbours id ∧ s.pending.count x = 1)

theorem exists_turned (hg : g.Balanced) (h : OnTrack g s) (hready : s.ready ≠ []) :
    ∃ id, Turned g s (s.turn g.usedBy) id := by
  obtain ⟨id, ready, hsort⟩ : ∃ id ready, Text.sort s.ready = id :: ready :=
    List.exists_cons_of_ne_nil fun hnil => hready (hnil ▸ Text.perm_sort s.ready).nil_eq.symm
  have hperm : (id :: ready).Perm s.ready := hsort ▸ Text.perm_sort s.ready
  obtain ⟨hidready, hnodupready⟩ := List.nodup_cons.1 (hperm.nodup_iff.2 h.nodup_ready)
  have hmemready (x : Text) : x ∈ s.ready ↔ x = id ∨ x ∈ ready := by
    rw [← hperm.mem_iff, List.mem_cons]
  have hid : id ∈ s.ready := (hmemready id).2 (.inl rfl)
  have hpending := (h.nodup hg).2.1
  have hkeys := Counts.keys_drop hpending id
  -- The cubes that use this one have counters, so these are lowered in place.
  have huser {x : Text} (hx : x ∈ g.usedBy.neighbours id) :
      id ≠ x ∧ x ∈ (s.pending.drop id).map Prod.fst := by
    have huses : g.Uses x id := (hg.agree x id).1 hx
    have hne : x ≠ id := fun heq => hg.irrefl id (heq ▸ huses)
    refine ⟨hne.symm, ?_⟩
    rw [hkeys, hpending.mem_erase_iff]
    exact ⟨hne, h.pending_of_uses hg ((h.mem_ready id).1 hid).1 huses⟩
  have hreleased := released_foldl (hg.usedBy id)
    (s := ⟨s.pending.drop id, ready, s.placed ++ [id]⟩) fun x hx => (huser hx).2
  have hturn : s.turn g.usedBy = (g.usedBy.neighbours id).foldl release
      ⟨s.pending.drop id, ready, s.placed ++ [id]⟩ := by
    rw [Countdown.turn, hsort]
  rw [← hturn] at hreleased
  have hnewly (x : Text) : x ∈ ((g.usedBy.neighbours id).filter fun x =>
      (s.pending.drop id).count x = 1) ↔
        x ∈ g.usedBy.neighbours id ∧ s.pending.count x = 1 := by
    rw [List.mem_filter, decide_eq_true_eq]
    exact and_congr_right fun hx => by rw [Counts.count_drop _ (huser hx).1]
  refine ⟨id, hid, Text.le_of_sort_eq_cons hsort, hreleased.placed, hreleased.keys.trans hkeys,
    ?_, ?_, fun x => ?_⟩
  · intro x hx
    rw [hreleased.keys, hkeys, hpending.mem_erase_iff] at hx
    rw [hreleased.count, Counts.count_drop _ hx.1.symm]
    simp only [hg.agree]
  · rw [hreleased.ready]
    refine List.nodup_append.2 ⟨hnodupready, (hg.usedBy id).filter _, ?_⟩
    rintro x hx y hy rfl
    have hzero := ((h.mem_ready x).1 ((hmemready x).2 (.inr hx))).2
    have hone := ((hnewly x).1 hy).2
    omega
  · rw [hreleased.ready, List.mem_append, hnewly, hmemready]
    refine or_congr_left ⟨fun hx => ⟨fun heq => hidready (heq ▸ hx), .inr hx⟩, ?_⟩
    exact fun hx => hx.2.resolve_left hx.1

theorem turn (hg : g.Balanced) (h : OnTrack g s) (hready : s.ready ≠ []) :
    OnTrack g (s.turn g.usedBy) := by
  obtain ⟨id, hturned⟩ := h.exists_turned hg hready
  generalize s.turn g.usedBy = s' at hturned
  obtain ⟨hsettled, hleast⟩ := h.place hg hturned.ready hturned.first
  have hid := (h.mem_ready id).1 hturned.ready
  have hpending := (h.nodup hg).2.1
  have hnew : id ∉ s.placed := fun hold => (h.nodup hg).2.2 id hold hid.1
  have hkeys {x : Text} : x ∈ s'.pending.map Prod.fst ↔ x ≠ id ∧ x ∈ s.pending.map Prod.fst := by
    rw [hturned.keys, hpending.mem_erase_iff]
  refine ⟨?_, fun {x} hx => ?_, hturned.nodup_ready, fun x => ?_, ?_, ?_⟩
  · -- The placed one goes from the pending cubes to the end of the placed ones.
    rw [hturned.placed, hturned.keys, List.append_assoc]
    exact ((List.perm_cons_erase hid.1).symm.append_left s.placed).trans h.perm
  · rw [hturned.count hx, h.count (hkeys.1 hx).2, hturned.placed,
      length_filter_unplaced (hg.uses x) hnew]
    split <;> simp
  · -- A counter is zero now if it was before, or if it was one and the cube uses the placed one.
    have hzero (hx : x ∈ s.ready) : id ∉ g.uses.neighbours x := fun hxid =>
      hnew ((h.mem_ready_iff.1 hx).2 id hxid)
    rw [hturned.mem_ready, hg.agree]
    constructor
    · rintro (⟨hne, hx⟩ | ⟨hxid, hone⟩)
      · have hxkeys := hkeys.2 ⟨hne, ((h.mem_ready x).1 hx).1⟩
        refine ⟨hxkeys, ?_⟩
        rw [hturned.count hxkeys, if_neg (hzero hx), ((h.mem_ready x).1 hx).2, Int.sub_zero]
      · have hne : x ≠ id := by
          rintro rfl
          exact hg.irrefl x hxid
        have hxkeys := hkeys.2 ⟨hne, h.pending_of_uses hg hid.1 hxid⟩
        refine ⟨hxkeys, ?_⟩
        rw [hturned.count hxkeys, hone, if_pos hxid, Int.sub_self]
    · rintro ⟨hxkeys, hnone⟩
      rw [hturned.count hxkeys] at hnone
      by_cases hxid : id ∈ g.uses.neighbours x
      · rw [if_pos hxid] at hnone
        exact .inr ⟨hxid, by omega⟩
      · rw [if_neg hxid, Int.sub_zero] at hnone
        exact .inl ⟨(hkeys.1 hxkeys).1, (h.mem_ready x).2 ⟨(hkeys.1 hxkeys).2, hnone⟩⟩
  · exact hturned.placed ▸ hsettled
  · exact hturned.placed ▸ hleast

theorem finish (hg : g.Balanced) (h : OnTrack g s) : OnTrack g (s.finish g.usedBy) := by
  induction s using Countdown.finish.induct g.usedBy with
  | case1 s hready =>
    rw [Countdown.finish, dif_pos hready]
    exact h
  | case2 s hready ih =>
    rw [Countdown.finish, dif_neg hready]
    exact ih (h.turn hg hready)

/-- When no cube is ready, those from which no cycle can be reached have been placed. -/
theorem arranges (hg : g.Balanced) (h : OnTrack g s) (hready : s.ready = []) :
    g.Arranges s.placed ∧
      ∀ id, id ∈ s.pending.map Prod.fst ↔ g.has id = true ∧ g.MeetsCycle id := by
  have hstuck : ∀ id ∈ s.pending.map Prod.fst, g.MeetsCycle id := fun id hid => by
    refine meetsCycle_of_stuck (fun a ha => ?_) hid
    -- A pending cube that is not ready uses one that is not placed, and this is pending as well.
    have hwaits : ¬ ∀ used, g.Uses a used → used ∈ s.placed := fun hused => by
      have := h.mem_ready_iff.2 ⟨ha, hused⟩
      rw [hready] at this
      exact List.not_mem_nil this
    push Not at hwaits
    obtain ⟨used, hused, hnew⟩ := hwaits
    exact ⟨used, (h.has_iff.1 (hg.ends hused).2).resolve_left hnew, hused⟩
  refine ⟨⟨(h.nodup hg).1, fun id => ⟨fun hid => ?_, fun hid => ?_⟩, h.settled⟩, fun id =>
    ⟨fun hid => ⟨h.has_iff.2 (.inr hid), hstuck id hid⟩, fun hid => ?_⟩⟩
  · exact ⟨h.has_iff.2 (.inl hid), h.settled.not_meetsCycle hid⟩
  · exact (h.has_iff.1 hid.1).resolve_right fun hpending => hid.2 (hstuck id hpending)
  · exact (h.has_iff.1 hid.1).resolve_left fun hplaced => h.settled.not_meetsCycle hplaced hid.2

end OnTrack

theorem ready_finish (usedBy : Adjacency) (s : Countdown) : (s.finish usedBy).ready = [] := by
  induction s using Countdown.finish.induct usedBy with
  | case1 s hready => rw [Countdown.finish, dif_pos hready, hready]
  | case2 s hready ih => rw [Countdown.finish, dif_neg hready, ih]

end Countdown

/-! ## The whole order -/

/-- The two parts of an order: the least arrangement, and behind it all cubes from which a cycle can
be reached. -/
structure Ordered (g : Graph) (first rest : List Text) : Prop where
  /-- The first part is an arrangement. -/
  arranges : g.Arranges first
  /-- There is no lesser one. -/
  least {l : List Text} (h : g.Arranges l) : first ≤ l
  /-- The other part has all other cubes. -/
  mem_rest (id : Text) : id ∈ rest ↔ g.has id = true ∧ g.MeetsCycle id
  /-- It is sorted. -/
  sorted : rest.Pairwise (· < ·)

theorem exists_ordered {g : Graph} (hg : g.Balanced) (o o' : KeyOrder) :
    ∃ first rest, g.order o o' = first ++ rest ∧ g.Ordered first rest := by
  have htrack := (Countdown.OnTrack.start hg o).finish hg
  have hready := Countdown.ready_finish g.usedBy
    (.start g.uses (o.arrange (g.vertices.map Vertex.id)))
  refine ⟨_, _, rfl, ?_⟩
  generalize (Countdown.start g.uses _).finish g.usedBy = s at htrack hready
  obtain ⟨harranges, hpending⟩ := htrack.arranges hg hready
  have hperm := o'.perm (s.pending.map Prod.fst)
  refine ⟨harranges, fun {l} hl => ?_, fun id => ?_, ?_⟩
  · obtain ⟨rest, rfl⟩ | hless := htrack.least hl
    · exact List.le_append_left
    · exact List.le_of_lt (by simpa using hless [])
  · rw [Text.mem_sort, hperm.mem_iff, hpending]
  · exact Text.strict_sort (hperm.nodup_iff.2 (htrack.nodup hg).2.1)

/-- The order has every cube of the graph once, in two parts. In the first are the cubes from which
no cycle can be reached; each stands behind all cubes that it uses, and of all such arrangements it
is the least. The others follow by name. -/
theorem order_after (calls : List Call) (o o' : KeyOrder) :
    ∃ first rest, (after calls).order o o' = first ++ rest ∧
      ((after calls).order o o').Nodup ∧
      (∀ id, id ∈ (after calls).order o o' ↔ (after calls).has id = true) ∧
      (∀ id, id ∈ first ↔ (after calls).has id = true ∧ ¬ (after calls).MeetsCycle id) ∧
      (∀ front id back, first = front ++ id :: back →
        ∀ used, (after calls).Uses id used → used ∈ front) ∧
      (∀ l, (after calls).Arranges l → first ≤ l) ∧
      rest.Pairwise (· < ·) := by
  obtain ⟨first, rest, horder, hordered⟩ := exists_ordered (balanced_after calls) o o'
  rw [horder]
  refine ⟨first, rest, rfl, ?_, fun id => ?_, hordered.arranges.mem_iff, ?_,
    fun l => hordered.least, hordered.sorted⟩
  · refine List.nodup_append.2
      ⟨hordered.arranges.nodup, Text.nodup_of_strict hordered.sorted, ?_⟩
    rintro id hfirst _ hrest rfl
    exact ((hordered.arranges.mem_iff id).1 hfirst).2 ((hordered.mem_rest id).1 hrest).2
  · rw [List.mem_append, hordered.arranges.mem_iff, hordered.mem_rest, ← and_or_left]
    exact and_iff_left (Classical.em _).symm
  · rintro front id back rfl used hused
    exact hordered.arranges.settled ⟨back, by simp⟩ hused

/-- Of two cubes that use each other, and one more that uses the first, none can be placed. -/
example : (after [.addVertex (lit "A") [], .addVertex (lit "B") [], .addVertex (lit "C") [],
    .addVertex (lit "D") [], .addEdge (lit "A") (lit "B"), .addEdge (lit "B") (lit "A"),
    .addEdge (lit "C") (lit "A")]).order = [lit "D", lit "A", lit "B", lit "C"] := by cbv

end Graph

end CubeSchema
