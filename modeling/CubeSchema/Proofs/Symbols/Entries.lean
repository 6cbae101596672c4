import CubeSchema.Proofs.Symbols.Registration
import Mathlib.Data.List.TakeWhile

/-!
# The entry that a sequence of registrations makes

Cubes may be registered in any order, by manifests and by schemas. The entry of a name goes back to
one registration of that name: the first one that no manifest makes, or the first one of all when
manifests make them all. What was registered before it is gone, and what is registered behind it is
merged in. `entry_of_registrations` says this for every sequence and every name; one step of such a
sequence is `cube?_register`.
-/

namespace CubeSchema

namespace Cube

/-! ## Members as a table -/

theorem lookup_filter_ne (ms : List (Text × MemberType)) (removed name : Text) :
    (ms.filter fun m => m.1 ≠ removed).lookup name =
      if name = removed then none else ms.lookup name := by
  induction ms with
  | nil => simp
  | cons m ms ih =>
    by_cases hm : m.1 = removed
    · rw [List.filter_cons_of_neg (by simpa using hm), ih, List.lookup_cons]
      by_cases hname : name = removed
      · rw [if_pos hname, if_pos hname]
      · have hne : (name == m.1) = false := by simpa [hm] using hname
        simp only [hname, if_false, hne]
    · rw [List.filter_cons_of_pos (by simpa using hm), List.lookup_cons, ih, List.lookup_cons]
      by_cases hname : name = m.1
      · simp [hname, hm]
      · have hne : (name == m.1) = false := by simpa using hname
        simp only [hne]

theorem member?_addMember (c : Cube) (added : Text) (type : MemberType) (name : Text) :
    (c.addMember added type).member? name =
      if name = added then some type else c.member? name := by
  unfold member? addMember
  rw [List.lookup_append, lookup_filter_ne]
  by_cases hname : name = added
  · simp [hname]
  · have hne : (name == added) = false := by simpa using hname
    simp [hname, List.lookup_cons, hne]

/-- A member that is added has the type with which it is added, and other members keep theirs. -/
theorem member?_addMembers {ms : List (Text × MemberType)} (h : (ms.map Prod.fst).Nodup) (c : Cube)
    (name : Text) : (c.addMembers ms).member? name = (ms.lookup name).or (c.member? name) := by
  unfold addMembers
  induction ms generalizing c with
  | nil => rfl
  | cons m ms ih =>
    rw [List.map_cons, List.nodup_cons] at h
    rw [List.foldl_cons, ih h.2, member?_addMember, List.lookup_cons]
    by_cases hname : name = m.1
    · -- No later member of the list has this name.
      have hnone : ms.lookup m.1 = none := by
        rw [← Option.not_isSome_iff_eq_none]
        exact fun hsome => h.1 ((hasMember_iff (c := { c with members := ms })).1 hsome)
      simp [hname, hnone]
    · have hne : (name == m.1) = false := by simpa using hname
      simp [hname, hne]

theorem nodup_addMembers {c : Cube} (h : (c.members.map Prod.fst).Nodup)
    (ms : List (Text × MemberType)) : ((c.addMembers ms).members.map Prod.fst).Nodup := by
  unfold addMembers
  induction ms generalizing c with
  | nil => exact h
  | cons m ms ih =>
    refine ih ?_
    unfold addMember
    rw [List.map_append]
    refine List.nodup_append.2 ⟨(List.filter_sublist.map _).nodup h, by simp, ?_⟩
    rintro a ha b hb rfl
    obtain ⟨k, hk, rfl⟩ := List.mem_map.1 ha
    have hne : k.1 ≠ m.1 := by simpa using (List.mem_filter.1 hk).2
    exact hne (by simpa using hb)

end Cube

namespace SymbolTable

/-! ## Merging a list of cubes -/

theorem isView_foldl_merge {c : Cube} {cs : List Cube} :
    (cs.foldl merge c).isView = true ↔ ∃ d ∈ c :: cs, d.isView = true := by
  induction cs generalizing c with
  | nil => simp
  | cons d cs ih =>
    have hstep : (merge c d).isView = true ↔ c.isView = true ∨ d.isView = true :=
      Bool.or_eq_true_iff
    rw [List.foldl_cons, ih]
    simp only [List.mem_cons, exists_eq_or_imp, hstep, or_assoc]

theorem nodup_foldl_merge {c : Cube} (h : (c.members.map Prod.fst).Nodup) (cs : List Cube) :
    ((cs.foldl merge c).members.map Prod.fst).Nodup := by
  induction cs generalizing c with
  | nil => exact h
  | cons d cs ih => exact ih (Cube.nodup_addMembers h d.members)

/-- The last cube that has a member decides its type. -/
theorem member?_foldl_merge {c : Cube} {cs : List Cube}
    (h : ∀ d ∈ cs, (d.members.map Prod.fst).Nodup) (name : Text) :
    (cs.foldl merge c).member? name = (c :: cs).reverse.findSome? (·.member? name) := by
  induction cs generalizing c with
  | nil => simp
  | cons d cs ih =>
    have hstep : (merge c d).member? name = (d.member? name).or (c.member? name) :=
      Cube.member?_addMembers (h d (List.mem_cons_self ..)) c name
    rw [List.foldl_cons, ih fun e he => h e (List.mem_cons_of_mem _ he)]
    simp only [List.reverse_cons, List.findSome?_append, List.findSome?_singleton, hstep,
      Option.or_assoc]

@[simp] theorem external_foldl_merge (c : Cube) (cs : List Cube) :
    (cs.foldl merge c).external = c.external := by
  induction cs generalizing c with
  | nil => rfl
  | cons d cs ih => rw [List.foldl_cons, ih, external_merge]

@[simp] theorem name_foldl_merge (c : Cube) (cs : List Cube) :
    (cs.foldl merge c).name = c.name := by
  induction cs generalizing c with
  | nil => rfl
  | cons d cs ih => rw [List.foldl_cons, ih, name_merge]

/-! ## The registration that makes the entry -/

/-- A registration of a name, given those before and those behind it, is the one that the entry
goes back to: the first one that no manifest makes, or the first one of all if manifests make them
all. -/
def Founds (front : List Cube) (i : Cube) (back : List Cube) : Prop :=
  (i.external = false ∧ ∀ c ∈ front, c.external = true) ∨
    (front = [] ∧ ∀ c ∈ i :: back, c.external = true)

/-- Among registrations one founds the entry. -/
theorem exists_founds {cs : List Cube} (h : cs ≠ []) :
    ∃ front i back, cs = front ++ i :: back ∧ Founds front i back := by
  by_cases hall : ∀ c ∈ cs, c.external = true
  · obtain ⟨i, back, rfl⟩ := List.exists_cons_of_ne_nil h
    exact ⟨[], i, back, rfl, .inr ⟨rfl, hall⟩⟩
  · -- The manifests in front of the first schema.
    cases hback : cs.dropWhile Cube.external with
    | nil => exact absurd (List.dropWhile_eq_nil_iff.1 hback) hall
    | cons i back =>
      have hi : i.external = false := by
        have hhead := List.head?_dropWhile_not Cube.external cs
        rw [hback] at hhead
        simpa using hhead
      refine ⟨cs.takeWhile Cube.external, i, back, ?_, .inl ⟨hi, fun c hc => ?_⟩⟩
      · rw [← hback, List.takeWhile_append_dropWhile]
      · exact List.mem_takeWhile_imp hc

/-- Registrations are merged from the founding one on. -/
theorem foldl_joined_founds {front back : List Cube} {i : Cube} (h : Founds front i back) :
    (front ++ i :: back).foldl joined none = some (back.foldl merge i) := by
  rcases h with ⟨hi, hfront⟩ | ⟨rfl, hall⟩
  · rw [List.foldl_append, foldl_joined_external hfront, List.foldl_cons,
      joined_mergedAll hfront hi, foldl_joined_some (.inl hi)]
  · rw [List.nil_append, foldl_joined_external hall, mergedAll]

/-- A table in which cubes have been registered has an entry for exactly the registered names. One
registration founds the entry: its file and its origin are those of the entry, which is a view if
that registration or one behind it is, and has the members of these, each with the type that the
last of them gives it. -/
theorem entry_of_registrations (cs : List Cube) (hcs : ∀ c ∈ cs, (c.members.map Prod.fst).Nodup)
    (name : Text) :
    (((registering {} cs).cube? name).isSome = true ↔ ∃ c ∈ cs, c.name = name) ∧
    ((∃ c ∈ cs, c.name = name) →
      ∃ front i back, named name cs = front ++ i :: back ∧ Founds front i back) ∧
    ∀ front i back, named name cs = front ++ i :: back → Founds front i back →
      ∃ e, (registering {} cs).cube? name = some e ∧ e.name = name ∧
        e.file = i.file ∧ e.external = i.external ∧
        (e.isView = true ↔ ∃ c ∈ i :: back, c.isView = true) ∧
        (e.members.map Prod.fst).Nodup ∧
        ∀ m, e.member? m = (i :: back).reverse.findSome? (·.member? m) := by
  have hentry : (registering {} cs).cube? name = (named name cs).foldl joined none :=
    cube?_registering {} cs name
  have hsome : ∀ front i back, named name cs = front ++ i :: back → Founds front i back →
      (registering {} cs).cube? name = some (back.foldl merge i) := by
    intro front i back hsplit hfounds
    rw [hentry, hsplit, foldl_joined_founds hfounds]
  have hfounded : (∃ c ∈ cs, c.name = name) →
      ∃ front i back, named name cs = front ++ i :: back ∧ Founds front i back :=
    fun ⟨_, hc, hname⟩ => exists_founds (List.ne_nil_of_mem (mem_named.2 ⟨hc, hname⟩))
  refine ⟨⟨fun h => ?_, fun h => ?_⟩, hfounded, fun front i back hsplit hfounds => ?_⟩
  · -- Without a registration of the name there is nothing to merge.
    cases hnamed : named name cs with
    | nil => simp [hentry, hnamed] at h
    | cons c _ => exact ⟨c, mem_named.1 (hnamed ▸ List.mem_cons_self ..)⟩
  · obtain ⟨front, i, back, hsplit, hfounds⟩ := hfounded h
    rw [hsome front i back hsplit hfounds, Option.isSome_some]
  · have hmem : ∀ c ∈ i :: back, c ∈ cs ∧ c.name = name := fun c hc =>
      mem_named.1 (hsplit ▸ List.mem_append_right _ hc)
    have hi := hmem i (List.mem_cons_self ..)
    exact ⟨back.foldl merge i, hsome front i back hsplit hfounds, by simp [hi.2], by simp, by simp,
      isView_foldl_merge, nodup_foldl_merge (hcs i hi.1) back, member?_foldl_merge fun d hd =>
        hcs d (hmem d (List.mem_cons_of_mem _ hd)).1⟩

/-- A cube that a manifest declares first, a schema as a view behind it, and a manifest again with
another type for one of its members. -/
def scatteredRegistrations : List Cube :=
  [{ name := lit "orders", file := lit "a.yaml", external := true,
     members := [(lit "total", .measure)] },
   { name := lit "users", file := lit "users.js" },
   { name := lit "orders", isView := true, file := lit "orders.js",
     members := [(lit "id", .dimension), (lit "day", .dimension)] },
   { name := lit "orders", file := lit "b.yaml", external := true,
     members := [(lit "day", .segment)] }]

/-- The schema founds the entry of the cube: what the first manifest says of it is gone, and what
the second one says is merged in. -/
theorem scatteredRegistrations_entry :
    (∀ c ∈ scatteredRegistrations, (c.members.map Prod.fst).Nodup) ∧
    ∃ e, (registering {} scatteredRegistrations).cube? (lit "orders") = some e ∧
      e.file = lit "orders.js" ∧ e.external = false ∧ e.isView = true ∧
      e.member? (lit "total") = none ∧ e.member? (lit "id") = some .dimension ∧
      e.member? (lit "day") = some .segment := by
  have hnodup : ∀ c ∈ scatteredRegistrations, (c.members.map Prod.fst).Nodup := by decide
  obtain ⟨e, he, -, hfile, hexternal, hview, -, hmember⟩ :=
    (entry_of_registrations scatteredRegistrations hnodup (lit "orders")).2.2
      (scatteredRegistrations.take 1) scatteredRegistrations[2] (scatteredRegistrations.drop 3)
      (by decide) (.inl (by decide))
  exact ⟨hnodup, e, he, hfile, hexternal, hview.2 (by decide), hmember _, hmember _, hmember _⟩

end SymbolTable

end CubeSchema
