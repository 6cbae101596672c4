import CubeSchema.SchemaFile

/-!
# Trees as disks

On a disk that is a file tree there is no link, and whatever the disk is asked is answered as the
tree answers it: following a name ends where the walk through the tree ends, and a file is read with
the same content or the same failure.
-/

namespace CubeSchema

open FileTree

theorem eq_ok_of_toOption {ε α : Type} {x : Except ε α} {a : α} (h : x.toOption = some a) :
    x = .ok a := by
  cases x with
  | error e => cases h
  | ok b => exact congrArg _ (Option.some.inj h)

namespace Disk

/-- What a disk answers where a walk through a tree ends. -/
def ending : Except FileFault Stop → Except FileFault (Place × Item)
  | .ok (.found place e) => .ok (place, .plain e)
  | .ok (.vacant _) => .error .missing
  | .error f => .error f

@[simp] theorem at?_ofTree (t : FileTree) (p : Place) :
    (ofTree t).at? p = (t.at? p).map .plain := by
  rw [at?, FileTree.at?]
  split
  · rfl
  · rw [ofTree]
    generalize t.entries = l
    induction l with
    | nil => rfl
    | cons x l ih =>
      rw [List.map_cons, List.lookup_cons, List.lookup_cons, ih]
      split <;> rfl

variable {t : FileTree} {last : Bool}

theorem walkWith_ofTree
    {onLink : Place → Text → List Text → Except FileFault (Place × Item)} {place : Place}
    {cs : List Text} : (ofTree t).walkWith last onLink place cs = ending (t.walkFrom place cs) := by
  induction cs generalizing place with
  | nil =>
    rw [walkWith, FileTree.walkFrom, at?_ofTree]
    cases t.at? place <;> rfl
  | cons c rest ih =>
    unfold walkWith turn FileTree.walkFrom
    rw [at?_ofTree]
    cases hplace : t.at? place with
    | none => rfl
    | some e =>
      cases e with
      | file _ => rfl
      | database _ => rfl
      | directory =>
        by_cases hhere : c = Path.here
        · simp only [Option.map_some, if_pos hhere, ih]
        by_cases hup : c = Path.up
        · simp only [Option.map_some, if_neg hhere, if_pos hup, ih]
        by_cases hlength : c.length > maxComponent
        · simp only [Option.map_some, if_neg hhere, if_neg hup, if_pos hlength]
          rfl
        simp only [Option.map_some, if_neg hhere, if_neg hup, if_neg hlength, at?_ofTree]
        cases t.at? (place ++ [c]) with
        | none => cases rest <;> rfl
        | some e => cases rest <;> exact ih

/-- A closing slash asks for a directory. -/
theorem ending_walkFrom_here (place : Place) (cs : List Text) :
    ending (t.walkFrom place (cs ++ [Path.here])) =
      match t.walkFrom place cs with
      | .ok (.found q .directory) => .ok (q, .directory)
      | .ok (.found _ _) => .error .notDirectory
      | .ok (.vacant _) => .error .missing
      | .error f => .error f := by
  induction cs generalizing place with
  | nil =>
    rw [List.nil_append]
    unfold FileTree.walkFrom
    cases hplace : t.at? place with
    | none => rfl
    | some e =>
      cases e with
      | file _ => rfl
      | database _ => rfl
      | directory =>
        rw [if_pos rfl, FileTree.walkFrom, hplace]
        rfl
  | cons c rest ih =>
    rw [List.cons_append]
    unfold FileTree.walkFrom
    cases hplace : t.at? place with
    | none => rfl
    | some e =>
      cases e with
      | file _ => rfl
      | database _ => rfl
      | directory =>
        by_cases hhere : c = Path.here
        · simp only [if_pos hhere, ih]
        by_cases hup : c = Path.up
        · simp only [if_neg hhere, if_pos hup, ih]
        by_cases hlength : c.length > maxComponent
        · simp only [if_neg hhere, if_neg hup, if_pos hlength]
          rfl
        simp only [if_neg hhere, if_neg hup, if_neg hlength]
        cases hnext : t.at? (place ++ [c]) with
        | none => cases rest <;> rfl
        | some e =>
          have hstep := ih (place ++ [c])
          cases rest <;> exact hstep

/-- A name leads on a tree where the walk ends. -/
theorem follow_ofTree (cwd p : Text) : (ofTree t).follow last cwd p = ending (t.walk cwd p) := by
  have hlinks : ∀ place cs,
      (ofTree t).walkFrom last maxLinks place cs = ending (t.walkFrom place cs) := by
    intro place cs
    rw [maxLinks, walkFrom, walkWith_ofTree]
  unfold follow FileTree.walk FileTree.follow parts
  by_cases hempty : p.isEmpty = true
  · simp only [if_pos hempty]
    rfl
  by_cases hzero : List.contains p 0 = true
  · simp only [if_neg hempty, if_pos hzero]
    rfl
  by_cases hlength : p.length > maxName
  · simp only [if_neg hempty, if_neg hzero, if_pos hlength]
    rfl
  simp only [if_neg hempty, if_neg hzero, if_neg hlength, hlinks]
  by_cases hslash : wantsDirectory p = true
  · simp only [if_pos hslash, ending_walkFrom_here]
    cases t.walkFrom (origin cwd p) (Path.components p) with
    | error f => rfl
    | ok stop =>
      cases stop with
      | vacant q => rfl
      | found q e => cases e <;> rfl
  · simp only [if_neg hslash, List.append_nil]
    cases t.walkFrom (origin cwd p) (Path.components p) with
    | error f => rfl
    | ok stop =>
      cases stop with
      | vacant q => rfl
      | found q e => cases e <;> rfl

/-- A file of a tree is read as the tree has it. -/
theorem read_ofTree (t : FileTree) (cwd p : Text) : (ofTree t).read cwd p = t.read cwd p := by
  rw [Disk.read, follow_ofTree, FileTree.read, openFile, stat]
  cases t.walk cwd p with
  | error f => rfl
  | ok stop =>
    cases stop with
    | vacant q => rfl
    | found q e => cases e <;> rfl

end Disk

namespace SchemaFile

/-! ## What is loaded -/

/-- Everything can be done for a whole list if it can be done for each of it. -/
theorem mapM_eq_ok {ε α β : Type} {f : α → Except ε β} {xs : List α} {ys : List β} :
    xs.mapM f = .ok ys ↔ xs.map f = ys.map .ok := by
  induction xs generalizing ys with
  | nil => cases ys <;> simp [pure, Except.pure]
  | cons x xs ih =>
    rw [List.mapM_cons, List.map_cons]
    cases f x with
    | error e => cases ys <;> simp [bind, Except.bind]
    | ok y =>
      cases hxs : xs.mapM f with
      | error e =>
        have hnot : ∀ zs : List β, xs.map f ≠ zs.map .ok := fun zs h => by
          rw [← ih, hxs] at h
          cases h
        cases ys <;> simp [bind, Except.bind, hnot]
      | ok zs => cases ys <;> simp [bind, Except.bind, pure, Except.pure, ← ih, hxs]

theorem exists_mapM_eq_ok {ε α β : Type} {f : α → Except ε β} {xs : List α} :
    (∃ ys, xs.mapM f = .ok ys) ↔ ∀ x ∈ xs, ∃ y, f x = .ok y := by
  constructor
  · rintro ⟨ys, h⟩ x hx
    have hmem := List.mem_map_of_mem (f := f) hx
    rw [mapM_eq_ok.1 h] at hmem
    obtain ⟨y, -, hy⟩ := List.mem_map.1 hmem
    exact ⟨y, hy.symm⟩
  · intro h
    induction xs with
    | nil => exact ⟨[], rfl⟩
    | cons x xs ih =>
      obtain ⟨y, hy⟩ := h x (List.mem_cons_self ..)
      obtain ⟨ys, hys⟩ := ih fun z hz => h z (List.mem_cons_of_mem _ hz)
      refine ⟨y :: ys, mapM_eq_ok.2 ?_⟩
      rw [List.map_cons, List.map_cons, hy, mapM_eq_ok.1 hys]

/-- A way to a schema file has at least one name. -/
theorem ne_nil_of_mem_waysBelow {d : Disk} {place : Place} {way : List Text}
    (h : way ∈ waysBelow d place) : way ≠ [] := by
  rw [waysBelow, List.mem_mergeSort, List.mem_filterMap] at h
  obtain ⟨x, -, hway⟩ := h
  split at hway
  · rename_i hselects
    obtain rfl := Option.some.inj hway
    rintro hempty
    simp [hempty, selects] at hselects
  · cases hway

/-- A directory is loaded way by way. -/
theorem loadDir_directory {d : Disk} {cwd dir : Text} {x : Place × Item} {place : Place}
    (hstat : d.follow true cwd dir = .ok x)
    (hdir : d.follow false cwd dir = .ok (place, .directory)) :
    loadDir d cwd dir = ((waysBelow d place).mapM (load d cwd dir)).map fun files =>
      files.mergeSort fun a b => decide (a.path ≤ b.path) := by
  simp only [loadDir, hstat, hdir]

/-- Of anything else the name is looked at. -/
theorem loadDir_other {d : Disk} {cwd dir : Text} {x : Place × Item} {place : Place} {item : Item}
    (hstat : d.follow true cwd dir = .ok x) (hfollow : d.follow false cwd dir = .ok (place, item))
    (hitem : item ≠ .directory) : loadDir d cwd dir =
      if Text.endsWith (Path.base dir) ending then
        match d.read cwd dir with
        | .error e => .error (.file e)
        | .ok source => .ok [⟨Path.here, source⟩]
      else .ok [] := by
  simp only [loadDir, hstat, hfollow]
  split
  · rename_i heq
    cases heq
    exact absurd rfl hitem
  · rfl

/-- What is loaded from a directory was loaded at the ends of ways. -/
theorem way_of_mem_loadDir {d : Disk} {cwd dir : Text} {files : List SchemaFile}
    (h : loadDir d cwd dir = .ok files) {f : SchemaFile} (hf : f ∈ files) : f.path = Path.here ∨
      ∃ place, ∃ way ∈ waysBelow d place, load d cwd dir way = .ok f := by
  unfold loadDir at h
  split at h
  · cases h
  split at h
  · rename_i place _
    cases hmap : (waysBelow d place).mapM (load d cwd dir) with
    | error e =>
      rw [hmap] at h
      cases h
    | ok loaded =>
      rw [hmap] at h
      obtain rfl := Except.ok.inj h
      have hmem := List.mem_map_of_mem (f := Except.ok (ε := LoadError)) (List.mem_mergeSort.1 hf)
      rw [← mapM_eq_ok.1 hmap] at hmem
      obtain ⟨way, hway, hload⟩ := List.mem_map.1 hmem
      exact .inr ⟨place, way, hway, hload⟩
  · split at h
    · split at h
      · cases h
      · obtain rfl := Except.ok.inj h
        exact .inl (congrArg path (List.mem_singleton.1 hf))
    · obtain rfl := Except.ok.inj h
      cases hf

theorem load_eq_ok {d : Disk} {cwd dir : Text} {way : List Text} {f : SchemaFile} :
    load d cwd dir way = .ok f ↔ f.path = Text.join [Path.slash] way ∧
      d.read cwd (Path.join [dir, Text.join [Path.slash] way]) = .ok f.source := by
  obtain ⟨path, source⟩ := f
  unfold load
  split
  · rename_i hread
    simp [hread]
  · rename_i s hread
    simp [hread, eq_comm]

end SchemaFile

end CubeSchema
