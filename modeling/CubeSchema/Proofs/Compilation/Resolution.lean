import CubeSchema.Proofs.Compilation.Linking

/-!
# What resolves in a whole project

While a tree is transformed, names are resolved by the table of all manifests and all files.
`Resolvable` lists what makes a name resolvable inside of a declaration in terms of the manifests
and files that were given, and `compile_resolves` says that nothing else does. It matters there
whether some file declares the cube: if so, the members that manifests list for it do not count.
-/

namespace CubeSchema

open Compilation SymbolTable

/-- A manifest is one of those that a project is compiled with. -/
def IsLoaded (tree : FileTree) (cwd : Text) (o : CompileOptions) (m : Manifest) : Prop :=
  ∃ path ∈ o.manifests, Manifest.load tree cwd path = .ok m

/-- A declaration is one of those that are collected from some files. -/
def IsCollected (files : List SchemaFile) (d : Cube) : Prop :=
  ∃ f ∈ files, ∃ n, reading f = .ok n ∧ d ∈ n.declarations f.path

/-- The names that are resolvable inside of the declaration `scope`. -/
inductive Resolvable (tree : FileTree) (cwd : Text) (o : CompileOptions) (files : List SchemaFile)
    (scope : Text) : Text → Prop
  /-- The context symbols that are always there. -/
  | default {name : Text} (h : name ∈ defaultContext) : Resolvable tree cwd o files scope name
  /-- The context symbols of a manifest. -/
  | context {m : Manifest} {name : Text} (hm : IsLoaded tree cwd o m) (h : name ∈ m.context) :
      Resolvable tree cwd o files scope name
  /-- The names that stand for the cube being declared. -/
  | placeholder {name : Text} (h : name = lit "CUBE" ∨ name = lit "TABLE") :
      Resolvable tree cwd o files scope name
  /-- The cubes and views of a manifest. -/
  | known {m : Manifest} {e : ManifestEntry} (hm : IsLoaded tree cwd o m) (he : e ∈ m.entries) :
      Resolvable tree cwd o files scope e.name
  /-- The cubes and views that a file declares. -/
  | declared {d : Cube} (hd : IsCollected files d) : Resolvable tree cwd o files scope d.name
  /-- The members in any declaration of the cube in a file. -/
  | member {d : Cube} {name : Text} (hscope : scope ≠ []) (hd : IsCollected files d)
      (hname : d.name = scope) (h : d.hasMember name = true) :
      Resolvable tree cwd o files scope name
  /-- The members in any entry of the cube in a manifest, if no file declares the cube. -/
  | knownMember {m : Manifest} {e : ManifestEntry} {name : Text} (hscope : scope ≠ [])
      (hnone : ∀ d, IsCollected files d → d.name ≠ scope) (hm : IsLoaded tree cwd o m)
      (he : e ∈ m.entries) (hname : e.name = scope) (h : name ∈ e.memberNames) :
      Resolvable tree cwd o files scope name

section

variable {tree : FileTree} {cwd : Text} {o : CompileOptions} {files : List SchemaFile}
  {nodes : List Node} {manifests : List (Text × Manifest)}

theorem isLoaded_iff (hload : loadManifests tree cwd o.manifests = (manifests, none))
    {m : Manifest} : IsLoaded tree cwd o m ↔ ∃ path, (path, m) ∈ manifests := by
  simp only [IsLoaded, mem_manifests_iff hload]

theorem isCollected_iff (hread : files.map reading = nodes.map .ok) {d : Cube} :
    IsCollected files d ↔ d ∈ declarationsOf (files.zip nodes) := by
  simp only [IsCollected, declarationsOf, List.mem_flatMap, Prod.exists, mem_zip_iff_reading hread,
    ← exists_and_left, and_assoc]

/-- The cubes that the manifests register are those of the entries. -/
theorem exists_mem_knownCubes (hload : loadManifests tree cwd o.manifests = (manifests, none))
    {p : Cube → Prop} {q : ManifestEntry → Prop}
    (hpq : ∀ e source isView, p (ManifestEntry.cube e source isView) ↔ q e) :
    (∃ c ∈ knownCubes manifests, p c) ↔ ∃ m, IsLoaded tree cwd o m ∧ ∃ e ∈ m.entries, q e := by
  simp only [isLoaded_iff hload]
  constructor
  · rintro ⟨c, hc, hp⟩
    obtain ⟨⟨path, m⟩, hm, hc⟩ := List.mem_flatMap.1 hc
    obtain ⟨e, he, isView, rfl⟩ := Manifest.mem_declared hc
    exact ⟨m, ⟨path, hm⟩, e, he, (hpq e path isView).1 hp⟩
  · rintro ⟨m, ⟨path, hm⟩, e, he, hq⟩
    obtain ⟨isView, hc⟩ := Manifest.exists_declared he path
    exact ⟨_, List.mem_flatMap.2 ⟨(path, m), hm, hc⟩, (hpq e path isView).2 hq⟩

/-- A cube is known by its name exactly if a file or a manifest declares it. -/
theorem isSome_cube?_link (hread : files.map reading = nodes.map .ok)
    (hload : loadManifests tree cwd o.manifests = (manifests, none)) {name : Text} :
    ((link manifests (files.zip nodes)).table.cube? name).isSome = true ↔
      (∃ d, IsCollected files d ∧ d.name = name) ∨
        ∃ m, IsLoaded tree cwd o m ∧ ∃ e ∈ m.entries, e.name = name := by
  rw [cube?_link, Option.isSome_or, Bool.or_eq_true, isSome_mergedAll, isSome_mergedAll,
    ← exists_mem_knownCubes (p := fun c => c.name = name) hload
      fun e source isView => by rw [e.name_cube source isView]]
  simp only [isCollected_iff hread, mem_named]

/-- A name is a member of a cube exactly if a file that declares the cube says so, or, where there
is none, a manifest. -/
theorem any_hasMember_link (hread : files.map reading = nodes.map .ok)
    (hload : loadManifests tree cwd o.manifests = (manifests, none)) {scope name : Text} :
    ((link manifests (files.zip nodes)).table.cube? scope).any (·.hasMember name) = true ↔
      (∃ d, IsCollected files d ∧ d.name = scope ∧ d.hasMember name = true) ∨
        (∀ d, IsCollected files d → d.name ≠ scope) ∧
        ∃ m, IsLoaded tree cwd o m ∧ ∃ e ∈ m.entries, e.name = scope ∧ name ∈ e.memberNames := by
  rw [cube?_link, any_hasMember_or,
    ← exists_mem_knownCubes (p := fun c => c.name = scope ∧ c.hasMember name = true) hload
      fun e source isView => by rw [e.name_cube source isView, ManifestEntry.hasMember_cube]]
  have hnone : named scope (declarationsOf (files.zip nodes)) = [] ↔
      ∀ d, IsCollected files d → d.name ≠ scope := by
    simp only [List.eq_nil_iff_forall_not_mem, mem_named, isCollected_iff hread, not_and, ne_eq]
  rw [hnone]
  simp only [mem_named, isCollected_iff hread, and_assoc]

end

/-- All trees are transformed by the table of the whole project, and it resolves inside of a
declaration exactly what the manifests and files make resolvable. -/
theorem compile_resolves {tree : FileTree} {cwd : Text} {o : CompileOptions}
    {files : List SchemaFile} {c : Compilation} (h : compile tree cwd o files = .ok c) :
    (∃ nodes : List Node, files.map reading = nodes.map .ok ∧ c.outputs.map CompiledFile.source =
      nodes.map fun n => (Deferral.run c.table.resolvers n).val.print) ∧
    ∀ scope name, c.table.resolvers.scope scope name = true ↔
      Resolvable tree cwd o files scope name := by
  obtain ⟨-, nodes, manifests, hread, hload, rfl⟩ := compile_eq_ok.1 h
  refine ⟨⟨nodes, hread, ?_⟩, fun scope name => ?_⟩
  -- The table that transforms the trees is the one that is returned.
  · have hlength : files.length = nodes.length := by simpa using congrArg List.length hread
    have hsources := congrArg (List.map Outcome.source) (link_outputs manifests (files.zip nodes))
    rw [List.map_map, List.map_map] at hsources
    calc (link manifests (files.zip nodes)).outputs.map CompiledFile.source
        = (files.zip nodes).map ((fun n => (Deferral.run
            (link manifests (files.zip nodes)).table.resolvers n).val.print) ∘ Prod.snd) := hsources
      _ = nodes.map fun n => (Deferral.run
            (link manifests (files.zip nodes)).table.resolvers n).val.print := by
          rw [← List.map_map, List.map_snd_zip (Nat.le_of_eq hlength.symm)]
  -- Each test of the table is one or two ways for a name to be resolvable.
  rw [scope_eq_true, mem_context_link, any_hasMember_link hread hload,
    isSome_cube?_link hread hload]
  constructor
  · rintro ((hdefault | ⟨⟨path, m⟩, hm, hname⟩) | hcurrent | ⟨hscope, hmember⟩ | hcube)
    · exact .default hdefault
    · exact .context ((isLoaded_iff hload).2 ⟨path, hm⟩) hname
    · exact .placeholder (by simpa [isCurrentCube] using hcurrent)
    · rcases hmember with ⟨d, hd, hname, hmember⟩ | ⟨hnone, m, hm, e, he, hname, hmember⟩
      · exact .member hscope hd hname hmember
      · exact .knownMember hscope hnone hm he hname hmember
    · rcases hcube with ⟨d, hd, rfl⟩ | ⟨m, hm, e, he, rfl⟩
      · exact .declared hd
      · exact .known hm he
  · intro hresolvable
    cases hresolvable with
    | default hdefault => exact .inl (.inl hdefault)
    | context hm hname =>
      obtain ⟨path, hm⟩ := (isLoaded_iff hload).1 hm
      exact .inl (.inr ⟨_, hm, hname⟩)
    | placeholder hcurrent => exact .inr (.inl (by simpa [isCurrentCube] using hcurrent))
    | known hm he => exact .inr (.inr (.inr (.inr ⟨_, hm, _, he, rfl⟩)))
    | declared hd => exact .inr (.inr (.inr (.inl ⟨_, hd, rfl⟩)))
    | member hscope hd hname hmember =>
      exact .inr (.inr (.inl ⟨hscope, .inl ⟨_, hd, hname, hmember⟩⟩))
    | knownMember hscope hnone hm he hname hmember =>
      exact .inr (.inr (.inl ⟨hscope, .inr ⟨hnone, _, hm, _, he, hname, hmember⟩⟩))

/-- A manifest that lists a cube, a file that declares it once more, and another cube that refers to
it. -/
def sharedCube : FileTree × CompileOptions × List SchemaFile :=
  (⟨[([lit "m.yaml"], .file (lit "cubes:\n- name: A\n  measures: [n]\ncontext: [T]\n"))]⟩,
    { manifests := [lit "m.yaml"] },
    [⟨lit "a.js", lit "cube('A', \x7b measures: \x7b m: \x7b\x7d \x7d \x7d)"⟩,
      ⟨lit "b.js", lit "cube('B', \x7b sql: A \x7d)"⟩])

/-- The project compiles, and resolves what its manifest and its files make resolvable. -/
theorem sharedCube_resolves :
    ∃ c, compile sharedCube.1 (lit "/") sharedCube.2.1 sharedCube.2.2 = .ok c ∧
      ∀ scope name, c.table.resolvers.scope scope name = true ↔
        Resolvable sharedCube.1 (lit "/") sharedCube.2.1 sharedCube.2.2 scope name := by
  have hok : (compile sharedCube.1 (lit "/") sharedCube.2.1 sharedCube.2.2).isOk = true := by
    decide +kernel
  cases hc : compile sharedCube.1 (lit "/") sharedCube.2.1 sharedCube.2.2 with
  | error e =>
    rw [hc] at hok
    cases hok
  | ok c => exact ⟨c, rfl, (compile_resolves hc).2⟩

end CubeSchema
