import CubeSchema.Proofs.Compilation.FileOrder
import CubeSchema.Proofs.Deferral.Forming
import CubeSchema.Proofs.Symbols.References
import CubeSchema.Proofs.Tree.Source

/-!
# The references of a compilation

Two parts of the compiler find the declarations of a file. Collecting takes the calls of `cube` and
`view` whose last argument is an object, and looks at the tree as it was read. The references are
listed for all such calls, whatever their last argument is, and in the tree after the pass. The pass
adds and removes no declarations (`Placed.declaredNames_eq`), so the two differ by the form of the
last argument only. A name that has references and no cube gets none of them into the graph.
-/

namespace CubeSchema

open Deferral Node Compilation SymbolTable

/-! ## The pass keeps what is declared -/

theorem Placed.staticName_eq {ok : ParamRule} {deep : Bool} {ds : List Declaration} {up edge : Edge}
    {n m : Node} (h : Placed ok deep ds up edge n m) : m.staticName = n.staticName := by
  cases h with
  | @templateLiteral _ _ _ _ quasis exprs exprs' hlength _ =>
    -- Only a template without interpolations has a name, and it has as many of them as before.
    cases exprs with
    | nil => rw [List.eq_nil_of_length_eq_zero hlength]
    | cons e exprs =>
      cases exprs' with
      | nil => simp at hlength
      | cons e' exprs' => rcases quasis with _ | ⟨q, _ | ⟨q', quasis⟩⟩ <;> rfl
  | _ => rfl

/-- A call declares the same name when its callee and its arguments have been transformed. -/
theorem Placed.declaredName_call {ok : ParamRule} {deep : Bool} {ds : List Declaration}
    {edge : Edge} {callee callee' : Node} {args args' : List Node}
    (hcallee : Placed ok deep ds edge .callCallee callee callee')
    (hlength : args'.length = args.length)
    (hargs : ∀ p ∈ args.zip args', p.2.staticName = p.1.staticName) (optional : Bool) :
    (Node.call callee' args' optional).declaredName? =
      (Node.call callee args optional).declaredName? := by
  cases hcallee with
  | leaf hleaf =>
    cases callee with
    | identifier pos name =>
      rcases args with _ | ⟨first, _ | ⟨second, rest⟩⟩ <;>
        rcases args' with _ | ⟨first', _ | ⟨second', rest'⟩⟩ <;>
          first | rfl | (simp at hlength; done) | skip
      -- Both calls have two arguments or more.
      have hfirst : first'.staticName = first.staticName :=
        hargs (first, first') (List.mem_cons_self ..)
      simp only [declaredName?, declares?, hfirst]
    | _ => rfl
  | _ => rfl

theorem declaredNames_deferred (params : List Text) (pos : Position) (x : Node) :
    (Node.deferred params pos x).declaredNames = x.declaredNames := by
  have hparams : (nodesAll (params.map fun p => identifier .unknown p)).filterMap declaredName? =
      [] := by
    induction params with
    | nil => rfl
    | cons p params ih => rw [List.map_cons, nodesAll, List.filterMap_append, ih]; rfl
  rw [deferred, declaredNames, nodes, List.cons_append, List.filterMap_cons_none rfl,
    List.filterMap_append, hparams]
  rfl

theorem Layered.declaredNames_eq {ok : ParamRule} {key : Text} {up : Edge} {value x y : Node}
    {ds : List Declaration} (h : Layered ok key up value ds x y) :
    y.declaredNames = x.declaredNames := by
  induction h with
  | nil => rfl
  | skip _ _ ih => exact ih
  | wrap _ _ _ ih => rw [declaredNames_deferred, ih]

/-- The same names are declared, in the same order, when functions have been put in place. -/
theorem Placed.declaredNames_eq {ok : ParamRule} {deep : Bool} {ds : List Declaration}
    {up edge : Edge} {n m : Node} (h : Placed ok deep ds up edge n m) :
    m.declaredNames = n.declaredNames := by
  -- The cases with two children.
  have htwo : ∀ {x x' y y' : Node}, x'.declaredNames = x.declaredNames →
      y'.declaredNames = y.declaredNames →
      (x'.nodes ++ y'.nodes).filterMap declaredName? =
        (x.nodes ++ y.nodes).filterMap declaredName? := by
    intro x x' y y' hx hy
    rw [List.filterMap_append, List.filterMap_append]
    exact congrArg₂ (· ++ ·) hx hy
  induction h with
  | leaf _ => rfl
  | program hlength _ ih => exact declaredNamesAll_eq hlength ih
  | varDecl _ _ ihname ihinit => exact htwo ihname ihinit
  | exprStmt _ ih => exact ih
  | templateLiteral hlength _ ih => exact declaredNamesAll_eq hlength ih
  | array hlength _ ih => exact declaredNamesAll_eq hlength ih
  | object hlength _ ih => exact declaredNamesAll_eq hlength ih
  | field _ _ hlayers ih => exact htwo rfl (hlayers.declaredNames_eq.trans ih)
  | property _ _ _ ihkey ihvalue => exact htwo ihkey ihvalue
  | spread _ ih => exact ih
  | member _ _ ihobj ihprop => exact htwo ihobj ihprop
  | call _ hcallee hlength hargs ihcallee ihargs =>
    rw [declaredNames_call, declaredNames_call, ihcallee, declaredNamesAll_eq hlength ihargs,
      hcallee.declaredName_call hlength fun p hp => (hargs p hp).staticName_eq]
  -- A declaration keeps its name, because placing changes no callee and no static name.
  | declaration _ hcallee hlength hargs _ hbody ihcallee ihargs ihbody =>
    have hnames := forall_zip_snoc (p := fun x y => y.staticName = x.staticName) hlength
      (fun p hp => (hargs p hp).staticName_eq) hbody.staticName_eq
    have hwithin := forall_zip_snoc (p := fun x y => y.declaredNames = x.declaredNames) hlength
      ihargs ihbody
    rw [declaredNames_call, declaredNames_call, ihcallee,
      declaredNamesAll_eq (by simp [hlength]) hwithin,
      hcallee.declaredName_call (by simp [hlength]) hnames]
  | function hlength _ _ ihparams ihbody =>
    have hparams := declaredNamesAll_eq hlength ihparams
    simp only [declaredNames, nodes, List.cons_append, List.filterMap_append,
      List.filterMap_cons_none (show declaredName? (.function ..) = none from rfl)]
    exact congrArg₂ (· ++ ·) hparams ihbody
  | binary _ _ ihl ihr => exact htwo ihl ihr
  | unary _ ih => exact ih
  | paren _ ih => exact ih

theorem all_isTyped_of_parse {file src : Text} {n : Node} (h : parse file src = .ok n) :
    n.all isTyped = true :=
  (formedProgram_of_parse h).all_nodes (fun _ => isTyped_of_isLeaf) (fun _ => Formed.isTyped)
    (fun _ => FormedStatement.isTyped) fun _ => FormedProgram.isTyped

/-! ## What is declared and what is registered -/

/-- A file declares the name with a call of `cube` or `view`, whatever the last argument is. -/
def IsDeclared (files : List SchemaFile) (name : Text) : Prop :=
  ∃ f ∈ files, ∃ n, reading f = .ok n ∧ ∃ m ∈ n.nodes, m.declaredName? = some name

/-- A file declares the name with a call of `cube` or `view` whose last argument is an object. -/
def HasBody (files : List SchemaFile) (name : Text) : Prop :=
  ∃ f ∈ files, ∃ n, reading f = .ok n ∧ ∃ m ∈ n.nodes, m.declaredName? = some name ∧
    ∃ pos members, m.lastArg? = some (.object pos members)

/-- A manifest lists the name. -/
def IsListed (tree : FileTree) (cwd : Text) (o : CompileOptions) (name : Text) : Prop :=
  ∃ m, IsLoaded tree cwd o m ∧ ∃ e ∈ m.entries, e.name = name

theorem exists_declaration_iff (file : Text) {m : Node} {name : Text} :
    (∃ d, m.declaration? file = some d ∧ d.name = name) ↔
      m.declaredName? = some name ∧ ∃ pos members, m.lastArg? = some (.object pos members) := by
  rw [declaredName?, Option.map_eq_some_iff]
  unfold Node.declaration?
  constructor
  · rintro ⟨d, hd, rfl⟩
    split at hd
    · rename_i declared isView pos members hdeclares hlast
      obtain rfl := Option.some.inj hd
      exact ⟨⟨(declared, isView), hdeclares, by simp⟩, pos, members, hlast⟩
    · cases hd
  · rintro ⟨⟨⟨declared, isView⟩, hdeclares, rfl⟩, pos, members, hlast⟩
    rw [hdeclares, hlast]
    exact ⟨_, rfl, by simp⟩

/-- What is collected under a name are its declarations with an object. -/
theorem exists_isCollected_iff {files : List SchemaFile} {name : Text} :
    (∃ d, IsCollected files d ∧ d.name = name) ↔ HasBody files name := by
  simp only [IsCollected, declarations_eq, List.mem_filterMap]
  constructor
  · rintro ⟨d, ⟨f, hf, n, hn, m, hm, hd⟩, hname⟩
    exact ⟨f, hf, n, hn, m, hm, (exists_declaration_iff _).1 ⟨d, hd, hname⟩⟩
  · rintro ⟨f, hf, n, hn, m, hm, hbody⟩
    obtain ⟨d, hd, hname⟩ := (exists_declaration_iff f.path).2 hbody
    exact ⟨d, ⟨f, hf, n, hn, m, hm, hd⟩, hname⟩

/-! ## What is listed as references -/

theorem mem_edgesOf {x : Compilation.Outcome} {a b : Text} :
    (a, b) ∈ edgesOf x ↔ ∃ targets, (a, targets) ∈ x.references ∧ b ∈ targets := by
  simp [edgesOf]

/-- All that the outputs list for a name. -/
def referencesFrom (outputs : List CompiledFile) (name : Text) : List Text :=
  outputs.flatMap fun out => (out.references.filter fun r => r.1 = name).flatMap Prod.snd

theorem mem_referencesFrom {outputs : List CompiledFile} {a b : Text} :
    b ∈ referencesFrom outputs a ↔ ∃ x ∈ outputs.map outcomeOf, (a, b) ∈ edgesOf x := by
  simp [referencesFrom, mem_edgesOf, outcomeOf]

/-! ## The graph -/

/-- The graph of the cubes of a table, before any reference is added. -/
def SymbolTable.unconnected (t : SymbolTable) : Graph :=
  ({} : Graph).adding (t.cubes.map fun c => ⟨c.name, c.file⟩)

/-- Adding a reference fails exactly if one of its ends is no cube of the graph. -/
theorem isOk_addEdge (g : Graph) (a b : Text) : (g.addEdge a b).isOk = (g.has a && g.has b) := by
  unfold Graph.addEdge
  cases g.has a
  · rfl
  cases g.has b
  · rfl
  simp only [Bool.not_true, Bool.false_eq_true, if_false]
  split <;> rfl

theorem has_connecting {t : SymbolTable} (h : (t.entries.map Cube.name).Nodup)
    (edges : List (Text × Text)) (id : Text) :
    (t.unconnected.connecting edges).has id = (t.cube? id).isSome := by
  rw [← has_graphOf h [] id, graphOf_eq, Graph.has, Graph.has, Graph.vertex?, Graph.vertex?,
    Graph.vertices_connecting, Graph.vertices_connecting]
  rfl

section

variable {tree : FileTree} {cwd : Text} {o : CompileOptions} {files : List SchemaFile}
  {nodes : List Node} {manifests : List (Text × Manifest)}

/-- Every output is the outcome of a file that can be read. -/
theorem mem_outcomes_iff (hread : files.map reading = nodes.map .ok) {x : Compilation.Outcome} :
    x ∈ (link manifests (files.zip nodes)).outputs.map outcomeOf ↔
      ∃ f ∈ files, ∃ n, reading f = .ok n ∧
        outcome (link manifests (files.zip nodes)).table f n = x := by
  simp only [link_outputs, List.mem_map, Prod.exists, mem_zip_iff_reading hread, and_assoc,
    exists_and_left]

theorem mem_keys_outcome {t : SymbolTable} {f : SchemaFile} {n : Node} (hn : reading f = .ok n)
    {a : Text} : a ∈ (outcome t f n).references.map Prod.fst ↔ a ∈ n.declaredNames := by
  have htyped := all_isTyped_of_parse (parse_of_reading hn)
  have hplaced := run_placed (collects_exactParams t.resolvers) htyped
  rw [outcome, map_fst_references, (Text.distinct_spec _).mem, hplaced.declaredNames_eq]

/-- References are listed for the names that the files declare. -/
theorem exists_key_iff (hread : files.map reading = nodes.map .ok) {a : Text} :
    (∃ out ∈ (link manifests (files.zip nodes)).outputs, a ∈ out.references.map Prod.fst) ↔
      IsDeclared files a := by
  constructor
  · rintro ⟨out, hout, ha⟩
    obtain ⟨f, hf, n, hn, heq⟩ := (mem_outcomes_iff hread).1 (List.mem_map_of_mem hout)
    have hreferences : out.references = (outcome _ f n).references :=
      congrArg Compilation.Outcome.references heq.symm
    rw [hreferences, mem_keys_outcome hn] at ha
    exact ⟨f, hf, n, hn, mem_declaredNames.1 ha⟩
  · rintro ⟨f, hf, n, hn, ha⟩
    obtain ⟨out, hout, heq⟩ := List.mem_map.1 ((mem_outcomes_iff hread).2 ⟨f, hf, n, hn, rfl⟩)
    have hreferences : out.references = (outcome _ f n).references :=
      congrArg Compilation.Outcome.references heq
    refine ⟨out, hout, ?_⟩
    rw [hreferences, mem_keys_outcome hn]
    exact mem_declaredNames.2 ha

/-- Every reference leads to another cube. -/
theorem target_of_mem_edgesOf (hread : files.map reading = nodes.map .ok)
    {x : Compilation.Outcome}
    (hx : x ∈ (link manifests (files.zip nodes)).outputs.map outcomeOf) {a b : Text}
    (h : (a, b) ∈ edgesOf x) :
    a ≠ b ∧ ((link manifests (files.zip nodes)).table.cube? b).isSome = true := by
  obtain ⟨f, -, n, -, rfl⟩ := (mem_outcomes_iff hread).1 hx
  obtain ⟨d, -, -, hb⟩ := mem_references.1 (mem_edgesOf.1 h)
  have htarget := (List.mem_filter.1 hb).2
  rw [Bool.and_eq_true, decide_eq_true_eq] at htarget
  exact ⟨fun hab => htarget.1 hab.symm, htarget.2⟩

/-- The graph has all references that are listed for a cube, and none for another name. -/
theorem usesOf_link (hread : files.map reading = nodes.map .ok) (a : Text) :
    (link manifests (files.zip nodes)).graph.usesOf a =
      if ((link manifests (files.zip nodes)).table.cube? a).isSome then
        Text.sort (Text.distinct (referencesFrom (link manifests (files.zip nodes)).outputs a))
      else [] := by
  have hnodup := nodup_link manifests (files.zip nodes)
  have hcoherent := coherent_graphOf (link manifests (files.zip nodes)).table
    (link manifests (files.zip nodes)).outputs
  rw [link_graph, Graph.usesOf]
  split
  · rename_i ha
    refine Text.sort_eq_of_mem_iff (hcoherent.uses a) (Text.distinct_spec _).nodup fun b => ?_
    rw [mem_uses_graphOf hnodup, (Text.distinct_spec _).mem, mem_referencesFrom]
    constructor
    · exact fun hb => hb.1
    · rintro ⟨x, hx, hb⟩
      have htarget := target_of_mem_edgesOf hread hx hb
      exact ⟨⟨x, hx, hb⟩, ha, htarget.2, htarget.1⟩
  · rename_i ha
    have hnone : (graphOf (link manifests (files.zip nodes)).table
        (link manifests (files.zip nodes)).outputs).uses.neighbours a = [] := by
      refine List.eq_nil_iff_forall_not_mem.2 fun b hb => ha ?_
      exact ((mem_uses_graphOf hnodup).1 hb).2.1
    rw [hnone, Text.sort, List.mergeSort_nil]

end

/-- The outputs list references for the names that the files declare. A name is a cube if a file
declares it with an object as last argument, or a manifest lists it. Adding the references of a cube
never fails, whatever has been added before, and the graph has all of them. The references of any
other name cannot be added, and the graph has none of them. -/
theorem compile_references {tree : FileTree} {cwd : Text} {o : CompileOptions}
    {files : List SchemaFile} {c : Compilation} (h : compile tree cwd o files = .ok c) :
    (∀ a, (∃ out ∈ c.outputs, a ∈ out.references.map Prod.fst) ↔ IsDeclared files a) ∧
    (∀ a, (c.table.cube? a).isSome = true ↔ HasBody files a ∨ IsListed tree cwd o a) ∧
    (c.graph = c.table.unconnected.connecting ((c.outputs.map outcomeOf).flatMap edgesOf) ∧
      ∀ earlier, ∀ e ∈ (c.outputs.map outcomeOf).flatMap edgesOf,
        ((c.table.unconnected.connecting earlier).addEdge e.1 e.2).isOk =
          (c.table.cube? e.1).isSome) ∧
    ∀ a, c.graph.usesOf a = if (c.table.cube? a).isSome then
      Text.sort (Text.distinct (referencesFrom c.outputs a)) else [] := by
  obtain ⟨-, nodes, manifests, hread, hload, rfl⟩ := compile_eq_ok.1 h
  refine ⟨fun a => exists_key_iff hread, fun a => ?_, ⟨?_, fun earlier e he => ?_⟩,
    usesOf_link hread⟩
  · rw [isSome_cube?_link hread hload, exists_isCollected_iff]
    rfl
  · rw [link_graph, graphOf_eq]
    rfl
  · -- Only the end that a reference starts from can be missing.
    have hnodup := nodup_link manifests (files.zip nodes)
    obtain ⟨x, hx, he⟩ := List.mem_flatMap.1 he
    have htarget := (target_of_mem_edgesOf hread hx he).2
    rw [isOk_addEdge, has_connecting hnodup, has_connecting hnodup, htarget, Bool.and_true]

/-- A cube that refers to another one, and a call without an object that does so too. -/
def partlyBodied : List SchemaFile :=
  [⟨lit "a.js", lit "cube('A', f(\x7b sql: B \x7d)); cube('B', \x7b\x7d)"⟩,
    ⟨lit "c.js", lit "cube('C', \x7b sql: B \x7d)"⟩]

/-- The project can be read, and `A` is declared in it with a reference to `B` but is no cube. -/
theorem partlyBodied_reading : ∃ nodes : List Node,
    partlyBodied.map reading = nodes.map .ok ∧
    ((link [] (partlyBodied.zip nodes)).table.cube? (lit "A")).isSome = false ∧
    ∃ x ∈ (link [] (partlyBodied.zip nodes)).outputs.map outcomeOf,
      (lit "A", lit "B") ∈ edgesOf x := by
  have hdecide : (match parseAll partlyBodied with
    | .ok nodes => let t := (link [] (partlyBodied.zip nodes)).table
      (t.cube? (lit "A")).isNone && (partlyBodied.zip nodes).any fun x =>
        (run t.resolvers x.2).val.declaring.any fun d =>
          d.1 = lit "A" && (t.targets (lit "A") d.2).contains (lit "B")
    | .error _ => false) = true := by decide +kernel
  cases hparse : parseAll partlyBodied with
  | error e =>
    rw [hparse] at hdecide
    cases hdecide
  | ok nodes =>
    rw [hparse] at hdecide
    simp only [Bool.and_eq_true, List.any_eq_true, List.contains_iff_mem, decide_eq_true_eq,
      Option.isNone_iff_eq_none] at hdecide
    obtain ⟨hnone, x, hx, d, hd, hname, hb⟩ := hdecide
    refine ⟨nodes, parseAll_eq_ok.1 hparse, by rw [hnone]; rfl,
      outcome (link [] (partlyBodied.zip nodes)).table x.1 x.2, ?_, ?_⟩
    · rw [link_outputs]
      exact List.mem_map.2 ⟨x, hx, rfl⟩
    · exact mem_edgesOf.2 (mem_references.2 ⟨d, hd, hname, hb⟩)

theorem partlyBodied_compile {nodes : List Node}
    (h : partlyBodied.map reading = nodes.map .ok) :
    compile ⟨[]⟩ [] {} partlyBodied = .ok (link [] (partlyBodied.zip nodes)) :=
  compile_eq_ok.2 ⟨fun h => (nomatch h), nodes, [], h, rfl, rfl⟩

/-- The project compiles, and the graph has the references of its cubes. -/
theorem partlyBodied_references : ∃ c, compile ⟨[]⟩ [] {} partlyBodied = .ok c ∧
    ∀ a, c.graph.usesOf a = if (c.table.cube? a).isSome then
      Text.sort (Text.distinct (referencesFrom c.outputs a)) else [] := by
  obtain ⟨nodes, hread, -⟩ := partlyBodied_reading
  have hcompile := partlyBodied_compile hread
  exact ⟨_, hcompile, (compile_references hcompile).2.2.2⟩

/-- A name with a reference need not be a cube: adding the reference fails, and the graph does not
have it. -/
theorem reference_of_no_cube : ∃ c, compile ⟨[]⟩ [] {} partlyBodied = .ok c ∧
    (∃ out ∈ c.outputs, ∃ targets, (lit "A", targets) ∈ out.references ∧ lit "B" ∈ targets) ∧
    c.table.cube? (lit "A") = none ∧
    (c.table.unconnected.addEdge (lit "A") (lit "B")).isOk = false ∧
    lit "B" ∉ c.graph.usesOf (lit "A") := by
  obtain ⟨nodes, hread, hnone, x, hx, hedge⟩ := partlyBodied_reading
  obtain ⟨out, hout, rfl⟩ := List.mem_map.1 hx
  refine ⟨_, partlyBodied_compile hread, ⟨out, hout, mem_edgesOf.1 hedge⟩, by simpa using hnone,
    ?_, ?_⟩
  · have hhas := has_connecting (nodup_link [] (partlyBodied.zip nodes)) [] (lit "A")
    rw [isOk_addEdge]
    exact (congrArg (· && _) (hhas.trans hnone)).trans (Bool.false_and _)
  · rw [usesOf_link hread, hnone]
    exact List.not_mem_nil

end CubeSchema
