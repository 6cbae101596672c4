import CubeSchema.Proofs.Compilation.References
import CubeSchema.Proofs.Compilation.Tasks
import CubeSchema.Proofs.Graph.Answers
import Mathlib.Logic.Relation
import Mathlib.Order.WellFounded

/-!
# The order of the work does not matter

Files are read at the same time, and their trees are transformed at the same time, as many as the
options allow. `Advance` takes all of this apart: a file is read in one turn, and to transform a
tree, to list its references and to print it are three, between which the other tasks have theirs.
Between the two groups of tasks the symbols are collected, and in the end the graph is built from
references that come in any order.

However the turns fall, the work comes to an end, and its answer is that of `compile`, which does
everything in the order of the files (`compile_schedule_irrelevant`).
-/

namespace CubeSchema

open Compilation SymbolTable TaskGroup

namespace Compilation

/-! ## Reading the files -/

/-- The trees and the errors of the files, as far as they have been read. -/
structure Parsed where
  /-- The tree of every file that could be read. -/
  programs : List (Option Node)
  /-- The error of every file that could not be read. -/
  errors : List (Option ParseError)

/-- Puts what the file at an index reads as in its place. -/
def Parsed.store (i : Nat) (r : Except ParseError Node) (p : Parsed) : Parsed :=
  match r with
  | .ok n => { p with programs := p.programs.set i (some n) }
  | .error e => { p with errors := p.errors.set i (some e) }

/-- The task to read the file at an index. -/
def parseTask (i : Nat) (f : SchemaFile) : Job Parsed :=
  [.check, .change (Parsed.store i (reading f))]

/-- The tree of a file. -/
def tree? (f : SchemaFile) : Option Node := (reading f).toOption

/-- The error of a file. -/
def error? (f : SchemaFile) : Option ParseError :=
  match reading f with
  | .error e => some e
  | .ok _ => none

theorem store_comm {i j : Nat} (h : i ≠ j) (r r' : Except ParseError Node) (p : Parsed) :
    (p.store j r').store i r = (p.store i r).store j r' := by
  cases r <;> cases r' <;> simp only [Parsed.store, List.set_comm _ _ h.symm]

/-- Tasks are independent if those at different indices are. -/
theorem independent_mapIdx {σ α : Type} (task : Nat → α → Job σ)
    (h : ∀ i j x y, i ≠ j → Independent (task i x) (task j y)) (xs : List α) :
    (xs.mapIdx task).Pairwise Independent := by
  rw [List.pairwise_iff_getElem]
  intro i j hi hj hij
  rw [List.getElem_mapIdx, List.getElem_mapIdx]
  exact h i j _ _ (Nat.ne_of_lt hij)

theorem independent_parseTask {i j : Nat} (h : i ≠ j) (f f' : SchemaFile) :
    Independent (parseTask i f) (parseTask j f') := by
  intro g hg g' hg' p
  simp only [parseTask, List.mem_cons, List.not_mem_nil, or_false, Action.change.injEq,
    reduceCtorEq, false_or] at hg hg'
  rw [hg, hg', store_comm h]

/-- Reading the files in order fills one place after the other. -/
theorem effects_parseTask (done files : List SchemaFile) :
    effects (files.mapIdx fun i => parseTask (done.length + i))
      ⟨done.map tree? ++ List.replicate files.length none,
        done.map error? ++ List.replicate files.length none⟩ =
    ⟨(done ++ files).map tree?, (done ++ files).map error?⟩ := by
  induction files generalizing done with
  | nil => simp [effects]
  | cons f files ih =>
    have hstore : Parsed.store done.length (reading f)
        ⟨done.map tree? ++ List.replicate (f :: files).length none,
          done.map error? ++ List.replicate (f :: files).length none⟩ =
        ⟨(done ++ [f]).map tree? ++ List.replicate files.length none,
          (done ++ [f]).map error? ++ List.replicate files.length none⟩ := by
      cases hf : reading f <;>
        simp [Parsed.store, tree?, error?, hf, List.replicate_succ, Except.toOption]
    have hrest := ih (done ++ [f])
    rw [List.append_assoc, List.singleton_append] at hrest
    rw [← hrest, ← hstore, List.mapIdx_cons, effects, List.foldl_cons]
    simp only [List.length_append, List.length_singleton, Nat.add_assoc, Nat.add_comm 1]
    rfl

/-- Reading all files gives the trees, or else the errors of all files that cannot be read. -/
theorem parseAll_eq (files : List SchemaFile) : parseAll files =
    if (files.filterMap error?).isEmpty then .ok (files.filterMap tree?)
    else .error (files.filterMap error?) := by
  have htree : ((fun | .error _ => none | .ok n => some n) : Except ParseError Node → Option Node) ∘
      reading = tree? := by
    funext f
    simp only [Function.comp, tree?]
    cases reading f <;> rfl
  have herror : ((fun | .error e => some e | .ok _ => none) :
      Except ParseError Node → Option ParseError) ∘ reading = error? := rfl
  rw [parseAll, ← herror, ← htree, ← List.filterMap_map, ← List.filterMap_map]
  rfl

/-! ## Transforming the trees -/

/-- The trees with what has become of them so far. -/
structure Work where
  /-- The symbols of all files. -/
  table : SymbolTable
  /-- The trees. -/
  programs : List Node
  /-- The outputs. -/
  outputs : List CompiledFile

/-- Changes the tree and the output of the file at an index, by the table and the tree. -/
def Work.touch (i : Nat) (program : SymbolTable → Node → Node)
    (output : SymbolTable → Node → CompiledFile → CompiledFile) (w : Work) : Work :=
  { w with
    programs := w.programs.modify i (program w.table)
    outputs := match w.programs[i]? with
      | some n => w.outputs.modify i (output w.table n)
      | none => w.outputs }

/-- Transforms the tree of a file. -/
def Work.transform (i : Nat) : Work → Work :=
  Work.touch i (fun t n => (Deferral.run t.resolvers n).val)
    fun t n out => { out with deferred := (Deferral.run t.resolvers n).log }

/-- Lists the references in the tree of a file. -/
def Work.refer (i : Nat) : Work → Work :=
  Work.touch i (fun _ n => n) fun t n out => { out with references := t.references n }

/-- Prints the tree of a file. -/
def Work.print (i : Nat) : Work → Work :=
  Work.touch i (fun _ n => n) fun _ n out => { out with source := n.print }

/-- The task to transform the file at an index. -/
def rewriteTask (i : Nat) : Job Work :=
  [.check, .change (Work.transform i), .change (Work.refer i), .change (Work.print i)]

theorem modify_comm {α : Type} {i j : Nat} (h : i ≠ j) (f g : α → α) (xs : List α) :
    (xs.modify j g).modify i f = (xs.modify i f).modify j g := by
  refine List.ext_getElem? fun k => ?_
  simp only [List.getElem?_modify]
  cases xs[k]? with
  | none => rfl
  | some x =>
    by_cases hi : i = k
    · have hj : j ≠ k := fun hj => h (hi.trans hj.symm)
      simp [hi, hj]
    · simp [hi]

/-- What is done to two different files can be done in either order. -/
theorem touch_comm {i j : Nat} (h : i ≠ j) (program program' : SymbolTable → Node → Node)
    (output output' : SymbolTable → Node → CompiledFile → CompiledFile) (w : Work) :
    (w.touch j program' output').touch i program output =
      (w.touch i program output).touch j program' output' := by
  have hi : (w.programs.modify j (program' w.table))[i]? = w.programs[i]? := by
    simp [h.symm]
  have hj : (w.programs.modify i (program w.table))[j]? = w.programs[j]? := by
    simp [h]
  simp only [Work.touch, hi, hj, modify_comm h]
  cases w.programs[i]? <;> cases w.programs[j]? <;> simp only [modify_comm h]

theorem independent_rewriteTask {i j : Nat} (h : i ≠ j) :
    Independent (rewriteTask i) (rewriteTask j) := by
  intro g hg g' hg' w
  simp only [rewriteTask, List.mem_cons, List.not_mem_nil, or_false, Action.change.injEq,
    reduceCtorEq, false_or] at hg hg'
  rcases hg with rfl | rfl | rfl <;> rcases hg' with rfl | rfl | rfl <;> exact touch_comm h ..

theorem modify_append_cons {α : Type} (done : List α) (x : α) (rest : List α) (f : α → α) :
    (done ++ x :: rest).modify done.length f = done ++ f x :: rest := by
  induction done with
  | nil => rfl
  | cons y done ih => exact congrArg (y :: ·) ih

/-- What is done to the file behind those that come first. -/
theorem touch_append {t : SymbolTable} {done rest : List Node} {outs outs' : List CompiledFile}
    (hlength : outs.length = done.length) (n : Node) (out : CompiledFile)
    (program : SymbolTable → Node → Node)
    (output : SymbolTable → Node → CompiledFile → CompiledFile) :
    Work.touch done.length program output ⟨t, done ++ n :: rest, outs ++ out :: outs'⟩ =
      ⟨t, done ++ program t n :: rest, outs ++ output t n out :: outs'⟩ := by
  have hn : (done ++ n :: rest)[done.length]? = some n := by simp
  simp only [Work.touch, hn, modify_append_cons]
  rw [← hlength, modify_append_cons]

/-- A file with its tree and its declarations. -/
abbrev Collected := (SchemaFile × Node) × List Declared

/-- The output of a file before its tree is transformed. -/
def blank (x : Collected) : CompiledFile := ⟨x.1.1.path, [], x.2, [], []⟩

/-- The tree of a file when it has been transformed. -/
def transformed (t : SymbolTable) (x : Collected) : Node := (Deferral.run t.resolvers x.1.2).val

/-- The output of a file. -/
def compiled (t : SymbolTable) (x : Collected) : CompiledFile := compileFile t x.1.1 x.1.2 x.2

/-- Working on the files in order completes one output after the other. -/
theorem effects_rewriteTask (t : SymbolTable) (done xs : List Collected) :
    effects (xs.mapIdx fun i _ => rewriteTask (done.length + i))
      ⟨t, done.map (transformed t) ++ xs.map fun x => x.1.2,
        done.map (compiled t) ++ xs.map blank⟩ =
    ⟨t, (done ++ xs).map (transformed t), (done ++ xs).map (compiled t)⟩ := by
  induction xs generalizing done with
  | nil => simp [effects]
  | cons x xs ih =>
    have hprograms : (done.map (transformed t)).length = done.length := List.length_map ..
    have houtputs : (done.map (compiled t)).length = (done.map (transformed t)).length := by simp
    -- The three actions on the file at the head make its output complete.
    have heffect : effect (rewriteTask done.length)
        ⟨t, done.map (transformed t) ++ (x :: xs).map fun x => x.1.2,
          done.map (compiled t) ++ (x :: xs).map blank⟩ =
        ⟨t, (done ++ [x]).map (transformed t) ++ xs.map fun x => x.1.2,
          (done ++ [x]).map (compiled t) ++ xs.map blank⟩ := by
      rw [← hprograms]
      simp only [rewriteTask, effect, Work.transform, Work.refer, Work.print, List.map_cons,
        touch_append houtputs, List.map_append, List.append_assoc, List.map_nil,
        List.singleton_append]
      rfl
    have hrest := ih (done ++ [x])
    rw [List.append_assoc, List.singleton_append] at hrest
    rw [← hrest, ← heffect, List.mapIdx_cons, effects, List.foldl_cons]
    simp only [List.length_append, List.length_singleton, Nat.add_assoc, Nat.add_comm 1]
    rfl

/-! ## The whole work -/

/-- How far the work has come. -/
inductive Stage where
  /-- The files are read. -/
  | parsing (g : TaskGroup Parsed)
  /-- The symbols of all manifests and files are known, and the trees are transformed. -/
  | rewriting (manifests : List (Text × Manifest)) (g : TaskGroup Work)
  /-- There is an answer. -/
  | answered (r : Except CompileError Compilation)

/-- The work before its first turn. -/
def beginning (files : List SchemaFile) : Stage :=
  .parsing (ofTasks (files.mapIdx parseTask)
    ⟨List.replicate files.length none, List.replicate files.length none⟩)

/-- The symbols have been collected, and the tasks to transform the trees are to be started. -/
def gathered (manifests : List (Text × Manifest)) (files : List (SchemaFile × Node)) : Stage :=
  let (table, declared) := collectAll (knownTable manifests) files
  .rewriting manifests (ofTasks ((files.zip declared).mapIdx fun i _ => rewriteTask i)
    ⟨table, (files.zip declared).map fun x => x.1.2, (files.zip declared).map blank⟩)

/-- How the work goes on when the tasks to read the files have ended. -/
def afterParsing (tree : FileTree) (cwd : Text) (o : CompileOptions) (files : List SchemaFile)
    (g : TaskGroup Parsed) : Stage :=
  if g.failed then .answered (.error .cancelled)
  else if (g.shared.errors.filterMap id).isEmpty then
    match loadManifests tree cwd o.manifests with
    | (before, some e) => .answered (.error (.manifest before e))
    | (manifests, none) => gathered manifests (files.zip (g.shared.programs.filterMap id))
  else .answered (.error (.parse (g.shared.errors.filterMap id)))

/-- The answer when the tasks to transform the trees have ended, and the graph is built from
`shown`. -/
def afterRewriting (manifests : List (Text × Manifest)) (g : TaskGroup Work)
    (shown : List CompiledFile) : Stage :=
  if g.failed then .answered (.error .cancelled)
  else .answered (.ok ⟨manifests, g.shared.outputs, g.shared.table, graphOf g.shared.table shown⟩)

/-- Two lists of outputs with the same references, those of a file in any order. -/
def Shuffled : List CompiledFile → List CompiledFile → Prop :=
  List.Forall₂ fun out out' => out.references.Perm out'.references

/-- One turn of the work. -/
inductive Advance (tree : FileTree) (cwd : Text) (o : CompileOptions) (files : List SchemaFile) :
    Stage → Stage → Prop
  /-- A task that reads a file has its turn. -/
  | parse {g g' : TaskGroup Parsed} (h : Turn o.cancelled o.workers.toNat g g') :
      Advance tree cwd o files (.parsing g) (.parsing g')
  /-- All tasks that read files have ended. -/
  | gather {g : TaskGroup Parsed} (h : g.Done) :
      Advance tree cwd o files (.parsing g) (afterParsing tree cwd o files g)
  /-- A task that transforms a tree has its turn. -/
  | rewrite {manifests : List (Text × Manifest)} {g g' : TaskGroup Work}
      (h : Turn o.cancelled o.workers.toNat g g') :
      Advance tree cwd o files (.rewriting manifests g) (.rewriting manifests g')
  /-- All tasks that transform trees have ended. -/
  | assemble {manifests : List (Text × Manifest)} {g : TaskGroup Work}
      {shown : List CompiledFile} (h : g.Done) (hshown : Shuffled shown g.shared.outputs) :
      Advance tree cwd o files (.rewriting manifests g) (afterRewriting manifests g shown)

/-- Two answers that cannot be told apart. -/
def SameAnswer : Except CompileError Compilation → Except CompileError Compilation → Prop
  | .ok c, .ok c' => c.manifests = c'.manifests ∧ c.outputs = c'.outputs ∧ c.table = c'.table ∧
      ∀ q, c.graph.answer q = c'.graph.answer q
  | .error e, .error e' => e = e'
  | _, _ => False

/-! ## Every run comes to an end -/

/-- The groups that are still to come, and the turns that are left to the present one. -/
def Stage.measure : Stage → Nat × Nat
  | parsing g => (2, g.measure)
  | rewriting _ g => (1, g.measure)
  | answered _ => (0, 0)

theorem Advance.measure_lt {tree : FileTree} {cwd : Text} {o : CompileOptions}
    {files : List SchemaFile} {s s' : Stage} (h : Advance tree cwd o files s s') :
    Prod.Lex (· < ·) (· < ·) s'.measure s.measure := by
  cases h with
  | parse hturn => exact .right _ hturn.measure_lt
  | gather _ =>
    unfold afterParsing
    split
    · exact .left _ _ (by decide)
    split
    · split <;> exact .left _ _ (by decide)
    · exact .left _ _ (by decide)
  | rewrite hturn => exact .right _ hturn.measure_lt
  | assemble _ _ =>
    unfold afterRewriting
    split <;> exact .left _ _ (by decide)

theorem workers_pos (o : CompileOptions) : 0 < o.workers.toNat := by
  unfold CompileOptions.workers CompileOptions.defaultConcurrency
  split <;> omega

/-- As long as there is no answer, there is a next turn. -/
theorem exists_advance (tree : FileTree) (cwd : Text) (o : CompileOptions)
    (files : List SchemaFile) {s : Stage} (h : ∀ r, s ≠ .answered r) :
    ∃ s', Advance tree cwd o files s s' := by
  cases s with
  | parsing g =>
    by_cases hdone : g.Done
    · exact ⟨_, .gather hdone⟩
    · obtain ⟨g', hturn⟩ := exists_turn o.cancelled (workers_pos o) hdone
      exact ⟨_, .parse hturn⟩
  | rewriting manifests g =>
    by_cases hdone : g.Done
    · exact ⟨_, .assemble hdone (List.forall₂_same.2 fun _ _ => .refl _)⟩
    · obtain ⟨g', hturn⟩ := exists_turn o.cancelled (workers_pos o) hdone
      exact ⟨_, .rewrite hturn⟩
  | answered r => exact absurd rfl (h r)

/-! ## Every answer is that of the files in order -/

theorem balanced_graphOf (t : SymbolTable) (outputs : List CompiledFile) :
    (graphOf t outputs).Balanced := by
  rw [graphOf_eq]
  exact (Graph.balanced_empty.adding _).connecting _

/-- A graph is alike when the references of the files come in another order. -/
theorem alike_graphOf (t : SymbolTable) {shown outputs : List CompiledFile}
    (h : Shuffled shown outputs) : (graphOf t shown).Alike (graphOf t outputs) := by
  have hedges : ((shown.map outcomeOf).flatMap edgesOf).Perm
      ((outputs.map outcomeOf).flatMap edgesOf) := by
    induction h with
    | nil => exact .refl _
    | cons hperm _ ih =>
      rw [List.map_cons, List.map_cons, List.flatMap_cons, List.flatMap_cons]
      exact (hperm.flatMap_right _).append ih
  refine ⟨balanced_graphOf .., balanced_graphOf .., ?_, fun a b => ?_⟩
  · rw [graphOf_eq, graphOf_eq, Graph.vertices_connecting, Graph.vertices_connecting]
  · unfold Graph.Uses Adjacency.Leads
    rw [graphOf_eq, graphOf_eq, Graph.mem_uses_connecting, Graph.mem_uses_connecting,
      hedges.mem_iff]

/-- What holds all along the work, when it is not called off. -/
inductive OnCourse (tree : FileTree) (cwd : Text) (o : CompileOptions) (files : List SchemaFile) :
    Stage → Prop
  | parsing {g : TaskGroup Parsed} (h : g.Heading ⟨files.map tree?, files.map error?⟩) :
      OnCourse tree cwd o files (.parsing g)
  | rewriting {manifests : List (Text × Manifest)} {g : TaskGroup Work} {c : Compilation}
      (hc : compile tree cwd o files = .ok c) (hmanifests : manifests = c.manifests)
      (hgraph : c.graph = graphOf c.table c.outputs) {programs : List Node}
      (h : g.Heading ⟨c.table, programs, c.outputs⟩) :
      OnCourse tree cwd o files (.rewriting manifests g)
  | answered {r : Except CompileError Compilation}
      (h : SameAnswer r (compile tree cwd o files)) : OnCourse tree cwd o files (.answered r)

theorem onCourse_beginning (tree : FileTree) (cwd : Text) (o : CompileOptions)
    (files : List SchemaFile) : OnCourse tree cwd o files (beginning files) := by
  have hindependent := independent_mapIdx parseTask
    (fun i j f f' hij => independent_parseTask hij f f') files
  have hheading := heading_ofTasks hindependent
    ⟨List.replicate files.length none, List.replicate files.length none⟩
  have heffects := effects_parseTask [] files
  simp only [List.length_nil, Nat.zero_add, List.map_nil, List.nil_append] at heffects
  rw [heffects] at hheading
  exact .parsing hheading

/-- The tasks to transform the trees will leave the outputs that the files have by the table. -/
theorem heading_rewriteTask (t : SymbolTable) (xs : List Collected) :
    (ofTasks (xs.mapIdx fun i _ => rewriteTask i)
      ⟨t, xs.map fun x => x.1.2, xs.map blank⟩).Heading
      ⟨t, xs.map (transformed t), xs.map (compiled t)⟩ := by
  have hindependent := independent_mapIdx (fun i (_ : Collected) => rewriteTask i)
    (fun i j _ _ hij => independent_rewriteTask hij) xs
  have heffects := effects_rewriteTask t [] xs
  simp only [List.length_nil, Nat.zero_add, List.map_nil, List.nil_append] at heffects
  exact heffects ▸ heading_ofTasks hindependent _

/-- All files have been read, and what comes next is what `compile` does. -/
theorem onCourse_afterParsing {tree : FileTree} {cwd : Text} {o : CompileOptions}
    {files : List SchemaFile} (ho : o.cancelled = false) {g : TaskGroup Parsed}
    (hfailed : g.failed = false) (hshared : g.shared = ⟨files.map tree?, files.map error?⟩) :
    OnCourse tree cwd o files (afterParsing tree cwd o files g) := by
  have hcompile := compile.eq_def tree cwd o files
  rw [ho, Bool.false_and, if_neg Bool.false_ne_true, parseAll_eq] at hcompile
  simp only [afterParsing, hfailed, hshared, List.filterMap_map, Function.id_comp,
    Bool.false_eq_true, if_false]
  split
  · rename_i hnone
    rw [if_pos hnone] at hcompile
    split
    · rename_i before e hload
      simp only [hload] at hcompile
      exact .answered (by rw [hcompile]; exact rfl)
    · rename_i manifests hload
      simp only [hload] at hcompile
      exact .rewriting hcompile rfl rfl (heading_rewriteTask _ _)
  · rename_i hsome
    rw [if_neg hsome] at hcompile
    exact .answered (by rw [hcompile]; exact rfl)

/-- Every turn keeps the work on its course. -/
theorem OnCourse.advance {tree : FileTree} {cwd : Text} {o : CompileOptions}
    {files : List SchemaFile} (ho : o.cancelled = false) {s s' : Stage}
    (h : OnCourse tree cwd o files s) (hadvance : Advance tree cwd o files s s') :
    OnCourse tree cwd o files s' := by
  cases hadvance with
  | parse hturn =>
    cases h with
    | parsing hheading => exact .parsing (hheading.turn (ho ▸ hturn))
  | gather hdone =>
    cases h with
    | parsing hheading =>
      exact onCourse_afterParsing ho hheading.failed (hheading.shared_eq hdone)
  | rewrite hturn =>
    cases h with
    | rewriting hc hmanifests hgraph hheading =>
      exact .rewriting hc hmanifests hgraph (hheading.turn (ho ▸ hturn))
  | assemble hdone hshown =>
    cases h with
    | @rewriting _ g c hc hmanifests hgraph programs hheading =>
      have hshared := hheading.shared_eq hdone
      rw [hshared] at hshown
      rw [afterRewriting, hheading.failed, if_neg Bool.false_ne_true, hshared]
      have halike := alike_graphOf c.table hshown
      refine .answered ?_
      rw [hc]
      exact ⟨hmanifests, rfl, rfl, fun q => hgraph ▸ halike.answer_eq q⟩

end Compilation

/-- However the turns fall, the work comes to an end: there is no endless sequence of turns, and as
long as there is no answer there is a next turn. The answer is that of the files in order, and if
some files cannot be read it has the errors of all of them, in the order of the files. -/
theorem compile_schedule_irrelevant (tree : FileTree) (cwd : Text) (o : CompileOptions)
    (files : List SchemaFile) (h : o.cancelled = false) :
    (WellFounded fun s' s => Advance tree cwd o files s s') ∧
    (∀ s, Relation.ReflTransGen (Advance tree cwd o files) (beginning files) s →
      (∀ r, s = .answered r → SameAnswer r (compile tree cwd o files)) ∧
        ((∀ r, s ≠ .answered r) → ∃ s', Advance tree cwd o files s s')) ∧
    (files.filterMap error? ≠ [] →
      compile tree cwd o files = .error (.parse (files.filterMap error?))) := by
  refine ⟨?_, fun s hs => ?_, fun herrors => ?_⟩
  · have hlex : WellFounded (Prod.Lex (· < ·) (· < ·) : Nat × Nat → Nat × Nat → Prop) :=
      (Prod.lex Nat.lt_wfRel Nat.lt_wfRel).wf
    exact Subrelation.wf (fun h => h.measure_lt) (InvImage.wf Stage.measure hlex)
  · -- The course is kept from the beginning on.
    have hcourse : OnCourse tree cwd o files s := by
      induction hs with
      | refl => exact onCourse_beginning tree cwd o files
      | tail _ hadvance ih => exact ih.advance h hadvance
    refine ⟨?_, exists_advance tree cwd o files⟩
    rintro r rfl
    cases hcourse with
    | answered hsame => exact hsame
  · have hsome : (files.filterMap error?).isEmpty = false := by
      rw [Bool.eq_false_iff, ne_eq, List.isEmpty_iff]
      exact herrors
    rw [compile, h, parseAll_eq, hsome]
    rfl

/-- Two readable files with one that is not between them. -/
def brokenBetween : List SchemaFile :=
  [twiceDeclared.1, ⟨lit "x.js", lit "cube("⟩, twiceDeclared.2]

/-- Two files are worked on at a time. There is a run that ends with an answer, and it is that of
the files in order. With a broken file between them, the answer is its error. -/
theorem twiceDeclared_schedule_irrelevant :
    (∃ r, Relation.ReflTransGen
        (Advance ⟨[]⟩ [] { concurrency := 2 } [twiceDeclared.1, twiceDeclared.2])
        (beginning [twiceDeclared.1, twiceDeclared.2]) (.answered r) ∧
      SameAnswer r (compile ⟨[]⟩ [] { concurrency := 2 } [twiceDeclared.1, twiceDeclared.2])) ∧
    compile ⟨[]⟩ [] { concurrency := 2 } brokenBetween =
      .error (.parse (brokenBetween.filterMap error?)) := by
  obtain ⟨hwf, hreach, -⟩ := compile_schedule_irrelevant ⟨[]⟩ [] { concurrency := 2 }
    [twiceDeclared.1, twiceDeclared.2] rfl
  obtain ⟨-, -, hbroken⟩ := compile_schedule_irrelevant ⟨[]⟩ [] { concurrency := 2 }
    brokenBetween rfl
  have herror : (brokenBetween.filterMap error?).isEmpty = false := by decide +kernel
  refine ⟨?_, hbroken fun hnil => by rw [hnil] at herror; cases herror⟩
  -- Among the stages that can be reached there is one without a next turn.
  obtain ⟨s, hs, hlast⟩ := hwf.has_min
    {s | Relation.ReflTransGen (Advance _ _ _ _) (beginning [twiceDeclared.1, twiceDeclared.2]) s}
    ⟨_, .refl⟩
  obtain ⟨hanswer, hnext⟩ := hreach s hs
  have hanswered : ∃ r, s = .answered r := by
    refine Classical.byContradiction fun hnone => ?_
    obtain ⟨s', hs'⟩ := hnext fun r hr => hnone ⟨r, hr⟩
    exact hlast s' (hs.tail hs') hs'
  obtain ⟨r, rfl⟩ := hanswered
  exact ⟨r, hs, hanswer r rfl⟩

end CubeSchema
