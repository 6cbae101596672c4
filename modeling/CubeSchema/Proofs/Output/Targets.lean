import CubeSchema.Build
import CubeSchema.Proofs.Compilation.Linking
import CubeSchema.Proofs.FileTree.Sparing
import CubeSchema.Proofs.Output.Actions

/-!
# Where outputs go

The target of an output lies below the output directory, at the name that its file has from there. A
configuration is accepted only if the output directory is not in the schema directory, and then a
target lies in the schema directory only if the output directory is above that one and the name of
the file repeats the way between them. Where no target does, a build leaves the schema files as they
are.
-/

namespace CubeSchema

open FileTree SchemaFile

/-! ## Names of loaded files -/

namespace FileTree

/-- Every component is a name, and everything stands in a directory. -/
structure WellFormed (t : FileTree) : Prop where
  /-- The components of every place are names. -/
  named : ∀ x ∈ t.entries, ∀ c ∈ x.1, Path.IsName c
  /-- Above everything is a directory. -/
  nested : ∀ x ∈ t.entries, t.at? x.1.dropLast = some .directory

instance (t : FileTree) : Decidable t.WellFormed :=
  decidable_of_iff ((∀ x ∈ t.entries, ∀ c ∈ x.1, Path.IsName c) ∧
    ∀ x ∈ t.entries, t.at? x.1.dropLast = some .directory)
    ⟨fun h => ⟨h.1, h.2⟩, fun h => ⟨h.named, h.nested⟩⟩

theorem mem_entries_of_at? {t : FileTree} {p : Place} (hp : p ≠ []) {e : Entry}
    (h : t.at? p = some e) : (p, e) ∈ t.entries := by
  rw [at?, if_neg (by simpa using hp)] at h
  generalize t.entries = l at h ⊢
  induction l with
  | nil => cases h
  | cons x l ih =>
    obtain ⟨q, f⟩ := x
    rw [lookup_cons_eq] at h
    split at h
    · rename_i hq
      obtain rfl := Option.some.inj h
      exact hq ▸ List.mem_cons_self ..
    · exact List.mem_cons_of_mem _ (ih h)

/-- All places above something are directories. -/
theorem WellFormed.above {t : FileTree} (h : t.WellFormed) {p rest : Place} (hrest : rest ≠ [])
    {e : Entry} (hat : t.at? (p ++ rest) = some e) : t.at? p = some .directory := by
  have hone : ∀ {q : Place} {c : Text} {e : Entry}, t.at? (q ++ [c]) = some e →
      t.at? q = some .directory := by
    intro q c e hq
    simpa using h.nested _ (mem_entries_of_at? (by simp) hq)
  induction rest generalizing p with
  | nil => exact absurd rfl hrest
  | cons c rest ih =>
    by_cases hempty : rest = []
    · exact hone (hempty ▸ hat)
    · rw [← List.singleton_append, ← List.append_assoc] at hat
      exact hone (ih hempty hat)

end FileTree

namespace Path

/-- A clean name that neither starts at the root nor leads up has no step up. -/
theorem up_not_mem_steps_of_not_escapes {p : Text} (habsolute : isAbsolute (clean p) = false)
    (hescapes : escapes (clean p) = false) : up ∉ steps p := by
  intro hmem
  rw [isAbsolute_clean] at habsolute
  cases hs : steps p with
  | nil =>
    rw [hs] at hmem
    cases hmem
  | cons c cs =>
    have hpairs := steps_pairwise p
    rw [hs] at hmem hpairs
    -- The first step goes up if any does, and shows at the start of the name.
    have hc : c = up := by
      rcases List.mem_cons.1 hmem with h | h
      · exact h.symm
      · exact (List.pairwise_cons.1 hpairs).1 up h rfl
    have hslash : slash ∉ c := (mem_steps (hs ▸ List.mem_cons_self .. : c ∈ steps p)).2.1
    have hup := (escapes_join hslash cs).2 hc
    rw [clean, assemble, habsolute, hs] at hescapes
    simp [hup] at hescapes

/-- Where the last step of a name does not go up, the output of the file stays below the output
directory. -/
theorem up_not_mem_steps_outputPath_clean {p : Text} (h : (steps p).getLast? ≠ some up) :
    up ∉ steps (outputPath (clean p)) := by
  unfold outputPath
  split
  · -- Only the last component is left, which is the last step of the name.
    refine fun hmem => ?_
    have hup := mem_components_of_mem_steps hmem
    unfold base at hup
    split at hup
    · exact absurd hup (by decide)
    split at hup
    · rename_i c hc
      have hmemc := mem_components (List.mem_of_getLast? hc)
      rw [components_singleton hmemc.1 hmemc.2, List.mem_singleton] at hup
      rw [components_clean] at hc
      split at hc
      · rw [← hup] at hc
        exact absurd hc (by decide)
      · exact h (hup ▸ hc)
    · exact absurd hup (by decide)
  · rename_i hkeeps
    rw [Bool.or_eq_true, not_or, Bool.not_eq_true, Bool.not_eq_true] at hkeeps
    rw [steps_clean]
    exact up_not_mem_steps_of_not_escapes hkeeps.1 hkeeps.2

/-- What is left of a name never starts at the root, unless it is the root. -/
theorem outputPath_eq_slash {p : Text} (h : isAbsolute (outputPath p) = true) :
    outputPath p = [slash] := by
  unfold outputPath at h ⊢
  split
  · rename_i hbase
    rw [if_pos hbase] at h
    unfold base at h ⊢
    split
    · rename_i hempty
      rw [if_pos hempty] at h
      exact absurd h (by decide)
    · rename_i hempty
      rw [if_neg hempty] at h
      split
      · rename_i c hc
        simp only [hc] at h
        obtain ⟨hne, hslash⟩ := mem_components (List.mem_of_getLast? hc)
        rw [show c = Text.join [slash] [c] from rfl, isAbsolute_join hne hslash] at h
        cases h
      · rfl
  · rename_i hkeeps
    rw [if_neg hkeeps] at h
    simp [h] at hkeeps

/-- The target of an output lies below the output directory. -/
theorem place_outputTarget {cwd outDir p : Text} (hcwd : isAbsolute cwd = true) (hout : outDir ≠ [])
    (h : up ∉ steps (outputPath p)) :
    place cwd (outputTarget outDir p) = place cwd outDir ++ steps (outputPath p) := by
  rw [outputTarget, place_join hcwd hout]
  cases habsolute : isAbsolute (outputPath p) with
  | false => rw [← going_steps (by simp [habsolute]), going_steps_down h]
  | true =>
    rw [outputPath_eq_slash habsolute]
    simp [show components [slash] = [] by decide, show steps [slash] = [] by decide]

@[simp] theorem clean_clean (p : Text) : clean (clean p) = clean p := by
  rw [clean, steps_clean, isAbsolute_clean]
  rfl

/-- A clean name that only goes down from where it is read. -/
structure GoesDown (q : Text) : Prop where
  /-- It does not start at the root. -/
  relative : isAbsolute q = false
  /-- It is clean. -/
  cleaned : clean q = q
  /-- It has no step up. -/
  down : up ∉ steps q

/-- A name of components that are names goes down. -/
theorem goesDown_join {cs : List Text} (hne : cs ≠ []) (hcs : ∀ c ∈ cs, IsName c) :
    GoesDown (Text.join [slash] cs) := by
  have hcomponents : components (Text.join [slash] cs) = cs :=
    components_join fun c hc => ⟨(hcs c hc).1, (hcs c hc).2.1⟩
  have hdown : up ∉ steps (Text.join [slash] cs) := fun hmem =>
    (hcs up (hcomponents ▸ mem_components_of_mem_steps hmem)).2.2.2 rfl
  have hsteps : steps (Text.join [slash] cs) = cs := by
    have hgoing : going [] (steps (Text.join [slash] cs)) = going [] (components _) :=
      going_steps fun _ => rfl
    rwa [hcomponents, going_names hcs, going_steps_down hdown] at hgoing
  obtain ⟨c, rest, rfl⟩ := List.exists_cons_of_ne_nil hne
  have hc := hcs c (List.mem_cons_self ..)
  have hrelative := isAbsolute_join hc.1 hc.2.1 rest
  refine ⟨hrelative, ?_, hdown⟩
  rw [clean, hsteps, hrelative]
  rfl

end Path

/-- A name that is shortened to its last component. -/
def Collapses (p : Text) : Prop := (Path.isAbsolute p || Path.escapes p) = true

instance (p : Text) : Decidable (Collapses p) := inferInstanceAs (Decidable (_ = true))

theorem outputPath_of_not_collapses {p : Text} (h : ¬ Collapses p) : outputPath p = p := if_neg h

namespace SchemaFile

variable {t : FileTree} {cwd : Text} {files : List SchemaFile}

/-- From a directory all schema files in it are loaded. -/
theorem length_of_loadDir {dir : Text} {place : Place}
    (hwalk : t.walk cwd dir = .ok (.found place .directory)) (h : loadDir t cwd dir = .ok files) :
    files.length = (waysBelow t place).length := by
  have hfollow : ∀ last, (t : Disk).follow last cwd dir = .ok (place, .directory) := fun last => by
    rw [Disk.follow_ofTree, hwalk, Disk.ending]
  rw [loadDir_directory (hfollow true) (hfollow false)] at h
  cases hmap : (waysBelow t place).mapM (load t cwd dir) with
  | error e =>
    rw [hmap] at h
    cases h
  | ok loaded =>
    rw [hmap] at h
    obtain rfl := Except.ok.inj h
    simpa using (congrArg List.length (mapM_eq_ok.1 hmap)).symm

/-- A file that was found in a directory has a name that goes down, and is not shortened. -/
theorem goesDown_of_loadDir (ht : t.WellFormed) {dir : Text} (h : loadDir t cwd dir = .ok files)
    {f : SchemaFile} (hf : f ∈ files) : Path.GoesDown f.path ∧ ¬ Collapses f.path := by
  obtain hhere | ⟨place, way, hmem, hload⟩ := way_of_mem_loadDir h hf
  · rw [hhere]
    exact ⟨⟨by decide, by decide, by decide⟩, by decide⟩
  · have hne := ne_nil_of_mem_waysBelow hmem
    have hway := isName_of_mem_waysBelow ht.named hmem
    rw [(load_eq_ok.1 hload).1]
    refine ⟨Path.goesDown_join hne hway, ?_⟩
    obtain ⟨c, rest, rfl⟩ := List.exists_cons_of_ne_nil hne
    obtain ⟨hc, hslash, -, hup⟩ := hway c (List.mem_cons_self ..)
    have hescapes : ¬ Path.escapes (Text.join [Path.slash] (c :: rest)) = true := fun h =>
      hup ((Path.escapes_join hslash rest).1 h)
    simp [Collapses, Path.isAbsolute_join hc hslash, hescapes]

/-- The output of a file that was found in a directory stays below the output directory. -/
theorem up_not_mem_of_loadDir (ht : t.WellFormed) {dir : Text}
    (h : loadDir t cwd dir = .ok files) {f : SchemaFile} (hf : f ∈ files) :
    Path.up ∉ Path.steps (outputPath f.path) := by
  obtain ⟨hdown, hkept⟩ := goesDown_of_loadDir ht h hf
  rw [outputPath_of_not_collapses hkept]
  exact hdown.down

theorem loadFiles_cons {p source : Text} (h : t.read cwd p = .ok source) (names : List Text) :
    loadFiles t cwd (p :: names) =
      (loadFiles t cwd names).map (⟨Path.clean p, source⟩ :: ·) := by
  unfold loadFiles
  rw [List.mapM_cons]
  simp only [h]
  rfl

/-- The files of given names are those that can be read. -/
theorem mem_loadFiles {names : List Text} (h : loadFiles t cwd names = .ok files) {f : SchemaFile}
    (hf : f ∈ files) : ∃ p, f.path = Path.clean p ∧ t.read cwd p = .ok f.source := by
  induction names generalizing files with
  | nil =>
    obtain rfl := Except.ok.inj h
    cases hf
  | cons p names ih =>
    cases hread : t.read cwd p with
    | error e =>
      unfold loadFiles at h
      rw [List.mapM_cons] at h
      simp only [hread] at h
      cases h
    | ok source =>
      rw [loadFiles_cons hread] at h
      cases hrest : loadFiles t cwd names with
      | error e =>
        rw [hrest] at h
        cases h
      | ok rest =>
        rw [hrest] at h
        obtain rfl := Except.ok.inj h
        rcases List.mem_cons.1 hf with rfl | hf
        · exact ⟨p, rfl, hread⟩
        · exact ih hrest hf

/-- What is read is a file. -/
theorem walk_of_read {p source : Text} (h : t.read cwd p = .ok source) :
    ∃ q e, e ≠ Entry.directory ∧ t.walk cwd p = .ok (.found q e) := by
  unfold FileTree.read openFile stat at h
  cases hwalk : t.walk cwd p with
  | error f =>
    rw [hwalk] at h
    cases h
  | ok stop =>
    rw [hwalk] at h
    cases stop with
    | vacant q => cases h
    | found q e =>
      refine ⟨q, e, ?_, rfl⟩
      rintro rfl
      cases h

/-- The last step to a file does not go up. -/
theorem getLast?_steps_of_read (ht : t.WellFormed) (hcwd : Path.isAbsolute cwd = true)
    {p source : Text} (h : t.read cwd p = .ok source) :
    (Path.steps p).getLast? ≠ some Path.up := by
  intro hlast
  obtain ⟨q, e, hfile, hwalk⟩ := walk_of_read h
  obtain ⟨hplace, hentry⟩ := follow_place hcwd (walk_eq_ok hwalk)
  have hmem : Path.up ∈ Path.steps p := List.mem_of_getLast? hlast
  have habsolute : Path.isAbsolute p = false := by
    rw [Bool.eq_false_iff]
    exact fun h => Path.up_not_mem_steps h hmem
  -- All steps go up, so the name leads to the working directory or above it.
  have hups : ∀ c ∈ Path.steps p, c = Path.up := by
    obtain ⟨front, hfront⟩ := List.getLast?_eq_some_iff.1 hlast
    have hpairs := Path.steps_pairwise p
    rw [hfront] at hpairs ⊢
    intro c hc
    rcases List.mem_append.1 hc with hc | hc
    · exact (List.pairwise_append.1 hpairs).2.2 c hc Path.up (List.mem_singleton.2 rfl) rfl
    · exact List.mem_singleton.1 hc
  have horigin : origin cwd p = Path.steps cwd := by simp [origin, habsolute]
  have hplace : q = Path.going (Path.steps cwd) (Path.steps p) := by
    rw [Path.going_steps (by simp [habsolute]), ← horigin, ← Path.place_eq hcwd]
    exact hplace
  obtain ⟨rest, hrest⟩ : q <+: Path.steps cwd :=
    hplace ▸ Path.going_ups_prefix hups (Path.up_not_mem_steps hcwd)
  -- The walk started at the working directory, so all of these places are directories.
  have hstart : t.at? (Path.steps cwd) = some .directory := by
    have hwalk := follow_eq_ok (walk_eq_ok hwalk)
    obtain ⟨c, cs, hcs⟩ := List.exists_cons_of_ne_nil
      (List.ne_nil_of_mem (Path.mem_components_of_mem_steps hmem))
    rw [hcs, horigin] at hwalk
    exact (walkFrom_cons.1 hwalk).1
  have hdirectory : t.at? q = some .directory := by
    by_cases hempty : rest = []
    · rwa [← hrest, hempty, List.append_nil] at hstart
    · exact ht.above hempty (hrest ▸ hstart)
  have hat : t.at? q = some e := hentry
  exact hfile (Option.some.inj (hat.symm.trans hdirectory))

end SchemaFile

/-! ## Builds that spare the schema files -/

/-- A name leads to a directory or into it. -/
def Path.Inside (cwd dir p : Text) : Prop := Path.place cwd dir <+: Path.place cwd p

instance (cwd dir p : Text) : Decidable (Path.Inside cwd dir p) :=
  inferInstanceAs (Decidable (_ <+: _))

namespace Workspace

/-- The database of a workspace is not at a place or below it. -/
def StoreOutside (p : Place) (w : Workspace) : Prop :=
  ∀ s q, w.store = some s → s.backing = .file q → ¬ p <+: q

/-- As long as its database is elsewhere, a place is spared, and the database stays elsewhere. -/
def Spares (p : Place) (w w' : Workspace) : Prop :=
  w.StoreOutside p → FileTree.Spares p w.tree w'.tree ∧ w'.StoreOutside p

theorem isGradual_spares (p : Place) : IsGradual (Spares p) where
  refl w hw := ⟨FileTree.Spares.refl p w.tree, hw⟩
  trans h h' hw := ⟨(h hw).1.trans (h' (h hw).2).1, (h' (h hw).2).2⟩

/-- Changing the tree alone spares what the change spares. -/
theorem spares_tree {p : Place} {w : Workspace} {t : FileTree}
    (h : FileTree.Spares p w.tree t) : Spares p w { w with tree := t } := fun hw => ⟨h, hw⟩

/-- Saving a history changes the database only. -/
theorem spares_save {p : Place} {w : Workspace} {s : Store} (hs : w.store = some s)
    {cancelled : Bool} {action : StoreAction} {h : History}
    (hhistory : s.history w.tree cancelled action = .ok h) (d : Database) :
    Spares p w ⟨(s.save w.tree d).2, some (s.save w.tree d).1⟩ := by
  intro hw
  unfold Store.save
  cases hbacking : s.backing with
  | none =>
    refine ⟨FileTree.Spares.refl p w.tree, fun s' q hs' hq => ?_⟩
    obtain rfl := Option.some.inj hs'
    rw [hbacking] at hq
    cases hq
  | memory _ =>
    refine ⟨FileTree.Spares.refl p w.tree, fun s' q hs' hq => ?_⟩
    obtain rfl := Option.some.inj hs'
    cases hq
  | file place =>
    have hout := hw s place hs hbacking
    refine ⟨spares_put hout ?_ _, fun s' q hs' hq => ?_⟩
    · -- There is a history only where the database is.
      intro hdirectory
      simp only [Store.history, Store.database, hbacking, hdirectory] at hhistory
      split at hhistory
      · cases hhistory
      split at hhistory
      · cases hhistory
      split at hhistory
      · cases hhistory
      · cases hhistory
    · obtain rfl := Option.some.inj hs'
      exact hw s q hs hq

/-- Storing a digest changes the database only. -/
theorem spares_setOutputHash {p : Place} {w : Workspace} {s s' : Store} {t : FileTree}
    (hs : w.store = some s) {cancelled : Bool} {path hash : Text}
    (h : s.setOutputHash w.tree cancelled path hash = .ok (s', t)) : Spares p w ⟨t, some s'⟩ := by
  unfold Store.setOutputHash at h
  cases hhistory : s.history w.tree cancelled .setHash with
  | error e =>
    rw [hhistory] at h
    cases h
  | ok history =>
    rw [hhistory] at h
    have hsave := spares_save (p := p) hs hhistory (.ready (history.setHash path hash))
    rwa [show s.save w.tree (.ready (history.setHash path hash)) = (s', t) from
      Except.ok.inj h] at hsave

/-- Starting a run changes the database only. -/
theorem spares_createRun {p : Place} {w : Workspace} {s s' : Store} {t : FileTree}
    (hs : w.store = some s) {cancelled : Bool} {id : Text} {now : Int} {run : Run}
    (h : s.createRun w.tree cancelled id now = .ok (run, s', t)) : Spares p w ⟨t, some s'⟩ := by
  unfold Store.createRun at h
  cases hhistory : s.history w.tree cancelled .createRun with
  | error e =>
    rw [hhistory] at h
    cases h
  | ok history =>
    rw [hhistory] at h
    have hsave := spares_save (p := p) hs hhistory (.ready (history.start id now))
    rwa [show s.save w.tree (.ready (history.start id now)) = (s', t) from
      (Prod.mk.inj (Except.ok.inj h)).2] at hsave

/-- Recording the outcome of a run changes the database only. -/
theorem spares_finishRun (p : Place) (w : Workspace) (id : Text) (now : Int)
    (outcome : RunOutcome) : Spares p w (w.finishRun id now outcome).2 := by
  unfold finishRun
  split
  · exact (isGradual_spares p).refl w
  · rename_i s hs
    split
    · exact (isGradual_spares p).refl w
    · rename_i s' t hcomplete
      unfold Store.completeRun at hcomplete
      cases hhistory : s.history w.tree false .completeRun with
      | error e =>
        rw [hhistory] at hcomplete
        cases hcomplete
      | ok history =>
        rw [hhistory] at hcomplete
        have hsave := spares_save (p := p) hs hhistory (.ready (history.finish id now outcome))
        change (if (history.run? id).isSome then _ else _) = _ at hcomplete
        split at hcomplete
        · rwa [show s.save w.tree (.ready (history.finish id now outcome)) = (s', t) from
            Except.ok.inj hcomplete] at hsave
        · cases hcomplete

end Workspace

/-- The outputs of a compilation have the names of its files. -/
theorem map_path_of_compile {tree : FileTree} {cwd : Text} {o : CompileOptions}
    {files : List SchemaFile} {c : Compilation} (h : compile tree cwd o files = .ok c) :
    c.outputs.map CompiledFile.path = files.map SchemaFile.path := by
  obtain ⟨-, nodes, manifests, hread, -, rfl⟩ := Compilation.compile_eq_ok.1 h
  have hlength : files.length ≤ nodes.length := by
    simpa using Nat.le_of_eq (congrArg List.length hread)
  have hpaths := congrArg (List.map Compilation.Outcome.path)
    (Compilation.link_outputs manifests (files.zip nodes))
  rw [List.map_map, List.map_map] at hpaths
  refine hpaths.trans ?_
  have hfst : (Compilation.Outcome.path ∘ fun x : SchemaFile × Node =>
      Compilation.outcome (Compilation.link manifests (files.zip nodes)).table x.1 x.2) =
      SchemaFile.path ∘ Prod.fst := rfl
  rw [hfst, ← List.map_map, List.map_fst_zip hlength]

theorem exists_path_of_compile {tree : FileTree} {cwd : Text} {o : CompileOptions}
    {files : List SchemaFile} {c : Compilation} (h : compile tree cwd o files = .ok c)
    {out : CompiledFile} (hout : out ∈ c.outputs) : ∃ f ∈ files, out.path = f.path := by
  have hmem : out.path ∈ files.map SchemaFile.path :=
    map_path_of_compile h ▸ List.mem_map_of_mem hout
  obtain ⟨f, hf, heq⟩ := List.mem_map.1 hmem
  exact ⟨f, hf, heq.symm⟩

section

variable {cwd dir : Text} (hcwd : Path.isAbsolute cwd = true) {o : BuildOptions}
  {files : List SchemaFile}
  (hout : ∀ f ∈ files, ¬ Path.Inside cwd dir (outputTarget o.outDir f.path))

include hcwd hout

/-- Compiling files and writing the outputs spares a directory that no target leads into. -/
theorem spares_emit (w : Workspace) :
    Workspace.Spares (Path.place cwd dir) w (emit w cwd o files).2 := by
  have hR := Workspace.isGradual_spares (Path.place cwd dir)
  unfold emit
  split
  · exact hR.refl w
  · rename_i c hc
    split
    · exact hR.refl w
    · refine rel_writeOutputs hR (fun x hx => ?_) w
      obtain ⟨out, hmem, rfl⟩ := List.mem_map.1 hx
      obtain ⟨f, hf, hpath⟩ := exists_path_of_compile hc hmem
      have htarget : ¬ Path.place cwd dir <+: Path.place cwd (outputTarget o.outDir out.path) :=
        hpath ▸ hout f hf
      exact Workspace.keeps_writeOutput hR
        (fun w t h => Workspace.spares_tree (spares_makeDirs _ hcwd h))
        (fun w t h => Workspace.spares_tree (spares_write hcwd htarget h))
        fun w s s' t hs h => Workspace.spares_setOutputHash hs h

/-- A build spares a directory that no target leads into. -/
theorem spares_build (w : Workspace) (id : Text) (now : Int) :
    Workspace.Spares (Path.place cwd dir) w (build w cwd o files id now).2 := by
  have hR := Workspace.isGradual_spares (Path.place cwd dir)
  unfold build
  split
  · exact spares_emit hcwd hout w
  · rename_i s hs
    split
    · exact hR.refl w
    · rename_i run s' t hcreate
      refine hR.trans (Workspace.spares_createRun hs hcreate) ?_
      refine hR.trans (spares_emit hcwd hout ⟨t, some s'⟩) ?_
      rcases emit ⟨t, some s'⟩ cwd o files with ⟨e, w'⟩
      dsimp only
      split
      · exact hR.refl w'
      · exact Workspace.spares_finishRun _ w' id now _

end

/-! ## Accepted configurations -/

/-- An accepted configuration has an output directory that does not lead into the schema directory.
-/
theorem Config.not_inside_of_accepted {c : Config} {cwd : Text} (hcwd : Path.isAbsolute cwd = true)
    (h : c.fault? cwd = none) : c.outDir ≠ [] ∧ ¬ Path.Inside cwd c.schemaDir c.outDir := by
  unfold fault? at h
  split at h
  · cases h
  split at h
  · cases h
  rename_i hout
  split at h
  · cases h
  rename_i hnests
  exact ⟨by simpa using hout, fun h => hnests ((nests_eq_true hcwd).2 h)⟩

/-- Under an accepted configuration, a target lies in the schema directory exactly if the output
directory is above that and the name of the output starts with the rest of the way. Where no target
does and no database is there, the schema directory is loaded after a build as it was before. -/
theorem build_spares_schema {c : Config} {cwd : Text} {w : Workspace} {files : List SchemaFile}
    (hcwd : Path.isAbsolute cwd = true) (haccepted : c.fault? cwd = none)
    (htree : w.tree.WellFormed)
    (hfiles : loadDir w.tree cwd c.schemaDir = .ok files ∨
      ∃ names, loadFiles w.tree cwd names = .ok files) :
    (∀ f ∈ files, Path.Inside cwd c.schemaDir (outputTarget c.outDir f.path) ↔
      ∃ way, Path.place cwd c.schemaDir = Path.place cwd c.outDir ++ way ∧
        way <+: Path.steps (outputPath f.path)) ∧
    ((∀ f ∈ files, ¬ Path.Inside cwd c.schemaDir (outputTarget c.outDir f.path)) →
      w.StoreOutside (Path.place cwd c.schemaDir) →
      ∀ o id now loaded, o.outDir = c.outDir → loadDir w.tree cwd c.schemaDir = .ok loaded →
        loadDir (build w cwd o files id now).2.tree cwd c.schemaDir = .ok loaded) := by
  obtain ⟨hout, hinside⟩ := Config.not_inside_of_accepted hcwd haccepted
  refine ⟨fun f hf => ?_, fun htargets hstore o id now loaded ho hloaded => ?_⟩
  · have hdown : Path.up ∉ Path.steps (outputPath f.path) := by
      rcases hfiles with h | ⟨names, h⟩
      · exact up_not_mem_of_loadDir htree h hf
      · obtain ⟨p, hpath, hread⟩ := mem_loadFiles h hf
        rw [hpath]
        exact Path.up_not_mem_steps_outputPath_clean (getLast?_steps_of_read htree hcwd hread)
    rw [Path.Inside, Path.place_outputTarget hcwd hout hdown]
    constructor
    · intro hprefix
      -- Of two beginnings of the target, the schema directory is the longer one.
      rcases List.prefix_or_prefix_of_prefix hprefix (List.prefix_append _ _) with h | ⟨way, h⟩
      · exact absurd h hinside
      · rw [← h, List.prefix_append_right_inj] at hprefix
        exact ⟨way, h.symm, hprefix⟩
    · rintro ⟨way, heq, hway⟩
      rw [heq, List.prefix_append_right_inj]
      exact hway
  · rw [← ho] at htargets
    exact loadDir_of_spares hcwd htree.named (spares_build hcwd htargets w id now hstore).1 hloaded

/-- A schema directory that holds a directory of its own name. -/
def repeatedName : Workspace :=
  { tree := ⟨[([lit "p"], .directory), ([lit "p", lit "schema"], .directory),
      ([lit "p", lit "schema", lit "schema"], .directory),
      ([lit "p", lit "schema", lit "schema", lit "a.js"],
        .file (lit "cube('A', \x7b sql: CUBE \x7d)"))]⟩ }

/-- The configuration with a given output directory. -/
def outputsTo (outDir : Text) : Config :=
  { schemaDir := lit "schema", outDir, concurrency := 1, output := lit "text" }

/-- The one file that it holds. -/
theorem loadDir_repeatedName : loadDir repeatedName.tree (lit "/p") (lit "schema") =
    .ok [⟨lit "schema/a.js", lit "cube('A', \x7b sql: CUBE \x7d)"⟩] := by
  refine eq_ok_of_toOption ?_
  decide +kernel

/-- With the outputs beside the schema directory, a build leaves the schema files as they are. -/
theorem repeatedName_spared : ∃ files,
    loadDir repeatedName.tree (lit "/p") (lit "schema") = .ok files ∧
    loadDir (build repeatedName (lit "/p") ⟨{}, lit "dist", false⟩ files [] 0).2.tree (lit "/p")
      (lit "schema") = .ok files := by
  have hspares := (build_spares_schema (c := outputsTo (lit "dist")) (w := repeatedName)
    (show Path.isAbsolute (lit "/p") = true by decide) (by decide +kernel) (by decide +kernel)
    (.inl loadDir_repeatedName)).2
  refine ⟨_, loadDir_repeatedName, hspares (fun f hf => ?_) (fun s q hs => by cases hs)
    ⟨{}, lit "dist", false⟩ [] 0 _ rfl loadDir_repeatedName⟩
  obtain rfl := List.mem_singleton.1 hf
  decide +kernel

/-- With the outputs above the schema directory, an accepted configuration makes a build write its
output among the schema files, where the next one finds it. -/
theorem repeatedName_read_back : (outputsTo (lit ".")).fault? (lit "/p") = none ∧
    repeatedName.tree.WellFormed ∧ ∃ files,
      loadDir repeatedName.tree (lit "/p") (lit "schema") = .ok files ∧
      (∃ f ∈ files, Path.Inside (lit "/p") (lit "schema") (outputTarget (lit ".") f.path)) ∧
      loadDir (build repeatedName (lit "/p") ⟨{}, lit ".", false⟩ files [] 0).2.tree (lit "/p")
        (lit "schema") ≠ .ok files := by
  refine ⟨by decide +kernel, by decide +kernel, _, loadDir_repeatedName,
    ⟨_, List.mem_singleton.2 rfl, by decide +kernel⟩, fun hload => ?_⟩
  -- The directory holds two files now.
  have hwalk := eq_ok_of_toOption (show ((build repeatedName (lit "/p") ⟨{}, lit ".", false⟩
    [⟨lit "schema/a.js", lit "cube('A', \x7b sql: CUBE \x7d)"⟩] [] 0).2.tree.walk (lit "/p")
      (lit "schema")).toOption = some (.found [lit "p", lit "schema"] .directory) by decide +kernel)
  have hlength := length_of_loadDir hwalk hload
  rw [waysBelow, List.length_mergeSort] at hlength
  exact absurd hlength (by decide +kernel)

end CubeSchema
