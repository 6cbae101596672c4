import CubeSchema.Proofs.Output.Targets
import CubeSchema.Proofs.Output.Transparency

/-!
# Outputs that share a target

Two files have one target exactly if `outputPath` makes one name of both. It shortens only names
that start at the root or lead up, so files that were found in a directory never share a target,
and files that were given by name may. Of the outputs that share a target, the last one stands there
in the end: a digest in the store is always that of an output that still stands at its target
(`DigestsHeld`), and what has been written stays until the same target is written again.
-/

namespace CubeSchema

open FileTree SchemaFile

/-! ## Names that go down -/

namespace Path

/-- A name that goes down is told by its steps. -/
theorem GoesDown.eq_of_steps {p q : Text} (hp : GoesDown p) (hq : GoesDown q)
    (h : steps p = steps q) : p = q := by
  rw [← hp.cleaned, ← hq.cleaned, clean, clean, hp.relative, hq.relative, h]

/-- A component that does not go up is a name that goes down. -/
theorem goesDown_component {c : Text} (hne : c ≠ []) (hslash : slash ∉ c) (hup : c ≠ up) :
    GoesDown c := by
  by_cases hhere : c = here
  · rw [hhere]
    exact ⟨by decide, by decide, by decide⟩
  · have hname : ∀ d ∈ [c], IsName d := by simpa using ⟨hne, hslash, hhere, hup⟩
    exact goesDown_join (List.cons_ne_nil c []) hname

/-- The last component of a name goes down, unless there is none or it is a step up. -/
theorem goesDown_base {p : Text} (hp : components p ≠ []) (hdown : up ∉ steps (base p)) :
    GoesDown (base p) := by
  obtain ⟨c, hlast⟩ := Option.ne_none_iff_exists'.1 (mt List.getLast?_eq_none_iff.1 hp)
  obtain ⟨hne, hslash⟩ := mem_components (List.mem_of_getLast? hlast)
  unfold base at hdown ⊢
  split
  · exact ⟨by decide, by decide, by decide⟩
  · rename_i hempty
    rw [if_neg hempty, hlast] at hdown
    rw [hlast]
    refine goesDown_component hne hslash ?_
    rintro rfl
    exact hdown (by decide)

/-- A name that goes down leads on from the directory it is joined to. -/
theorem place_join_down {cwd : Text} (hcwd : isAbsolute cwd = true) (dir : Text) {q : Text}
    (h : GoesDown q) : place cwd (join [dir, q]) = place cwd dir ++ steps q := by
  have hdown : ∀ place, going place (components q) = place ++ steps q := fun place => by
    rw [← going_steps (by simp [h.relative]), going_steps_down h.down]
  by_cases hdir : dir = []
  · have hq : q ≠ [] := by
      rintro rfl
      exact absurd h.cleaned (by decide)
    rw [hdir, join_nil, if_neg hq, h.cleaned, place_eq hcwd, place_eq hcwd, hdown]
    simp [FileTree.origin, h.relative, show components [] = [] from rfl,
      show isAbsolute [] = false from rfl]
  · rw [place_join hcwd hdir, hdown]

end Path

/-! ## Names of outputs -/

/-- Two targets are the same, and at the same place, exactly if the names of the outputs are the
same. -/
theorem outputTarget_eq_iff {cwd : Text} (hcwd : Path.isAbsolute cwd = true) {p q : Text}
    (hp : Path.GoesDown (outputPath p)) (hq : Path.GoesDown (outputPath q)) (outDir : Text) :
    (Path.place cwd (outputTarget outDir p) = Path.place cwd (outputTarget outDir q) ↔
      outputPath p = outputPath q) ∧
    (outputTarget outDir p = outputTarget outDir q ↔ outputPath p = outputPath q) := by
  have hplace : Path.place cwd (outputTarget outDir p) = Path.place cwd (outputTarget outDir q) →
      outputPath p = outputPath q := by
    intro h
    rw [outputTarget, outputTarget, Path.place_join_down hcwd outDir hp,
      Path.place_join_down hcwd outDir hq] at h
    exact hp.eq_of_steps hq (List.append_cancel_left h)
  have hsame : outputPath p = outputPath q → outputTarget outDir p = outputTarget outDir q :=
    fun h => by rw [outputTarget, outputTarget, h]
  exact ⟨⟨hplace, fun h => by rw [hsame h]⟩, fun h => hplace (by rw [h]), hsame⟩

namespace SchemaFile

variable {t : FileTree} {cwd : Text} {files : List SchemaFile}

/-- What can be read is not the root, so its name has components. -/
theorem components_clean_ne_nil_of_read (hcwd : Path.isAbsolute cwd = true) {p source : Text}
    (h : t.read cwd p = .ok source) : Path.components (Path.clean p) ≠ [] := by
  rw [Path.components_clean]
  split
  · exact List.cons_ne_nil _ _
  · rename_i hroot
    intro hsteps
    have habsolute : Path.isAbsolute p = true := by simpa [hsteps] using hroot
    obtain ⟨q, e, hfile, hwalk⟩ := walk_of_read h
    obtain ⟨hplace, hentry⟩ : q = Path.place cwd p ∧ t.at? q = some e :=
      follow_place hcwd (walk_eq_ok hwalk)
    rw [hplace, Path.place, Path.absolute, if_pos habsolute, Path.steps_clean, hsteps] at hentry
    exact hfile (Option.some.inj (hentry.symm.trans (show t.at? [] = some .directory from rfl)))

/-- The output of a file that could be read has a name that goes down. -/
theorem goesDown_of_read (ht : t.WellFormed) (hcwd : Path.isAbsolute cwd = true) {p source : Text}
    (h : t.read cwd p = .ok source) : Path.GoesDown (outputPath (Path.clean p)) := by
  have hdown := Path.up_not_mem_steps_outputPath_clean (getLast?_steps_of_read ht hcwd h)
  by_cases hcollapses : Collapses (Path.clean p)
  · rw [show outputPath (Path.clean p) = Path.base (Path.clean p) from if_pos hcollapses] at hdown ⊢
    exact Path.goesDown_base (components_clean_ne_nil_of_read hcwd h) hdown
  · rw [outputPath_of_not_collapses hcollapses] at hdown ⊢
    have hrelative : Path.isAbsolute (Path.clean p) = false := by
      unfold Collapses at hcollapses
      simp_all
    exact ⟨hrelative, Path.clean_clean p, hdown⟩

/-- The output of every loaded file has a name that goes down. -/
theorem goesDown_of_loaded (ht : t.WellFormed) (hcwd : Path.isAbsolute cwd = true)
    (h : (∃ dir, loadDir t cwd dir = .ok files) ∨ ∃ names, loadFiles t cwd names = .ok files)
    {f : SchemaFile} (hf : f ∈ files) : Path.GoesDown (outputPath f.path) := by
  obtain ⟨dir, h⟩ | ⟨names, h⟩ := h
  · obtain ⟨hdown, hkept⟩ := goesDown_of_loadDir ht h hf
    rwa [outputPath_of_not_collapses hkept]
  · obtain ⟨p, hpath, hread⟩ := mem_loadFiles h hf
    exact hpath ▸ goesDown_of_read ht hcwd hread

end SchemaFile

/-! ## What stands at a target -/

/-- A file with some content is found at a name. -/
def FileTree.Holds (t : FileTree) (cwd name content : Text) : Prop :=
  t.contains cwd name = true ∧ t.at? (Path.place cwd name) = some (.file content)

theorem FileTree.Holds.read {t : FileTree} {cwd name content : Text}
    (hcwd : Path.isAbsolute cwd = true) (h : t.Holds cwd name content) :
    t.read cwd name = .ok content := by
  obtain ⟨hcontains, hfile⟩ := h
  unfold contains stat at hcontains
  split at hcontains
  · rename_i place e hwalk
    obtain ⟨hplace, hentry⟩ : place = Path.place cwd name ∧ t.at? place = some e :=
      follow_place hcwd (walk_eq_ok hwalk)
    rw [hplace, hfile] at hentry
    obtain rfl := Option.some.inj hentry
    unfold FileTree.read openFile stat
    rw [hwalk]
    rfl
  · cases hcontains
  · cases hcontains

/-- Every digest in the store is that of an output that has been written and still stands at its
target. -/
def DigestsHeld (cwd : Text) (done : List (Text × Text)) (w : Workspace) : Prop :=
  ∀ s h, w.store = some s → s.reached? w.tree = some h → ∀ target, h.hashOf target ≠ [] →
    ∃ source, (target, source) ∈ done ∧ Sha256.hexDigest source = h.hashOf target ∧
      w.tree.at? (Path.place cwd target) = some (.file source)

namespace Workspace.Outcome

variable {cwd target source : Text} {w w' : Workspace} {d : Disposition}
  {done : List (Text × Text)} (hcwd : Path.isAbsolute cwd = true)
  (ho : Outcome cwd target source w d w')

include hcwd ho

/-- Every output keeps the digests in step with what stands at the targets, as long as different
targets have different places. -/
theorem digestsHeld (h : DigestsHeld cwd done w)
    (hplaces : ∀ x ∈ done, Path.place cwd x.1 = Path.place cwd target → x.1 = target) :
    DigestsHeld cwd (done ++ [(target, source)]) w' := by
  intro s' hist' hs' hh' name hname
  cases ho with
  | skipped _ _ _ _ =>
    obtain ⟨content, hmem, hhash, hfile⟩ := h s' hist' hs' hh' name hname
    exact ⟨content, List.mem_append_left _ hmem, hhash, hfile⟩
  | plain _ _ _ => cases hs'
  | @stored s s₁ t u v hs ht hu hv =>
    obtain rfl := Option.some.inj hs'
    -- Only this digest has changed in the history, and only this file in the tree.
    obtain ⟨halike, hist, hh, hh₁⟩ := digests_of_stored hcwd ht hu hv
    obtain rfl := Option.some.inj (hh₁.symm.trans hh')
    rw [History.hashOf_setHash] at hname ⊢
    split at hname
    · rename_i heq
      rw [if_pos heq, heq]
      exact ⟨source, List.mem_append_right _ (List.mem_singleton.2 rfl), rfl,
        (halike _).eq_file.2 (at?_of_written hcwd ht hu).2.2.2⟩
    · rename_i hne
      obtain ⟨content, hmem, hhash, hfile⟩ := h s hist hs hh name hname
      have hplace : Path.place cwd name ≠ Path.place cwd target :=
        fun hplace => hne (hplaces _ hmem hplace)
      rw [if_neg hne]
      exact ⟨content, List.mem_append_left _ hmem, hhash,
        (halike _).eq_file.2 ((at?_of_written hcwd ht hu).2.1 _ hplace _ hfile)⟩

/-- After an output its target holds the source, unless another source with its digest was left
there. -/
theorem holds (h : DigestsHeld cwd done w)
    (hdigest : ∀ x ∈ done, x.1 = target → Sha256.hexDigest x.2 = Sha256.hexDigest source →
      x.2 = source) : w'.tree.Holds cwd target source := by
  cases ho with
  | skipped hs hh hhash hthere =>
    have hne : _ ≠ [] := hhash ▸ Sha256.hexDigest_ne_nil source
    obtain ⟨content, hmem, hsame, hfile⟩ := h _ _ hs hh target hne
    obtain rfl := hdigest _ hmem rfl (hsame.trans hhash)
    exact ⟨hthere, hfile⟩
  | plain _ ht hu => exact ⟨contains_of_write hcwd hu, (at?_of_written hcwd ht hu).2.2.2⟩
  | stored _ ht hu hv =>
    obtain ⟨halike, -⟩ := digests_of_stored hcwd ht hu hv
    refine ⟨?_, (halike _).eq_file.2 (at?_of_written hcwd ht hu).2.2.2⟩
    rw [halike.contains_eq]
    exact contains_of_write hcwd hu

/-- What another name holds stays there. -/
theorem holds_other {name content : Text} (hplace : Path.place cwd name ≠ Path.place cwd target)
    (h : w.tree.Holds cwd name content) : w'.tree.Holds cwd name content := by
  cases ho with
  | skipped _ _ _ _ => exact h
  | plain _ ht hu =>
    exact ⟨contains_of_written hcwd ht hu hplace h.1,
      (at?_of_written hcwd ht hu).2.1 _ hplace _ h.2⟩
  | stored _ ht hu hv =>
    obtain ⟨halike, -⟩ := digests_of_stored hcwd ht hu hv
    refine ⟨?_, (halike _).eq_file.2 ((at?_of_written hcwd ht hu).2.1 _ hplace _ h.2)⟩
    rw [halike.contains_eq]
    exact contains_of_written hcwd ht hu hplace h.1

end Workspace.Outcome

/-! ## A whole call -/

namespace OutputCall

variable {cwd outDir : Text} (hcwd : Path.isAbsolute cwd = true)

include hcwd

/-- What a name holds stays there when outputs of other places are written. -/
theorem holds_of_run {outputs : List (Text × Text)} {w : Workspace} {name content : Text}
    (hok : (run (Workspace.site cwd false) ⟨outDir, outputs⟩ w).1.failure = none)
    (hplaces : ∀ x ∈ outputs, Path.place cwd name ≠ Path.place cwd (outputTarget outDir x.1))
    (h : w.tree.Holds cwd name content) :
    (run (Workspace.site cwd false) ⟨outDir, outputs⟩ w).2.tree.Holds cwd name content := by
  induction outputs generalizing w with
  | nil => exact h
  | cons x outputs ih =>
    obtain ⟨path, source⟩ := x
    obtain ⟨d, w₁, ho, hrest, hrun⟩ := run_cons hok
    have hrun := hrun outputs.length
    rw [List.take_length] at hrun
    obtain ⟨hplace, hplaces⟩ := List.forall_mem_cons.1 hplaces
    rw [hrun]
    exact ih hrest hplaces (ho.holds_other hcwd hplace h)

/-- Where a call stands when the first of its outputs have been written. -/
theorem exists_midway {front back done : List (Text × Text)} {w : Workspace} {names : List Text}
    (hnames : ∀ a ∈ names, ∀ b ∈ names, Path.place cwd a = Path.place cwd b → a = b)
    (htargets : ∀ x ∈ front, outputTarget outDir x.1 ∈ names) (hdone : ∀ x ∈ done, x.1 ∈ names)
    (hok : (run (Workspace.site cwd false) ⟨outDir, front ++ back⟩ w).1.failure = none)
    (h : DigestsHeld cwd done w) :
    ∃ w₁, DigestsHeld cwd (done ++ front.map fun x => (outputTarget outDir x.1, x.2)) w₁ ∧
      (run (Workspace.site cwd false) ⟨outDir, back⟩ w₁).1.failure = none ∧
      (run (Workspace.site cwd false) ⟨outDir, front ++ back⟩ w).2 =
        (run (Workspace.site cwd false) ⟨outDir, back⟩ w₁).2 := by
  induction front generalizing w done with
  | nil => exact ⟨w, by simpa using h, hok, rfl⟩
  | cons x front ih =>
    obtain ⟨path, source⟩ := x
    obtain ⟨htarget, htargets⟩ := List.forall_mem_cons.1 htargets
    rw [List.cons_append] at hok
    obtain ⟨d, w₁, ho, hrest, hrun⟩ := run_cons hok
    have hrun := hrun (front ++ back).length
    rw [List.take_length] at hrun
    -- Every digest in the store is still that of an output of which the file stands there.
    have hheld := ho.digestsHeld hcwd h fun x hx => hnames _ (hdone x hx) _ htarget
    have hdone' : ∀ x ∈ done ++ [(outputTarget outDir path, source)], x.1 ∈ names := by
      simp only [List.mem_append, List.mem_singleton]
      rintro x (hx | rfl)
      · exact hdone x hx
      · exact htarget
    obtain ⟨w₂, hheld₂, hback, hsame⟩ := ih htargets hdone' hrest hheld
    refine ⟨w₂, ?_, hback, ?_⟩
    · rwa [List.append_assoc, List.singleton_append] at hheld₂
    · rw [List.cons_append, hrun, hsame]

/-- In the end the target of an output holds its source, if no later output has that target and no
earlier one has it with another source of the same digest. -/
theorem holds_of_last {front back : List (Text × Text)} {path source : Text} {w : Workspace}
    {names : List Text}
    (hnames : ∀ a ∈ names, ∀ b ∈ names, Path.place cwd a = Path.place cwd b → a = b)
    (htargets : ∀ x ∈ front ++ (path, source) :: back, outputTarget outDir x.1 ∈ names)
    (hempty : DigestsHeld cwd [] w)
    (hok : (run (Workspace.site cwd false) ⟨outDir, front ++ (path, source) :: back⟩ w).1.failure =
      none)
    (hlast : ∀ x ∈ back, outputTarget outDir x.1 ≠ outputTarget outDir path)
    (hdigest : ∀ x ∈ front, outputTarget outDir x.1 = outputTarget outDir path →
      Sha256.hexDigest x.2 = Sha256.hexDigest source → x.2 = source) :
    (run (Workspace.site cwd false) ⟨outDir, front ++ (path, source) :: back⟩ w).2.tree.Holds cwd
      (outputTarget outDir path) source := by
  have hfront := fun x hx => htargets x (List.mem_append_left _ hx)
  have hback := fun x hx => htargets x (List.mem_append_right _ hx)
  obtain ⟨w₁, hheld, hrest, hsame⟩ := exists_midway hcwd hnames hfront (by simp) hok hempty
  obtain ⟨d, w₂, ho, hrest, hrun⟩ := run_cons hrest
  have hrun := hrun back.length
  rw [List.take_length] at hrun
  rw [hsame, hrun]
  refine holds_of_run hcwd hrest (fun x hx hplace => ?_) (ho.holds hcwd hheld ?_)
  · -- A later output at the same place would have the same target.
    exact hlast x hx (hnames _ (hback _ (List.mem_cons_self ..)) _
      (hback x (List.mem_cons_of_mem _ hx)) hplace).symm
  · rintro x hx
    obtain ⟨y, hy, rfl⟩ := List.mem_map.1 hx
    exact hdigest y hy

end OutputCall

/-- A call that has been called off writes nothing. -/
theorem not_cancelled_of_success {cwd outDir : Text} {outputs : List (Text × Text)} {w : Workspace}
    {cancelled : Bool} (hne : outputs ≠ [])
    (h : (OutputCall.run (Workspace.site cwd cancelled) ⟨outDir, outputs⟩ w).1.failure = none) :
    cancelled = false := by
  obtain ⟨⟨path, source⟩, outputs, rfl⟩ := List.exists_cons_of_ne_nil hne
  cases cancelled with
  | false => rfl
  | true =>
    have hfirst : (writeOutput (Workspace.site cwd true) (outputTarget outDir path) source).run.run
        w = (.error .cancelled, w) := rfl
    rw [OutputCall.run, writeOutputs_cons_error hfirst] at h
    cases h

/-- In the end the target of an output holds its source, if no later output has that target and no
earlier one has it with another source of the same digest. -/
theorem read_of_last {cwd outDir : Text} {c : Compilation} {w : Workspace} {cancelled : Bool}
    (hcwd : Path.isAbsolute cwd = true)
    (hdown : ∀ out ∈ c.outputs, Path.GoesDown (outputPath out.path))
    (hempty : ∀ s h, w.store = some s → s.reached? w.tree = some h → ∀ p, h.hashOf p = [])
    (hok : (c.write w cwd outDir cancelled).1.failure = none)
    {before after : List CompiledFile} {out : CompiledFile}
    (heq : c.outputs = before ++ out :: after)
    (hlast : ∀ later ∈ after, outputTarget outDir later.path ≠ outputTarget outDir out.path)
    (hdigest : ∀ earlier ∈ before,
      outputTarget outDir earlier.path = outputTarget outDir out.path →
      Sha256.hexDigest earlier.source = Sha256.hexDigest out.source →
        earlier.source = out.source) :
    (c.write w cwd outDir cancelled).2.tree.read cwd (outputTarget outDir out.path) =
      .ok out.source := by
  have hlist : c.outputs.map (fun o => (o.path, o.source)) =
      before.map (fun o => (o.path, o.source)) ++
        (out.path, out.source) :: after.map (fun o => (o.path, o.source)) := by
    rw [heq, List.map_append, List.map_cons]
  obtain rfl : cancelled = false := by
    refine not_cancelled_of_success ?_ hok
    simp [heq]
  -- Different targets have different places, as their names go down from one directory.
  have hnames : ∀ a ∈ c.outputs.map fun o => outputTarget outDir o.path,
      ∀ b ∈ c.outputs.map fun o => outputTarget outDir o.path,
        Path.place cwd a = Path.place cwd b → a = b := by
    simp only [List.forall_mem_map]
    intro o ho o' ho' hplace
    obtain ⟨hplaces, htargets⟩ := outputTarget_eq_iff hcwd (hdown o ho) (hdown o' ho') outDir
    exact htargets.2 (hplaces.1 hplace)
  unfold Compilation.write Compilation.writeBy at hok ⊢
  rw [hlist] at hok ⊢
  refine (OutputCall.holds_of_last hcwd hnames ?_ ?_ hok ?_ ?_).read hcwd
  · rw [← hlist]
    simp only [List.forall_mem_map]
    exact fun o ho => List.mem_map.2 ⟨o, ho, rfl⟩
  · exact fun s h hs hh target htarget => absurd (hempty s h hs hh target) htarget
  · simpa only [List.forall_mem_map] using hlast
  · simpa only [List.forall_mem_map] using hdigest

/-- An output is lost only where a later one has its target. Different files share a target exactly
if the names of their outputs are the same, which takes a name that is shortened, and no file that
was found in a directory has one. -/
theorem last_outputs_stand {t t' : FileTree} {cwd outDir : Text} {o : CompileOptions}
    {files : List SchemaFile} {c : Compilation} {w : Workspace} {cancelled : Bool}
    (hcwd : Path.isAbsolute cwd = true) (ht : t.WellFormed)
    (hload : (∃ dir, loadDir t cwd dir = .ok files) ∨ ∃ names, loadFiles t cwd names = .ok files)
    (hcompile : compile t' cwd o files = .ok c)
    (hempty : ∀ s h, w.store = some s → s.reached? w.tree = some h → ∀ p, h.hashOf p = [])
    (hok : (c.write w cwd outDir cancelled).1.failure = none) :
    (∀ f ∈ files, ∀ g ∈ files, f.path ≠ g.path →
      (outputTarget outDir f.path = outputTarget outDir g.path ↔
        outputPath f.path = outputPath g.path) ∧
      (outputPath f.path = outputPath g.path → Collapses f.path ∨ Collapses g.path)) ∧
    (∀ before out after, c.outputs = before ++ out :: after →
      (∀ later ∈ after, outputTarget outDir later.path ≠ outputTarget outDir out.path) →
      (∀ earlier ∈ before, outputTarget outDir earlier.path = outputTarget outDir out.path →
        Sha256.hexDigest earlier.source = Sha256.hexDigest out.source →
          earlier.source = out.source) →
      (c.write w cwd outDir cancelled).2.tree.read cwd (outputTarget outDir out.path) =
        .ok out.source) ∧
    ((files.map SchemaFile.path).Nodup → (∀ f ∈ files, ¬ Collapses f.path) →
      ∀ out ∈ c.outputs, (c.write w cwd outDir cancelled).2.tree.read cwd
        (outputTarget outDir out.path) = .ok out.source) ∧
    ((∃ dir, loadDir t cwd dir = .ok files) → ∀ f ∈ files, ¬ Collapses f.path) := by
  have hdown := fun f hf => goesDown_of_loaded ht hcwd hload (f := f) hf
  have hdown' : ∀ out ∈ c.outputs, Path.GoesDown (outputPath out.path) := by
    intro out hout
    obtain ⟨f, hf, hpath⟩ := exists_path_of_compile hcompile hout
    exact hpath ▸ hdown f hf
  refine ⟨fun f hf g hg hne => ⟨(outputTarget_eq_iff hcwd (hdown f hf) (hdown g hg) outDir).2, ?_⟩,
    fun before out after heq => read_of_last hcwd hdown' hempty hok heq,
    fun hnodup hkept out hout => ?_, ?_⟩
  · intro hsame
    by_contra hneither
    rw [not_or] at hneither
    rw [outputPath_of_not_collapses hneither.1, outputPath_of_not_collapses hneither.2] at hsame
    exact hne hsame
  · -- All targets are different, so every output is the last one that has its target.
    obtain ⟨before, after, heq⟩ := List.append_of_mem hout
    have hpath : ∀ other ∈ c.outputs, outputPath other.path = other.path := by
      intro other hother
      obtain ⟨f, hf, hpath⟩ := exists_path_of_compile hcompile hother
      rw [hpath, outputPath_of_not_collapses (hkept f hf)]
    have htarget : ∀ other ∈ c.outputs, outputTarget outDir other.path =
        outputTarget outDir out.path → other.path = out.path := by
      intro other hother h
      have h := (outputTarget_eq_iff hcwd (hdown' other hother) (hdown' out hout) outDir).2.1 h
      rwa [hpath other hother, hpath out hout] at h
    rw [← map_path_of_compile hcompile, heq, List.map_append, List.map_cons] at hnodup
    obtain ⟨-, hafter, hbefore⟩ := List.nodup_append.1 hnodup
    refine read_of_last hcwd hdown' hempty hok heq (fun later hlater h => ?_)
      fun earlier hearlier h => ?_
    · have hmem : later ∈ c.outputs :=
        heq ▸ List.mem_append_right _ (List.mem_cons_of_mem _ hlater)
      exact (List.nodup_cons.1 hafter).1 (htarget later hmem h ▸ List.mem_map_of_mem hlater)
    · have hmem : earlier ∈ c.outputs := heq ▸ List.mem_append_left _ hearlier
      exact absurd (htarget earlier hmem h)
        (hbefore _ (List.mem_map_of_mem hearlier) _ (List.mem_cons_self ..))
  · rintro ⟨dir, hdir⟩ f hf
    exact (goesDown_of_loadDir ht hdir hf).2

/-- Two schema files of one name in two directories. -/
def twins : Workspace :=
  { tree := ⟨[([lit "p"], .directory), ([lit "p", lit "a.js"], .file (lit "a")),
      ([lit "p", lit "x"], .directory), ([lit "p", lit "x", lit "a.js"], .file (lit "b"))]⟩ }

/-- The files, the second of which is given by its full name. -/
def twinFiles : List SchemaFile := [⟨lit "a.js", lit "a"⟩, ⟨lit "/p/x/a.js", lit "b"⟩]

theorem loadFiles_twins :
    loadFiles twins.tree (lit "/p") [lit "a.js", lit "/p/x/a.js"] = .ok twinFiles := by
  decide +kernel

/-- Both are compiled and written to one target. -/
theorem compile_twins : ∃ c, compile twins.tree (lit "/p") {} twinFiles = .ok c ∧
    (c.write twins (lit "/p") (lit "out") false).1.failure = none ∧
    c.outputs.map (fun out => (out.path, out.source)) =
      [(lit "a.js", lit "a;\n"), (lit "/p/x/a.js", lit "b;\n")] := by
  have h : (compile twins.tree (lit "/p") {} twinFiles).toOption.any (fun c =>
      decide ((c.write twins (lit "/p") (lit "out") false).1.failure = none ∧
        c.outputs.map (fun out => (out.path, out.source)) =
          [(lit "a.js", lit "a;\n"), (lit "/p/x/a.js", lit "b;\n")])) = true := by
    decide +kernel
  obtain ⟨c, hc, hwritten⟩ := (Option.any_eq_true _ _).1 h
  exact ⟨c, eq_ok_of_toOption hc, of_decide_eq_true hwritten⟩

/-- The output of the file that was given last stands at the target that both have. -/
theorem twins_last_stands : ∃ c, compile twins.tree (lit "/p") {} twinFiles = .ok c ∧
    outputTarget (lit "out") (lit "a.js") = outputTarget (lit "out") (lit "/p/x/a.js") ∧
    (c.write twins (lit "/p") (lit "out") false).2.tree.read (lit "/p")
      (outputTarget (lit "out") (lit "/p/x/a.js")) = .ok (lit "b;\n") := by
  obtain ⟨c, hc, hok, houtputs⟩ := compile_twins
  obtain ⟨hshared, hlast, -⟩ := last_outputs_stand (w := twins) (by decide) (by decide +kernel)
    (.inr ⟨_, loadFiles_twins⟩) hc nofun hok
  obtain ⟨first, rest, hfirst, hpath, hrest⟩ := List.map_eq_cons_iff.1 houtputs
  obtain ⟨second, rest, rfl, hpath', hnil⟩ := List.map_eq_cons_iff.1 hrest
  obtain rfl := List.map_eq_nil_iff.1 hnil
  obtain ⟨-, hsource⟩ := Prod.mk.inj hpath
  obtain ⟨hname, hsource'⟩ := Prod.mk.inj hpath'
  have hread := hlast [first] second [] hfirst (by simp) (by
    intro earlier hearlier _ hdigest
    obtain rfl := List.mem_singleton.1 hearlier
    rw [hsource, hsource'] at hdigest
    exact absurd hdigest (by decide +kernel))
  refine ⟨c, hc, (hshared ⟨lit "a.js", lit "a"⟩ (by decide) ⟨lit "/p/x/a.js", lit "b"⟩ (by decide)
    (by decide)).1.2 (by decide), ?_⟩
  rwa [hname, hsource'] at hread

/-- Without a failure, and without any digest stored before, the first of the two outputs is lost:
the names of the files are different, and their targets are the same. -/
theorem twins_first_lost : twins.tree.WellFormed ∧
    loadFiles twins.tree (lit "/p") [lit "a.js", lit "/p/x/a.js"] = .ok twinFiles ∧
    (twinFiles.map SchemaFile.path).Nodup ∧ twins.store = none ∧
    ∃ c, compile twins.tree (lit "/p") {} twinFiles = .ok c ∧
      (c.write twins (lit "/p") (lit "out") false).1.failure = none ∧
      ∃ out ∈ c.outputs, (c.write twins (lit "/p") (lit "out") false).2.tree.read (lit "/p")
        (outputTarget (lit "out") out.path) ≠ .ok out.source := by
  have h : (compile twins.tree (lit "/p") {} twinFiles).toOption.any (fun c =>
      decide ((c.write twins (lit "/p") (lit "out") false).1.failure = none ∧
        ∃ out ∈ c.outputs, (c.write twins (lit "/p") (lit "out") false).2.tree.read (lit "/p")
          (outputTarget (lit "out") out.path) ≠ .ok out.source)) = true := by
    decide +kernel
  obtain ⟨c, hc, hlost⟩ := (Option.any_eq_true _ _).1 h
  exact ⟨by decide +kernel, loadFiles_twins, by decide, rfl, c, eq_ok_of_toOption hc,
    of_decide_eq_true hlost⟩

end CubeSchema
