import CubeSchema.Command.Transpile
import CubeSchema.Proofs.Compilation.FileOrder
import CubeSchema.Proofs.History.Sequences
import CubeSchema.Proofs.Output.Transparency

/-!
# Every run is accounted for

A call that builds once is one run of the history. Between its start and its end outputs are
written, by actions that may fail at any time and of which nothing else is assumed than that each
does not more than it is for (`OutputSite.Confined`). None of them touches a run, and neither does
what is put together of them (`sameRuns_emit`). So at the end there is one more run, and it says
what became of the call (`transpileOnce_accounted`).
-/

namespace CubeSchema

/-! ## Actions that do not touch runs -/

namespace Workspace

/-- Files and directories may have changed, but no database has been made or changed. -/
def ChangesFiles (w w' : Workspace) : Prop :=
  w'.store = w.store ∧
    ∀ p d, w'.tree.at? p = some (.database d) → w.tree.at? p = some (.database d)

/-- Nothing but the digest of a target may have been stored. -/
def Remembers (target hash : Text) (w w' : Workspace) : Prop :=
  w' = w ∨ ∃ s s' t cancelled, w.store = some s ∧
    s.setOutputHash w.tree cancelled target hash = .ok (s', t) ∧ w' = ⟨t, some s'⟩

/-- The runs that can be reached are those of before. -/
def SameRuns (w w' : Workspace) : Prop :=
  w'.store.isSome = w.store.isSome ∧
    ∀ s' h', w'.store = some s' → s'.reached? w'.tree = some h' →
      ∃ s h, w.store = some s ∧ s.reached? w.tree = some h ∧ h'.runs = h.runs

theorem isGradual_sameRuns : IsGradual SameRuns where
  refl _ := ⟨rfl, fun s h hs hh => ⟨s, h, hs, hh, rfl⟩⟩
  trans := by
    rintro w w' w'' ⟨hstore, hruns⟩ ⟨hstore', hruns'⟩
    refine ⟨hstore'.trans hstore, fun s'' h'' hs'' hh'' => ?_⟩
    obtain ⟨s', h', hs', hh', heq'⟩ := hruns' s'' h'' hs'' hh''
    obtain ⟨s, h, hs, hh, heq⟩ := hruns s' h' hs' hh'
    exact ⟨s, h, hs, hh, heq'.trans heq⟩

theorem ChangesFiles.sameRuns {w w' : Workspace} (h : ChangesFiles w w') : SameRuns w w' := by
  obtain ⟨hstore, hold⟩ := h
  refine ⟨by rw [hstore], fun s' h' hs' hh' => ?_⟩
  exact ⟨s', h', hstore ▸ hs', Store.reached?_of_no_new hold hh', rfl⟩

theorem Remembers.sameRuns {target hash : Text} {w w' : Workspace}
    (h : Remembers target hash w w') : SameRuns w w' := by
  obtain rfl | ⟨s, s', t, cancelled, hs, hset, rfl⟩ := h
  · exact isGradual_sameRuns.refl w'
  obtain ⟨h, hh, hh', -⟩ := Store.setOutputHash_eq_ok hset
  refine ⟨by rw [hs]; rfl, fun s'' h'' hs'' hh'' => ⟨s, h, hs, hh, ?_⟩⟩
  obtain rfl := Option.some.inj hs''
  obtain rfl := Option.some.inj (hh'.symm.trans hh'')
  rfl

end Workspace

open Workspace

/-- No action of a site does more than it is for, whether it fails or not: looking changes nothing,
making a directory and writing a file leave all databases alone, and storing a digest stores nothing
else. -/
structure OutputSite.Confined (site : OutputSite (ExceptT Failure (StateM Workspace))) : Prop where
  /-- Asking whether to go on changes nothing. -/
  proceed : Keeps (fun w w' => w' = w) site.proceed
  /-- Looking up a digest changes nothing. -/
  lookUp (target : Text) : Keeps (fun w w' => w' = w) (site.lookUp target)
  /-- Looking for a target changes nothing. -/
  holds (target : Text) : Keeps (fun w w' => w' = w) (site.holds target)
  /-- Making a directory leaves all databases alone. -/
  makeDirs (dir : Text) : Keeps ChangesFiles (site.makeDirs dir)
  /-- Writing a target makes no database and changes none. -/
  write (target source : Text) : Keeps ChangesFiles (site.write target source)
  /-- Storing a digest stores nothing else. -/
  remember (target hash : Text) : Keeps (Remembers target hash) (site.remember target hash)

/-- The actions in a workspace are confined. -/
theorem Workspace.confined_site {cwd : Text} (hcwd : Path.isAbsolute cwd = true)
    (cancelled : Bool) : (Workspace.site cwd cancelled).Confined where
  proceed w := by
    unfold site
    dsimp only
    split
    · exact ensures_throw rfl
    · exact ensures_pure rfl
  lookUp target w := by
    refine ensures_get_bind ?_
    split
    · exact ensures_pure rfl
    · split
      · exact ensures_throw rfl
      · exact ensures_pure rfl
  holds target w := ensures_get_bind (ensures_pure rfl)
  makeDirs dir w := by
    refine ensures_onTree (fun t => t.makeDirs cwd dir) (fun _ => ⟨rfl, fun _ _ h => h⟩) ?_
    intro t ht
    refine ⟨rfl, fun p d hp => ?_⟩
    have hfurnished := FileTree.furnished_of_makeDirs hcwd ht
    rw [show t.at? p = _ from hfurnished.at?_eq p] at hp
    split at hp
    · cases hp
    · exact hp
  write target source w := by
    refine ensures_onTree (fun t => t.write cwd target source) (fun _ => ⟨rfl, fun _ _ h => h⟩) ?_
    intro t ht
    refine ⟨rfl, fun p d hp => ?_⟩
    rw [show t.at? p = _ from (FileTree.at?_of_write hcwd ht).2.2.2 p] at hp
    split at hp
    · cases hp
    · exact hp
  remember target hash w :=
    ensures_onStore (fun s t => s.setOutputHash t cancelled target hash) (fun _ => .inl rfl)
      (fun _ => .inl rfl) fun s s' t hs hset => .inr ⟨s, s', t, cancelled, hs, hset, rfl⟩

/-- Writing an output by confined actions does not touch the runs. -/
theorem OutputSite.Confined.keeps_writeOutput
    {site : OutputSite (ExceptT Failure (StateM Workspace))} (h : site.Confined)
    (target source : Text) : Keeps SameRuns (writeOutput site target source) := by
  have hsame : ∀ w w' : Workspace, w' = w → SameRuns w w' := by
    rintro w _ rfl
    exact isGradual_sameRuns.refl _
  exact CubeSchema.keeps_writeOutput isGradual_sameRuns (h.proceed.mono hsame)
    ((h.lookUp target).mono hsame) ((h.holds target).mono hsame)
    ((h.makeDirs _).mono fun _ _ => ChangesFiles.sameRuns)
    ((h.write target source).mono fun _ _ => ChangesFiles.sameRuns)
    ((h.remember target _).mono fun _ _ => Remembers.sameRuns)

/-! ## Compiling and writing -/

namespace Emission

/-- How a call ends that ends as its work does. -/
def ending (e : Emission) : Except Failure Unit :=
  match e.failure? with
  | none => .ok ()
  | some f => .error f

theorem ending_eq_ok {e : Emission} : e.ending = .ok () ↔ e.failure? = none := by
  unfold ending
  cases e.failure? <;> simp

theorem ending_eq_error {e : Emission} {f : Failure} :
    e.ending = .error f ↔ e.failure? = some f := by
  unfold ending
  cases e.failure? <;> simp

end Emission

section

variable {w : Workspace} {cwd : Text} {o : BuildOptions} {files : List SchemaFile} {course : Course}

/-- What the project is compiled with when the work may have been called off. -/
def BuildOptions.compiledWith (o : BuildOptions) (course : Course) : CompileOptions :=
  { o.compile with cancelled := course.cancelled }

/-- A failure to compile ends the work before anything has been done. -/
theorem emit_of_error {e : CompileError}
    (h : compile w.tree cwd (o.compiledWith course) files = .error e) :
    emit w cwd o files course = (⟨.error e, {}⟩, w) := by
  unfold emit
  rw [show compile w.tree cwd { o.compile with cancelled := course.cancelled } files = _ from h]

theorem emit_of_ok {c : Compilation}
    (h : compile w.tree cwd (o.compiledWith course) files = .ok c) :
    emit w cwd o files course =
      if o.showOnly then (⟨.ok c, { failure := course.unshown }⟩, w)
      else (⟨.ok c, ((c.writeBy course.site o.outDir).run w).1⟩,
        ((c.writeBy course.site o.outDir).run w).2) := by
  unfold emit
  rw [show compile w.tree cwd { o.compile with cancelled := course.cancelled } files = _ from h]
  rfl

variable (w cwd o files)

/-- Compiling and writing do not touch the runs. -/
theorem sameRuns_emit (hsite : course.site.Confined) :
    SameRuns w (emit w cwd o files course).2 := by
  cases h : compile w.tree cwd (o.compiledWith course) files with
  | error e =>
    rw [emit_of_error h]
    exact isGradual_sameRuns.refl w
  | ok c =>
    rw [emit_of_ok h]
    split
    · exact isGradual_sameRuns.refl w
    · exact rel_writeOutputs isGradual_sameRuns (fun x _ => hsite.keeps_writeOutput _ x.2) w

variable (course)

/-- Every file counts, whatever came of it. -/
theorem fileCount_emit :
    (emit w cwd o files course).1.fileCount files.length = files.length := by
  cases h : compile w.tree cwd (o.compiledWith course) files with
  | error e => rw [emit_of_error h, Emission.fileCount]
  | ok c =>
    obtain ⟨-, nodes, manifests, hread, -, rfl⟩ := Compilation.compile_eq_ok.1 h
    rw [emit_of_ok h]
    split <;> exact length_link_outputs hread

/-- Where the outputs are shown, nothing is written. -/
theorem nothing_written (hshow : o.showOnly = true) :
    (emit w cwd o files course).1.report.written = 0 ∧
      (emit w cwd o files course).1.report.skipped = 0 := by
  cases hc : compile w.tree cwd (o.compiledWith course) files with
  | error e =>
    rw [emit_of_error hc]
    exact ⟨rfl, rfl⟩
  | ok c =>
    rw [emit_of_ok hc, if_pos hshow]
    exact ⟨rfl, rfl⟩

/-- Where outputs are written without a failure, each of them counts. -/
theorem count_emit (hshow : o.showOnly = false)
    (h : (emit w cwd o files course).1.failure? = none) :
    (emit w cwd o files course).1.report.written + (emit w cwd o files course).1.report.skipped =
      files.length := by
  rw [← fileCount_emit w cwd o files course]
  cases hc : compile w.tree cwd (o.compiledWith course) files with
  | error e =>
    rw [emit_of_error hc] at h
    cases h
  | ok c =>
    rw [emit_of_ok hc, if_neg (by simp [hshow])] at h ⊢
    let call : OutputCall := ⟨o.outDir, c.outputs.map fun out => (out.path, out.source)⟩
    have hsuccess : (call.run course.site w).1.failure = none := h
    have hcount := OutputCall.count_of_success hsuccess
    rw [List.length_map] at hcount
    exact hcount

end

/-! ## The run of a build -/

/-- A run that has been started and then ended is the last one, and has its outcome. -/
theorem History.runs_finish_started {h h' : History} {id : Text} {started ended : Int}
    (hid : id ∉ h.runs.map Run.id) (hruns : h'.runs = (h.start id started).runs)
    (outcome : RunOutcome) : (h'.finish id ended outcome).runs =
      h.runs ++ [{ id, startedAt := started, completedAt := some ended, outcome }] := by
  rw [finish, hruns, start, List.map_append]
  -- The other runs have other names, so they stay as they are.
  exact congrArg₂ _ (congrArg History.runs (finish_of_not_mem hid ended outcome)) (by simp)

/-- An outcome that is recorded ends a run of the history that is reached. -/
theorem Workspace.finishRun_eq_none {w w' : Workspace} {id : Text} {now : Int}
    {outcome : RunOutcome} (hstore : w.store.isSome = true)
    (h : w.finishRun id now outcome = (none, w')) :
    ∃ s s' hist, w.store = some s ∧ s.reached? w.tree = some hist ∧ w'.store = some s' ∧
      s'.reached? w'.tree = some (hist.finish id now outcome) ∧ w'.tree.Alike w.tree := by
  obtain ⟨s, hs⟩ := Option.isSome_iff_exists.1 hstore
  unfold finishRun at h
  rw [hs] at h
  dsimp only at h
  split at h
  · cases (Prod.mk.inj h).1
  · rename_i s' t hcomplete
    obtain rfl := (Prod.mk.inj h).2
    obtain ⟨hist, hreached, -, hreached', halike⟩ := Store.completeRun_eq_ok hcomplete
    exact ⟨s, s', hist, hs, hreached, rfl, hreached', halike⟩

/-- A build that has not broken down ends with its outcome being recorded. -/
theorem build_of_finished {st st₁ : Store} {t t₁ : FileTree} {cwd id : Text} {now : Int} {run : Run}
    {o : BuildOptions} {files : List SchemaFile} {course : Course} {e : Emission}
    {w w' : Workspace} (hcreate : st.createRun t o.compile.cancelled id now = .ok (run, st₁, t₁))
    (hemit : emit ⟨t₁, some st₁⟩ cwd o files course = (e, w)) (hwhole : e.brokeDown = false)
    (hfinal : w.finishRun id now (e.outcome (e.fileCount files.length)) = (none, w')) :
    build ⟨t, some st⟩ cwd o files id now course =
      (.ok { files := e.fileCount files.length, emission := e, runId := some id }, w') := by
  unfold build
  dsimp only
  rw [hcreate]
  dsimp only
  rw [hemit]
  dsimp only
  rw [if_neg (by simp [hwhole]), hfinal]

namespace Task

variable {x : Context} {names : List Text} {o : TranspileOptions} {course : Course} {s : Session}
  {files : List SchemaFile} {st : Store} {t : FileTree}

theorem ensures_ofExcept {ε α : Type} {failure : ε → Failure} {r : Except ε α}
    {P : Except Failure α → Session → Prop} (h : ∀ r, P r s) :
    Ensures (ofExcept failure r) s P := by
  cases r with
  | error e => exact ensures_throw (h _)
  | ok a => exact ensures_pure (h _)

/-- Loading files leaves the file tree as it is. -/
theorem ensures_loadFiles : Ensures (loadFiles x names) s fun _ s' => s'.tree = s.tree := by
  unfold loadFiles
  refine ensures_get_bind ?_
  dsimp only
  split
  · split
    · exact ensures_throw rfl
    · refine (ensures_ofExcept (P := fun _ s' => s'.tree = s.tree) fun _ => rfl).bind ?_ ?_
      · exact fun _ _ htree => htree
      · exact fun _ _ htree => htree
  · exact ensures_ofExcept fun _ => rfl

/-- Opening the state database opens it in the file tree. -/
theorem ensures_openStore (hstate : x.config.noState = false)
    (hopen : Store.open? s.tree x.host.cwd x.config.statePath = (.ok st, t)) :
    Ensures (openStore x) s fun r s' => r = .ok (some st) ∧ s'.tree = t := by
  unfold openStore
  rw [if_neg (by simp [hstate])]
  refine ensures_get_bind ?_
  rw [hopen]
  exact ⟨rfl, rfl⟩

/-- The call ends as the build does. -/
theorem ensures_transpileOnce {b : Build} {w : Workspace} (hstate : x.config.noState = false)
    (hload : ((loadFiles x names).run.run s).1 = .ok files)
    (hopen : Store.open? s.tree x.host.cwd x.config.statePath = (.ok st, t))
    (hbuild : build ⟨t, some st⟩ x.host.cwd (buildOptions x o) files x.host.runId x.host.now
      (shownCourse x course) = (.ok b, w)) :
    Ensures (transpileOnce x names o course) s fun r s' =>
      r = b.emission.ending ∧ s'.tree = w.tree := by
  have hfiles : Ensures (loadFiles x names) s fun r s' => r = .ok files ∧ s'.tree = s.tree :=
    ⟨hload, ensures_loadFiles⟩
  unfold transpileOnce
  refine hfiles.bind ?_ (by rintro _ _ ⟨⟨⟩, -⟩)
  rintro _ s₁ ⟨⟨⟩, htree⟩
  rw [← htree] at hopen
  refine (ensures_openStore hstate hopen).bind ?_ (by rintro _ _ ⟨⟨⟩, -⟩)
  rintro _ s₂ ⟨⟨⟩, rfl⟩
  refine ensures_get_bind ?_
  dsimp only
  rw [hbuild]
  -- What the build comes to is written to the console, and the tree is the one behind the build.
  refine Ensures.bind (P := fun r s₃ => r = .ok ⟨⟩ ∧ s₃.tree = w.tree) ⟨rfl, rfl⟩ ?_
    (by rintro _ _ ⟨⟨⟩, -⟩)
  rintro _ s₃ ⟨-, htree₃⟩
  refine Ensures.bind (P := fun r s₄ => r = .ok b ∧ s₄.tree = w.tree) ⟨rfl, htree₃⟩ ?_
    (by rintro _ _ ⟨⟨⟩, -⟩)
  rintro _ s₄ ⟨⟨⟩, htree₄⟩
  refine Ensures.bind (P := fun r s₅ => r = .ok () ∧ s₅.tree = w.tree) ⟨rfl, htree₄⟩ ?_
    (by rintro _ _ ⟨⟨⟩, -⟩)
  rintro _ s₅ ⟨-, htree₅⟩
  unfold Emission.ending Emission.failure?
  cases b.emission.result with
  | error e => exact ⟨rfl, htree₅⟩
  | ok c =>
    cases b.emission.report.failure with
    | none => exact ⟨rfl, htree₅⟩
    | some f => exact ⟨rfl, htree₅⟩

end Task

/-- What the files compile to, where the work may have been called off. -/
def Task.compiled (x : Context) (course : Course) (t : FileTree) (files : List SchemaFile) :
    Except CompileError Compilation :=
  CubeSchema.compile t x.host.cwd { x.compileOptions with cancelled := course.cancelled } files

/-- A call is told by the run that it was: what the run says is what became of the call. The
workspace is that in which the run has just been started, and the history that of before. -/
structure Accounted (x : Context) (o : TranspileOptions) (course : Course)
    (files : List SchemaFile) (w : Workspace) (h h' : History) (result : Except Failure Unit)
    (outcome : RunOutcome) : Prop where
  /-- There is one more run, which has come to its end, and the others are as before. -/
  runs : h'.runs = h.runs ++
    [{ id := x.host.runId, startedAt := x.host.now, completedAt := some x.host.now, outcome }]
  /-- The run has ended well exactly if the call has. -/
  completed : outcome.status = .completed ↔ result = .ok ()
  /-- A run that has ended well tells no failure. -/
  silent : result = .ok () → outcome.error = []
  /-- Otherwise the run has ended with the failure of the call. -/
  failed (f : Failure) : result = .error f → outcome.status = .failed ∧ outcome.error = f.message
  /-- All files count. -/
  counted : outcome.files = files.length
  /-- Without compiled files nothing is written, and no digest has changed. -/
  uncompiled (e : CompileError) : Task.compiled x course w.tree files = .error e →
    outcome.written = 0 ∧ outcome.skipped = 0 ∧ h'.hashes = h.hashes
  /-- Nothing is written where the outputs are shown. -/
  shown : o.stdout = true → outcome.written = 0 ∧ outcome.skipped = 0
  /-- Otherwise the outputs are those that were written and left alone. -/
  written (c : Compilation) : Task.compiled x course w.tree files = .ok c → o.stdout = false →
    outcome.written = ((c.writeBy course.site x.config.outDir).run w).1.written ∧
      outcome.skipped = ((c.writeBy course.site x.config.outDir).run w).1.skipped
  /-- Where all has been written, every file is one or the other. -/
  complete : result = .ok () → o.stdout = false → outcome.written + outcome.skipped = files.length

namespace Task

@[simp] theorem shownCourse_site (x : Context) (course : Course) :
    (shownCourse x course).site = course.site := by
  unfold shownCourse
  split <;> rfl

/-- How the outputs are shown does not matter for compiling. -/
theorem compile_shownCourse (x : Context) (o : TranspileOptions) (course : Course) (t : FileTree)
    (files : List SchemaFile) : CubeSchema.compile t x.host.cwd
      ((buildOptions x o).compiledWith (shownCourse x course)) files = compiled x course t files := by
  unfold shownCourse
  split <;> rfl

/-- What came of the work is what the run says. -/
theorem accounted_emit {x : Context} {o : TranspileOptions} {course : Course}
    {files : List SchemaFile} {w : Workspace} {h h' : History} {e : Emission}
    (he : e = (emit w x.host.cwd (buildOptions x o) files (shownCourse x course)).1)
    (hruns : h'.runs = h.runs ++ [⟨x.host.runId, x.host.now, some x.host.now,
      e.outcome files.length⟩])
    (hhashes : ∀ err, compiled x course w.tree files = .error err → h'.hashes = h.hashes) :
    Accounted x o course files w h h' e.ending (e.outcome files.length) := by
  constructor
  case runs => exact hruns
  case completed =>
    rw [Emission.ending_eq_ok, Emission.outcome]
    cases e.failure? <;> simp
  case silent =>
    intro hok
    rw [Emission.outcome, Emission.ending_eq_ok.1 hok]
    rfl
  case failed =>
    intro f herror
    rw [Emission.outcome, Emission.ending_eq_error.1 herror]
    exact ⟨rfl, rfl⟩
  case counted => rfl
  case uncompiled =>
    intro err herr
    rw [he, emit_of_error ((compile_shownCourse ..).trans herr)]
    exact ⟨rfl, rfl, hhashes err herr⟩
  case shown =>
    intro hshow
    have hnone := nothing_written w x.host.cwd (buildOptions x o) files (shownCourse x course)
      hshow
    rw [← he] at hnone
    exact ⟨congrArg Int.ofNat hnone.1, congrArg Int.ofNat hnone.2⟩
  case written =>
    intro c hc hshow
    -- As the outputs are not shown, they are written where the site is, which showing leaves alone.
    rw [he, emit_of_ok ((compile_shownCourse ..).trans hc), shownCourse_site,
      if_neg (by simp [buildOptions, hshow])]
    exact ⟨rfl, rfl⟩
  case complete =>
    intro hok hshow
    have hnone := Emission.ending_eq_ok.1 hok
    rw [he] at hnone ⊢
    have hcount := count_emit _ _ _ _ _ hshow hnone
    exact (Int.natCast_add _ _).symm.trans (congrArg _ hcount)

/-- Every run is accounted for. Whatever happens between the start of the run and its end, by
actions that do no more than they are for: if the work does not break down and its outcome can be
recorded in the end, the history has one more run, which tells what became of the call. -/
theorem transpileOnce_accounted {x : Context} {names : List Text} {o : TranspileOptions}
    {course : Course} {s : Session} {files : List SchemaFile} {st st₁ : Store} {t t₁ : FileTree}
    {run : Run} {e : Emission} {w w' : Workspace} (hcwd : Path.isAbsolute x.host.cwd = true)
    (hsite : course.site.Confined) (hstate : x.config.noState = false)
    (hload : ((loadFiles x names).run.run s).1 = .ok files)
    (hopen : Store.open? s.tree x.host.cwd x.config.statePath = (.ok st, t))
    (hfresh : ∀ h, st.reached? t = some h → x.host.runId ∉ h.runs.map Run.id)
    (hcreate : st.createRun t x.host.cancelled x.host.runId x.host.now = .ok (run, st₁, t₁))
    (hemit : emit ⟨t₁, some st₁⟩ x.host.cwd (buildOptions x o) files (shownCourse x course) =
      (e, w))
    (hwhole : e.brokeDown = false)
    (hfinal : w.finishRun x.host.runId x.host.now (e.outcome (e.fileCount files.length)) =
      (none, w')) :
    ∃ st' h h', st.reached? t = some h ∧ w'.store = some st' ∧ st'.reached? w'.tree = some h' ∧
      ((transpileOnce x names o course).run.run s).2.tree = w'.tree ∧
      Accounted x o course files ⟨t₁, some st₁⟩ h h' ((transpileOnce x names o course).run.run s).1
        (e.outcome files.length) ∧
      ∀ err, compiled x course t₁ files = .error err → ∀ p, st.backing ≠ .file p →
        ∀ content, w'.tree.at? p = some (.file content) ↔ s.tree.at? p = some (.file content) := by
  obtain ⟨hresult, htree⟩ := ensures_transpileOnce hstate hload hopen
    (build_of_finished hcreate hemit hwhole hfinal)
  obtain ⟨he, hw⟩ : _ = e ∧ _ = w := Prod.ext_iff.1 hemit
  have hcount := he ▸ fileCount_emit ⟨t₁, some st₁⟩ x.host.cwd (buildOptions x o) files
    (shownCourse x course)
  rw [hcount] at hfinal
  -- The history is followed from the start of the run to its end.
  obtain ⟨hsome, hruns⟩ := hw ▸ sameRuns_emit ⟨t₁, some st₁⟩ x.host.cwd (buildOptions x o) files
    (show (shownCourse x course).site.Confined by simpa using hsite)
  obtain ⟨h, hreached, hreached₁, halike₁⟩ := Store.createRun_eq_ok hcreate
  obtain ⟨st₂, st', h₂, hst₂, hreached₂, hst', hreached', halike'⟩ :=
    Workspace.finishRun_eq_none hsome hfinal
  obtain ⟨_, h₁, ⟨⟩, hh₁, heq⟩ := hruns st₂ h₂ hst₂ hreached₂
  obtain rfl := Option.some.inj (hreached₁.symm.trans hh₁)
  -- Where nothing has been compiled, the work has left everything as it was.
  have hidle : ∀ err, compiled x course t₁ files = .error err → w = ⟨t₁, some st₁⟩ := by
    intro err herr
    rw [← hw, emit_of_error ((compile_shownCourse ..).trans herr)]
  refine ⟨st', h, h₂.finish x.host.runId x.host.now (e.outcome files.length), hreached, hst',
    hreached', htree, ?_, fun err herr p hp content => ?_⟩
  · rw [show ((transpileOnce x names o course).run.run s).1 = e.ending from hresult]
    refine accounted_emit he.symm (History.runs_finish_started (hfresh h hreached) heq _) ?_
    intro err herr
    obtain rfl := hidle err herr
    obtain rfl := Option.some.inj hst₂
    obtain rfl := Option.some.inj (hreached₁.symm.trans hreached₂)
    rfl
  · have halike : w'.tree.Alike t := by
      rw [hidle err herr] at halike'
      exact halike'.trans halike₁
    exact (halike p).eq_file.trans ((Store.at?_of_open hcwd hopen).2 p hp content)

/-- Two schema files, and a state database in memory. -/
def twoFiles : Context × Session :=
  (⟨{ cwd := lit "/p", now := 7, runId := lit "one" },
    { schemaDir := lit "schema", outDir := lit "out", concurrency := 1,
      statePath := Store.inMemory }⟩,
    { tree := ⟨[([lit "p"], .directory),
      ([lit "p", lit "a.js"], .file (lit "cube('A', \x7b sql: CUBE \x7d)")),
      ([lit "p", lit "b.js"], .file (lit "cube('B', \x7b sql: A \x7d)"))]⟩ })

/-- The second of two outputs cannot be written. -/
def fullDisk : Course where
  cancelled := false
  site := { Workspace.site (lit "/p") false with
    write := fun target source =>
      if target = lit "out/b.js" then throw ⟨.other, lit "no space left on device"⟩
      else (Workspace.site (lit "/p") false).write target source }

theorem confined_fullDisk : fullDisk.site.Confined :=
  { confined_site (show Path.isAbsolute (lit "/p") = true by decide) false with
    write := fun target source w => by
      unfold fullDisk
      dsimp only
      split
      · exact ensures_throw ⟨rfl, fun _ _ h => h⟩
      · exact (confined_site (by decide) false).write target source w }

/-- The files that are loaded. -/
def bothFiles : List SchemaFile :=
  [⟨lit "a.js", lit "cube('A', \x7b sql: CUBE \x7d)"⟩,
    ⟨lit "b.js", lit "cube('B', \x7b sql: A \x7d)"⟩]

/-- What compiling and writing them come to, once the run has been started. -/
def fullDiskWork : Emission × Workspace :=
  emit ⟨twoFiles.2.tree, some ⟨Store.inMemory, .memory (.ready (History.start {} (lit "one") 7)),
    false⟩⟩ (lit "/p") (buildOptions twoFiles.1 {}) bothFiles (shownCourse twoFiles.1 fullDisk)

/-- The run says that the call has failed when one of two outputs had been written. -/
theorem fullDisk_accounted :
    let call := (transpileOnce twoFiles.1 [lit "a.js", lit "b.js"] {} fullDisk).run.run twoFiles.2
    ∃ (w : Workspace) (st : Store) (h : History), w.store = some st ∧
      st.reached? w.tree = some h ∧ call.2.tree = w.tree ∧ call.1 ≠ .ok () ∧
      h.runs = [⟨lit "one", 7, some 7, ⟨.failed, 2, 1, 0, lit "no space left on device"⟩⟩] := by
  have hload : ((loadFiles twoFiles.1 [lit "a.js", lit "b.js"]).run.run twoFiles.2).1 =
      .ok bothFiles := by decide +kernel
  have hopen : Store.open? twoFiles.2.tree twoFiles.1.host.cwd twoFiles.1.config.statePath =
      (.ok ⟨Store.inMemory, .memory (.ready {}), false⟩, twoFiles.2.tree) := rfl
  have hnone : (fullDiskWork.2.finishRun twoFiles.1.host.runId twoFiles.1.host.now
      (fullDiskWork.1.outcome (fullDiskWork.1.fileCount bothFiles.length))).1 = none := by
    decide +kernel
  rcases hfinal : fullDiskWork.2.finishRun twoFiles.1.host.runId twoFiles.1.host.now
    (fullDiskWork.1.outcome (fullDiskWork.1.fileCount bothFiles.length)) with ⟨r, w'⟩
  rw [hfinal] at hnone
  obtain rfl : r = none := hnone
  obtain ⟨st, h, h', hreached, hstore, hreached', htree, haccounted, -⟩ :=
    transpileOnce_accounted (o := {}) (by decide) confined_fullDisk rfl hload hopen
      (by rintro _ ⟨⟩; decide) rfl (Prod.eta fullDiskWork).symm (by decide +kernel) hfinal
  have hend : fullDiskWork.1.outcome 2 =
      ⟨.failed, 2, 1, 0, lit "no space left on device"⟩ := by decide +kernel
  refine ⟨_, st, h', hstore, hreached', htree, fun hok => ?_, haccounted.runs.trans ?_⟩
  · have hstatus := (congrArg RunOutcome.status hend).symm.trans (haccounted.completed.2 hok)
    cases hstatus
  · obtain rfl : ({} : History) = h := Option.some.inj hreached
    exact congrArg (fun outcome => [Run.mk (lit "one") 7 (some 7) outcome]) hend

end Task

end CubeSchema
