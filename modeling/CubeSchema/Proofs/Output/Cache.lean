import CubeSchema.Proofs.Output.Actions

/-!
# The digests of written outputs

An output is left alone if its target is there and the digest of the same content is stored for it.
A target and its digest are two things that are changed one after the other, and what goes wrong in
between leaves a digest behind that is not that of the file. As long as no writing of a target was
broken off there, a call that ends without a failure leaves every target with its source.
-/

namespace CubeSchema

/-! ## Sites with failures -/

variable {σ ε : Type}

/-- What can be seen of the state of a site, and of its failures. -/
structure OutputView (σ ε : Type) where
  /-- What a target holds; nothing if it is not there. -/
  file : σ → Text → Option Text
  /-- The digest stored for a target; empty if there is none. -/
  digest : σ → Text → Text
  /-- Whether a failure is one of writing a target or of storing its digest. -/
  isLate : ε → Bool

namespace OutputView

/-- A target holds the same and has the same digest. -/
def SameAt (v : OutputView σ ε) (target : Text) (s s' : σ) : Prop :=
  v.file s' target = v.file s target ∧ v.digest s' target = v.digest s target

/-- A stored digest that is that of one of the sources is that of what the target holds. -/
def InStep (v : OutputView σ ε) (sources : List Text) (s : σ) (target : Text) : Prop :=
  ∀ source ∈ sources, v.digest s target = Sha256.hexDigest source → v.file s target = some source

theorem SameAt.inStep {v : OutputView σ ε} {target : Text} {s s' : σ} (h : v.SameAt target s s')
    {sources : List Text} (hstep : v.InStep sources s target) : v.InStep sources s' target := by
  unfold InStep
  rw [h.1, h.2]
  exact hstep

theorem SameAt.trans {v : OutputView σ ε} {target : Text} {s s' s'' : σ}
    (h : v.SameAt target s s') (h' : v.SameAt target s' s'') : v.SameAt target s s'' :=
  ⟨h'.1.trans h.1, h'.2.trans h.2⟩

end OutputView

/-- The actions of a site do what they are for unless they fail. A failure to look at things or to
make a directory changes nothing; one of writing or storing may do anything to its target. -/
structure OutputSite.Lawful (site : OutputSite (ExceptT ε (StateM σ))) (v : OutputView σ ε) :
    Prop where
  /-- Going on changes nothing. -/
  proceed (s : σ) : Ensures site.proceed s fun _ s' => ∀ t, v.SameAt t s s'
  /-- Looking up a digest gives the stored one and changes nothing. -/
  lookUp (s : σ) (target : Text) : Ensures (site.lookUp target) s fun r s' =>
    (∀ t, v.SameAt t s s') ∧ ∀ known, r = .ok known → known = some (v.digest s target)
  /-- Looking for a target changes nothing. -/
  holds (s : σ) (target : Text) : Ensures (site.holds target) s fun _ s' => ∀ t, v.SameAt t s s'
  /-- Making a directory changes no target. -/
  makeDirs (s : σ) (dir : Text) : Ensures (site.makeDirs dir) s fun _ s' => ∀ t, v.SameAt t s s'
  /-- Writing a target changes no other one, and no digest. -/
  write (s : σ) (target source : Text) : Ensures (site.write target source) s fun r s' =>
    (∀ t, t ≠ target → v.SameAt t s s') ∧ (∀ u, r = .ok u → v.file s' target = some source) ∧
      ∀ e, r = .error e → v.isLate e = true
  /-- Storing a digest changes no target, and no other digest. -/
  remember (s : σ) (target hash : Text) : Ensures (site.remember target hash) s fun r s' =>
    (∀ t, t ≠ target → v.SameAt t s s') ∧
      (∀ u, r = .ok u → v.file s' target = v.file s target ∧ v.digest s' target = hash) ∧
      ∀ e, r = .error e → v.isLate e = true

/-! ## One output -/

theorem Sha256.hexDigest_ne_nil (t : Text) : hexDigest t ≠ [] := by
  unfold hexDigest digest Text.hex
  simp [State.words, bytesOfWord, Text.hexFixed]

section

variable {site : OutputSite (ExceptT ε (StateM σ))} {v : OutputView σ ε} (hsite : site.Lawful v)
  {sources : List Text}
  (hsources : ∀ a ∈ sources, ∀ b ∈ sources, Sha256.hexDigest a = Sha256.hexDigest b → a = b)

include hsite

/-- Settling an output changes its target only, and that not unless it is written; what is written
is the source. -/
theorem settle_spec (target source : Text) (there : Bool) (s : σ) :
    Ensures (settle site target source there) s fun r s' =>
      (∀ t, t ≠ target → v.SameAt t s s') ∧
      (∀ e, r = .error e → v.isLate e = false → v.SameAt target s s') ∧
      ∀ d, r = .ok d → if there then v.SameAt target s s' else
        v.file s' target = some source ∧ v.digest s' target = Sha256.hexDigest source := by
  unfold settle
  cases there with
  | true => exact ensures_pure ⟨fun _ _ => ⟨rfl, rfl⟩, nofun, fun _ _ => ⟨rfl, rfl⟩⟩
  | false =>
    -- Three actions one after the other: up to the first nothing has changed, a failure of the
    -- other two is a late one.
    refine (hsite.makeDirs s _).bind (fun _ s₁ hdirs => ?_)
      fun e s₁ hdirs => ⟨fun t _ => hdirs t, fun _ _ _ => hdirs target, nofun⟩
    refine (hsite.write s₁ target source).bind (fun _ s₂ hwrite => ?_) fun e s₂ hwrite => ?_
    · obtain ⟨hothers, hfile, -⟩ := hwrite
      refine (hsite.remember s₂ target _).bind (fun _ s₃ hremember => ?_) fun e s₃ hremember => ?_
      · obtain ⟨hothers', hdigest, -⟩ := hremember
        obtain ⟨hkept, hstored⟩ := hdigest _ rfl
        exact ensures_pure ⟨fun t ht => ((hdirs t).trans (hothers t ht)).trans (hothers' t ht),
          nofun, fun _ _ => ⟨hkept.trans (hfile _ rfl), hstored⟩⟩
      · obtain ⟨hothers', -, hlate⟩ := hremember
        refine ⟨fun t ht => ((hdirs t).trans (hothers t ht)).trans (hothers' t ht), ?_, nofun⟩
        rintro e' ⟨⟩ hearly
        rw [hlate e rfl] at hearly
        cases hearly
    · obtain ⟨hothers, -, hlate⟩ := hwrite
      refine ⟨fun t ht => (hdirs t).trans (hothers t ht), ?_, nofun⟩
      rintro e' ⟨⟩ hearly
      rw [hlate e rfl] at hearly
      cases hearly

include hsources

/-- Writing an output changes its target only. Where the digest of the target was that of what it
held, the target holds the source afterwards, and has its digest. -/
theorem writeOutput_spec {source : Text} (hsource : source ∈ sources) (target : Text) (s : σ) :
    Ensures (writeOutput site target source) s fun r s' =>
      (∀ t, t ≠ target → v.SameAt t s s') ∧
      (∀ e, r = .error e → v.isLate e = false → v.SameAt target s s') ∧
      ∀ d, r = .ok d → v.InStep sources s target →
        v.file s' target = some source ∧ v.InStep sources s' target := by
  rw [writeOutput_eq]
  refine (hsite.proceed s).bind (fun _ s₁ hproceed => ?_)
    fun e s₁ h => ⟨fun t _ => h t, fun _ _ _ => h target, nofun⟩
  refine (hsite.lookUp s₁ target).bind (fun known s₂ hlookUp => ?_)
    fun e s₂ h => ⟨fun t _ => (hproceed t).trans (h.1 t),
      fun _ _ _ => (hproceed target).trans (h.1 target), nofun⟩
  have hsame : ∀ t, v.SameAt t s s₂ := fun t => (hproceed t).trans (hlookUp.1 t)
  -- What settling comes to, once it is known whether the target may be left alone.
  have hsettle : ∀ there s₃, (∀ t, v.SameAt t s s₃) →
      (there = true → v.digest s target = Sha256.hexDigest source) →
      Ensures (settle site target source there) s₃ fun r s' =>
        (∀ t, t ≠ target → v.SameAt t s s') ∧
        (∀ e, r = .error e → v.isLate e = false → v.SameAt target s s') ∧
        ∀ d, r = .ok d → v.InStep sources s target →
          v.file s' target = some source ∧ v.InStep sources s' target := by
    intro there s₃ hsame hknown
    refine (settle_spec hsite target source there s₃).mono fun r s' h => ?_
    obtain ⟨hothers, herror, hok⟩ := h
    refine ⟨fun t ht => (hsame t).trans (hothers t ht),
      fun e he hearly => (hsame target).trans (herror e he hearly), fun d hd hstep => ?_⟩
    have hd := hok d hd
    cases there with
    | true =>
      -- The target is left alone: that it holds the source is what being in step says.
      have hkept : v.SameAt target s s' := (hsame target).trans hd
      exact ⟨hkept.1.trans (hstep source hsource (hknown rfl)), hkept.inStep hstep⟩
    | false =>
      -- The target is written: no other source has the digest that is stored now.
      obtain ⟨hfile, hdigest⟩ := hd
      refine ⟨hfile, fun source' hsource' heq => ?_⟩
      rw [hfile, hsources source hsource source' hsource' (hdigest.symm.trans heq)]
  split
  · rename_i hknown
    have hdigest : v.digest s target = Sha256.hexDigest source := by
      have hfound := Option.some.inj ((hlookUp.2 known rfl).symm.trans hknown)
      rw [← (hproceed target).2, hfound]
    refine (hsite.holds s₂ target).bind (fun there s₃ hholds => ?_)
      fun e s₃ h => ⟨fun t _ => (hsame t).trans (h t), fun _ _ _ => (hsame target).trans (h target),
        nofun⟩
    exact hsettle there s₃ (fun t => (hsame t).trans (hholds t)) fun _ => hdigest
  · exact hsettle false s₂ hsame nofun

end

/-! ## One call -/

/-- The outputs that are written together. -/
structure OutputCall where
  /-- The directory of the outputs. -/
  outDir : Text
  /-- The names of the outputs, and their sources. -/
  outputs : List (Text × Text)

namespace OutputCall

/-- The targets of a call. -/
def targets (c : OutputCall) : List Text := c.outputs.map fun x => outputTarget c.outDir x.1

/-- What a call comes to, and the state that it leaves. -/
def run (site : OutputSite (ExceptT ε (StateM σ))) (c : OutputCall) (s : σ) : WriteReport ε × σ :=
  (writeOutputs site c.outDir c.outputs).run s

/-- The target that a call was broken off at while it wrote the target or stored its digest. -/
def brokenAt? (v : OutputView σ ε) (c : OutputCall) (r : WriteReport ε) : Option Text :=
  if r.failure.any v.isLate then c.targets[r.written + r.skipped]? else none

theorem failure_count (r : WriteReport ε) (d : Disposition) : (r.count d).failure = r.failure := by
  cases d <;> rfl

/-- Where a call is broken off is told by how many outputs it was through with. -/
theorem brokenAt?_count (v : OutputView σ ε) (outDir : Text) (x : Text × Text)
    (outputs : List (Text × Text)) (r : WriteReport ε) (d : Disposition) :
    brokenAt? v ⟨outDir, x :: outputs⟩ (r.count d) = brokenAt? v ⟨outDir, outputs⟩ r := by
  have hcount : (r.count d).written + (r.count d).skipped = r.written + r.skipped + 1 := by
    cases d
    · exact Nat.add_right_comm ..
    · rfl
  rw [brokenAt?, brokenAt?, failure_count, hcount, targets, List.map_cons,
    List.getElem?_cons_succ]
  rfl

end OutputCall

section

variable {site : OutputSite (ExceptT ε (StateM σ))} {v : OutputView σ ε} (hsite : site.Lawful v)
  {sources : List Text}
  (hsources : ∀ a ∈ sources, ∀ b ∈ sources, Sha256.hexDigest a = Sha256.hexDigest b → a = b)

include hsite hsources

/-- A call changes its targets only, keeps the digests in step except where it is broken off, and
leaves every target with its source if it ends without a failure. -/
theorem run_spec (c : OutputCall) (s : σ) (hdistinct : c.targets.Nodup)
    (hknown : ∀ x ∈ c.outputs, x.2 ∈ sources) :
    (∀ t, t ∉ c.targets → v.SameAt t s (c.run site s).2) ∧
    (∀ t, v.InStep sources s t → c.brokenAt? v (c.run site s).1 ≠ some t →
      v.InStep sources (c.run site s).2 t) ∧
    ((c.run site s).1.failure = none → ∀ x ∈ c.outputs,
      v.InStep sources s (outputTarget c.outDir x.1) →
      v.file (c.run site s).2 (outputTarget c.outDir x.1) = some x.2) := by
  obtain ⟨outDir, outputs⟩ := c
  induction outputs generalizing s with
  | nil => exact ⟨fun _ _ => ⟨rfl, rfl⟩, fun _ h _ => h, nofun⟩
  | cons x outputs ih =>
    obtain ⟨path, source⟩ := x
    have hfirst := writeOutput_spec hsite hsources (hknown (path, source) (List.mem_cons_self ..))
      (outputTarget outDir path) s
    unfold Ensures at hfirst
    rcases hwrite : (writeOutput site (outputTarget outDir path) source).run.run s with ⟨first, s₁⟩
    rw [hwrite] at hfirst
    obtain ⟨hothers, herror, hok⟩ := hfirst
    cases first with
    | error e =>
      have hrun : OutputCall.run site ⟨outDir, (path, source) :: outputs⟩ s =
          ({ failure := some e }, s₁) := writeOutputs_cons_error hwrite outputs
      rw [hrun]
      refine ⟨fun t ht => hothers t fun h => ht (h ▸ List.mem_cons_self ..),
        fun t hstep hbroken => ?_, nofun⟩
      -- The call ended at this very target, and there late unless nothing changed.
      by_cases ht : t = outputTarget outDir path
      · subst ht
        refine (herror e rfl ?_).inStep hstep
        rw [← Bool.not_eq_true]
        intro hlate
        exact hbroken (by simp [OutputCall.brokenAt?, hlate, OutputCall.targets])
      · exact (hothers t ht).inStep hstep
    | ok d =>
      have hrun : OutputCall.run site ⟨outDir, (path, source) :: outputs⟩ s =
          ((OutputCall.run site ⟨outDir, outputs⟩ s₁).1.count d,
            (OutputCall.run site ⟨outDir, outputs⟩ s₁).2) := writeOutputs_cons_ok hwrite outputs
      rw [hrun]
      obtain ⟨hnew, hdistinct⟩ := List.nodup_cons.1 hdistinct
      obtain ⟨hsame, hsteps, hheld⟩ :=
        ih s₁ hdistinct fun x hx => hknown x (List.mem_cons_of_mem _ hx)
      refine ⟨fun t ht => ?_, fun t hstep hbroken => ?_, fun hfailure x hx hstep => ?_⟩
      · rw [OutputCall.targets, List.map_cons, List.mem_cons, not_or] at ht
        exact (hothers t ht.1).trans (hsame t ht.2)
      · rw [OutputCall.brokenAt?_count] at hbroken
        by_cases ht : t = outputTarget outDir path
        · -- The first output put it in step, and the others have other targets.
          subst ht
          exact (hsame _ hnew).inStep (hok d rfl hstep).2
        · exact hsteps t ((hothers t ht).inStep hstep) hbroken
      · rw [OutputCall.failure_count] at hfailure
        rcases List.mem_cons.1 hx with rfl | hx
        · exact (hsame _ hnew).1.trans (hok d rfl hstep).1
        · -- The targets are different, so the first output did not touch this one.
          have hne : outputTarget outDir x.1 ≠ outputTarget outDir path := by
            intro h
            have hmem := List.mem_map_of_mem (f := fun x => outputTarget outDir x.1) hx
            rw [h] at hmem
            exact hnew hmem
          exact hheld hfailure x hx ((hothers _ hne).inStep hstep)

end

/-! ## Call after call -/

namespace OutputCall

/-- The state after calls. -/
def runAll (site : OutputSite (ExceptT ε (StateM σ))) : List OutputCall → σ → σ
  | [], s => s
  | c :: calls, s => runAll site calls (c.run site s).2

/-- The targets at which calls were broken off. -/
def broken (site : OutputSite (ExceptT ε (StateM σ))) (v : OutputView σ ε) :
    List OutputCall → σ → List Text
  | [], _ => []
  | c :: calls, s =>
    (c.brokenAt? v (c.run site s).1).toList ++ broken site v calls (c.run site s).2

/-- The sources of all outputs of calls. -/
def sources (calls : List OutputCall) : List Text :=
  calls.flatMap fun c => c.outputs.map Prod.snd

end OutputCall

section

variable {site : OutputSite (ExceptT ε (StateM σ))} {v : OutputView σ ε} (hsite : site.Lawful v)
  {sources : List Text}
  (hsources : ∀ a ∈ sources, ∀ b ∈ sources, Sha256.hexDigest a = Sha256.hexDigest b → a = b)

include hsite hsources

/-- Through all calls, the digest of a target stays in step with it unless one of them was broken
off there. -/
theorem inStep_runAll {calls : List OutputCall} {s : σ} (hdistinct : ∀ c ∈ calls, c.targets.Nodup)
    (hknown : ∀ c ∈ calls, ∀ x ∈ c.outputs, x.2 ∈ sources) {t : Text}
    (hstep : v.InStep sources s t) (hbroken : t ∉ OutputCall.broken site v calls s) :
    v.InStep sources (OutputCall.runAll site calls s) t := by
  induction calls generalizing s with
  | nil => exact hstep
  | cons c calls ih =>
    obtain ⟨hc, hcalls⟩ := List.forall_mem_cons.1 hdistinct
    obtain ⟨hcknown, hcallsknown⟩ := List.forall_mem_cons.1 hknown
    rw [OutputCall.broken, List.mem_append, not_or, Option.mem_toList] at hbroken
    have hfirst := (run_spec hsite hsources c s hc hcknown).2.1 t hstep hbroken.1
    exact ih hcalls hcallsknown hfirst hbroken.2

end

/-- Files and digests, of which the latest counts, and for the actions to come whether they fail. -/
structure FaultyDisk where
  /-- What was written. -/
  files : List (Text × Text) := []
  /-- What was stored. -/
  digests : List (Text × Text) := []
  /-- Whether the next actions fail; all later ones do not. -/
  faults : List Bool := []

/-- What fails. -/
inductive DiskFault where
  /-- Looking at something, or making a directory. -/
  | looking
  /-- Writing a target. -/
  | writing
  /-- Storing a digest. -/
  | storing
  deriving DecidableEq, Repr

namespace FaultyDisk

/-- Tries an action; a failure leaves its own traces. -/
def attempt (fault : DiskFault) (done failed : FaultyDisk → FaultyDisk) :
    ExceptT DiskFault (StateM FaultyDisk) Unit := do
  let d ← get
  if d.faults.headD false then
    set (failed { d with faults := d.faults.tail })
    throw fault
  else set (done { d with faults := d.faults.tail })

/-- The disk with a target written. -/
def withFile (target content : Text) (d : FaultyDisk) : FaultyDisk :=
  { d with files := (target, content) :: d.files }

/-- The disk with a digest stored. -/
def withDigest (target hash : Text) (d : FaultyDisk) : FaultyDisk :=
  { d with digests := (target, hash) :: d.digests }

/-- The site of a disk. A file that could not be written is left empty. -/
def site : OutputSite (ExceptT DiskFault (StateM FaultyDisk)) where
  proceed := attempt .looking id id
  lookUp target := do
    attempt .looking id id
    return some (((← get).digests.lookup target).getD [])
  holds target := do
    attempt .looking id id
    return ((← get).files.lookup target).isSome
  makeDirs _ := attempt .looking id id
  write target source := attempt .writing (withFile target source) (withFile target [])
  remember target hash := attempt .storing (withDigest target hash) id

/-- What can be seen of a disk. -/
def view : OutputView FaultyDisk DiskFault where
  file d target := d.files.lookup target
  digest d target := (d.digests.lookup target).getD []
  isLate fault := fault ≠ .looking

theorem ensures_attempt (fault : DiskFault) (done failed : FaultyDisk → FaultyDisk) {d : FaultyDisk}
    {Q : Except DiskFault Unit → FaultyDisk → Prop}
    (hdone : Q (.ok ()) (done { d with faults := d.faults.tail }))
    (hfailed : Q (.error fault) (failed { d with faults := d.faults.tail })) :
    Ensures (attempt fault done failed) d Q := by
  unfold attempt
  refine ensures_get_bind ?_
  split
  · exact hfailed
  · exact hdone

theorem lookup_cons_of_ne {t target : Text} (h : t ≠ target) (content : Text)
    (l : List (Text × Text)) : ((target, content) :: l).lookup t = l.lookup t := by
  rw [List.lookup_cons, beq_false_of_ne h]

theorem lawful_site : site.Lawful view where
  proceed d := ensures_attempt .looking id id (fun _ => ⟨rfl, rfl⟩) fun _ => ⟨rfl, rfl⟩
  lookUp d target := by
    refine (ensures_attempt .looking id id (Q := fun _ d' => ∀ t, view.SameAt t d d')
      (fun _ => ⟨rfl, rfl⟩) fun _ => ⟨rfl, rfl⟩).bind (fun _ d' h => ?_) fun e d' h => ⟨h, nofun⟩
    refine ensures_get_bind (ensures_pure ⟨h, ?_⟩)
    rintro known ⟨⟩
    exact congrArg some (h target).2
  holds d target := by
    refine (ensures_attempt .looking id id (Q := fun _ d' => ∀ t, view.SameAt t d d')
      (fun _ => ⟨rfl, rfl⟩) fun _ => ⟨rfl, rfl⟩).bind (fun _ d' h => ?_) fun e d' h => h
    exact ensures_get_bind (ensures_pure h)
  makeDirs d dir := ensures_attempt .looking id id (fun _ => ⟨rfl, rfl⟩) fun _ => ⟨rfl, rfl⟩
  write d target source := by
    refine ensures_attempt .writing (withFile target source) (withFile target []) ?_ ?_
    · refine ⟨fun t ht => ⟨lookup_cons_of_ne ht _ _, rfl⟩, ?_, nofun⟩
      rintro ⟨⟩ -
      exact List.lookup_cons_self
    · refine ⟨fun t ht => ⟨lookup_cons_of_ne ht _ _, rfl⟩, nofun, ?_⟩
      rintro e ⟨⟩
      rfl
  remember d target hash := by
    refine ensures_attempt .storing (withDigest target hash) id ?_ ?_
    · refine ⟨fun t ht => ⟨rfl, congrArg (Option.getD · []) (lookup_cons_of_ne ht _ _)⟩, ?_, nofun⟩
      rintro ⟨⟩ -
      exact ⟨rfl, congrArg (Option.getD · []) List.lookup_cons_self⟩
    · refine ⟨fun t _ => ⟨rfl, rfl⟩, nofun, ?_⟩
      rintro e ⟨⟩
      rfl

end FaultyDisk

/-- A call with one output. -/
def callWith (source : String) : OutputCall := ⟨lit "out", [(lit "a.js", lit source)]⟩

/-- A disk on which the third action of the second call fails, which makes the directory. -/
def failsEarly : FaultyDisk := { faults := List.replicate 7 false ++ [true] }

/-- A disk on which the last action of the second call fails, which stores the digest. -/
def failsLate : FaultyDisk := { faults := List.replicate 9 false ++ [true] }

/-- A workspace with an empty directory and an empty store. -/
def blankWorkspace : Workspace :=
  { tree := ⟨[([lit "p"], .directory)]⟩
    store := some ⟨Store.inMemory, .memory (.ready {}), false⟩ }

end CubeSchema
