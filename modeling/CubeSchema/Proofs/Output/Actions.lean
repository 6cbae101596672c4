import CubeSchema.Output

/-!
# What actions that may fail leave behind

An action changes a state and then gives a value or fails; what it did up to a failure stays done.
`Ensures act s Q` says that from `s` the action ends with a result and in a state of which `Q`
holds. Writing outputs is put together of the actions of an `OutputSite`, and what it ensures
follows from what these ensure.
-/

namespace CubeSchema

variable {σ ε α β : Type}

/-- From a state, an action ends with a result and in a state of which `Q` holds. -/
def Ensures (act : ExceptT ε (StateM σ) α) (s : σ) (Q : Except ε α → σ → Prop) : Prop :=
  Q (act.run.run s).1 (act.run.run s).2

theorem ensures_pure {a : α} {s : σ} {Q : Except ε α → σ → Prop} (h : Q (.ok a) s) :
    Ensures (pure a) s Q := h

theorem ensures_throw {e : ε} {s : σ} {Q : Except ε α → σ → Prop} (h : Q (.error e) s) :
    Ensures (throw e) s Q := h

theorem ensures_get_bind {next : σ → ExceptT ε (StateM σ) β} {s : σ} {Q : Except ε β → σ → Prop}
    (h : Ensures (next s) s Q) : Ensures (get >>= next) s Q := h

theorem ensures_set {s s' : σ} {Q : Except ε PUnit → σ → Prop} (h : Q (.ok ⟨⟩) s') :
    Ensures (set s') s Q := h

theorem Ensures.mono {act : ExceptT ε (StateM σ) α} {s : σ} {P Q : Except ε α → σ → Prop}
    (h : Ensures act s P) (hPQ : ∀ r s', P r s' → Q r s') : Ensures act s Q := hPQ _ _ h

/-- What follows an action starts from what the action ensures, unless that fails. -/
theorem Ensures.bind {act : ExceptT ε (StateM σ) α} {next : α → ExceptT ε (StateM σ) β} {s : σ}
    {P : Except ε α → σ → Prop} {Q : Except ε β → σ → Prop} (h : Ensures act s P)
    (hok : ∀ a s', P (.ok a) s' → Ensures (next a) s' Q)
    (herror : ∀ e s', P (.error e) s' → Q (.error e) s') : Ensures (act >>= next) s Q := by
  unfold Ensures at h ⊢
  rw [ExceptT.run_bind, StateT.run_bind]
  rcases hrun : act.run.run s with ⟨r, s'⟩
  rw [hrun] at h
  cases r with
  | ok a => exact hok a s' h
  | error e => exact herror e s' h

/-! ## The two halves of writing an output -/

/-- What is done with an output once it is known whether its target holds it already. -/
def settle {m : Type → Type} [Monad m] (site : OutputSite m) (target source : Text) (there : Bool) :
    m Disposition :=
  if there then pure .skipped
  else do
    site.makeDirs (Path.dir target)
    site.write target source
    site.remember target (Sha256.hexDigest source)
    return .written

/-- An output is written after its target has been looked at. -/
theorem writeOutput_eq {m : Type → Type} [Monad m] (site : OutputSite m) (target source : Text) :
    writeOutput site target source = site.proceed >>= fun _ => site.lookUp target >>= fun known =>
      if known = some (Sha256.hexDigest source) then site.holds target >>= settle site target source
      else pure false >>= settle site target source := rfl

/-- A failure ends the work. -/
theorem writeOutputs_cons_error {site : OutputSite (ExceptT ε (StateM σ))}
    {outDir path source : Text} {s s' : σ} {e : ε}
    (h : (writeOutput site (outputTarget outDir path) source).run.run s = (.error e, s'))
    (rest : List (Text × Text)) : (writeOutputs site outDir ((path, source) :: rest)).run s =
      ({ failure := some e }, s') := by
  rw [writeOutputs, StateT.run_bind, h]
  rfl

/-- Otherwise the work goes on with the next output. -/
theorem writeOutputs_cons_ok {site : OutputSite (ExceptT ε (StateM σ))}
    {outDir path source : Text} {s s' : σ} {d : Disposition}
    (h : (writeOutput site (outputTarget outDir path) source).run.run s = (.ok d, s'))
    (rest : List (Text × Text)) : (writeOutputs site outDir ((path, source) :: rest)).run s =
      (((writeOutputs site outDir rest).run s').1.count d,
        ((writeOutputs site outDir rest).run s').2) := by
  rw [writeOutputs, StateT.run_bind, h]
  rfl

/-! ## States that stay related -/

/-- Whatever comes of an action, the state behind it is related to the state before it. -/
def Keeps (R : σ → σ → Prop) (act : ExceptT ε (StateM σ) α) : Prop :=
  ∀ s, Ensures act s fun _ s' => R s s'

theorem Keeps.mono {R R' : σ → σ → Prop} {act : ExceptT ε (StateM σ) α} (h : Keeps R act)
    (hR : ∀ s s', R s s' → R' s s') : Keeps R' act := fun s => (h s).mono fun _ s' => hR s s'

/-- Every state is related to itself, and what is related in two steps is related. -/
structure IsGradual (R : σ → σ → Prop) : Prop where
  /-- No change is one that is allowed. -/
  refl (s : σ) : R s s
  /-- Two changes are one that is allowed. -/
  trans {s s' s'' : σ} : R s s' → R s' s'' → R s s''

section

variable {R : σ → σ → Prop} (hR : IsGradual R)

include hR

theorem keeps_pure (a : α) : Keeps R (pure a : ExceptT ε (StateM σ) α) := hR.refl

theorem Keeps.bind {act : ExceptT ε (StateM σ) α} {next : α → ExceptT ε (StateM σ) β}
    (h : Keeps R act) (hnext : ∀ a, Keeps R (next a)) : Keeps R (act >>= next) := fun s =>
  (h s).bind (fun a s' hs => (hnext a s').mono fun _ _ hs' => hR.trans hs hs') fun _ _ hs => hs

/-- Writing an output keeps what the actions of the site keep. -/
theorem keeps_writeOutput {site : OutputSite (ExceptT ε (StateM σ))} {target source : Text}
    (hproceed : Keeps R site.proceed) (hlookUp : Keeps R (site.lookUp target))
    (hholds : Keeps R (site.holds target)) (hmakeDirs : Keeps R (site.makeDirs (Path.dir target)))
    (hwrite : Keeps R (site.write target source))
    (hremember : Keeps R (site.remember target (Sha256.hexDigest source))) :
    Keeps R (writeOutput site target source) := by
  have hsettle : ∀ there, Keeps R (settle site target source there) := by
    intro there
    unfold settle
    split
    · exact keeps_pure hR _
    · refine hmakeDirs.bind hR fun _ => hwrite.bind hR fun _ => ?_
      exact hremember.bind hR fun _ => keeps_pure hR _
  rw [writeOutput_eq]
  refine hproceed.bind hR fun _ => hlookUp.bind hR fun known => ?_
  split
  · exact hholds.bind hR hsettle
  · exact (keeps_pure hR false).bind hR hsettle

/-- Writing outputs keeps what writing each of them keeps. -/
theorem rel_writeOutputs {site : OutputSite (ExceptT ε (StateM σ))} {outDir : Text}
    {outputs : List (Text × Text)}
    (h : ∀ x ∈ outputs, Keeps R (writeOutput site (outputTarget outDir x.1) x.2)) (s : σ) :
    R s ((writeOutputs site outDir outputs).run s).2 := by
  induction outputs generalizing s with
  | nil => exact hR.refl s
  | cons x outputs ih =>
    obtain ⟨path, source⟩ := x
    obtain ⟨hx, hrest⟩ := List.forall_mem_cons.1 h
    have hfirst := hx s
    unfold Ensures at hfirst
    rcases hrun : (writeOutput site (outputTarget outDir path) source).run.run s with ⟨r, s'⟩
    rw [hrun] at hfirst
    cases r with
    | error e =>
      rw [writeOutputs_cons_error hrun]
      exact hfirst
    | ok d =>
      rw [writeOutputs_cons_ok hrun]
      exact hR.trans hfirst (ih hrest s')

end

namespace Workspace

variable {R : Workspace → Workspace → Prop} (hR : IsGradual R)

include hR

theorem keeps_onTree (what : String) (act : FileTree → Except FileError FileTree)
    (h : ∀ w t, act w.tree = .ok t → R w { w with tree := t }) : Keeps R (onTree what act) := by
  intro w
  unfold onTree
  refine ensures_get_bind ?_
  split
  · exact ensures_throw (hR.refl w)
  · rename_i t ht
    exact ensures_set (h w t ht)

theorem keeps_onStore (act : Store → FileTree → Except StoreError (Store × FileTree))
    (h : ∀ w s s' t, w.store = some s → act s w.tree = .ok (s', t) → R w ⟨t, some s'⟩) :
    Keeps R (onStore act) := by
  intro w
  unfold onStore
  refine ensures_get_bind ?_
  split
  · exact ensures_pure (hR.refl w)
  · rename_i s hs
    split
    · exact ensures_throw (hR.refl w)
    · rename_i s' t hact
      exact ensures_set (h w s s' t hs hact)

/-- Writing an output in a workspace keeps what making its directory, writing the file and storing
the digest keep. -/
theorem keeps_writeOutput {cwd : Text} {cancelled : Bool} {target source : Text}
    (hmakeDirs : ∀ w t, w.tree.makeDirs cwd (Path.dir target) = .ok t → R w { w with tree := t })
    (hwrite : ∀ w t, w.tree.write cwd target source = .ok t → R w { w with tree := t })
    (hremember : ∀ w s s' t, w.store = some s →
      s.setOutputHash w.tree cancelled target (Sha256.hexDigest source) = .ok (s', t) →
      R w ⟨t, some s'⟩) :
    Keeps R (writeOutput (site cwd cancelled) target source) := by
  refine CubeSchema.keeps_writeOutput hR ?_ ?_ ?_ ?_ ?_ ?_
  · intro w
    unfold site
    dsimp only
    split
    · exact ensures_throw (hR.refl w)
    · exact ensures_pure (hR.refl w)
  · intro w
    refine ensures_get_bind ?_
    split
    · exact ensures_pure (hR.refl w)
    · split
      · exact ensures_throw (hR.refl w)
      · exact ensures_pure (hR.refl w)
  · intro w
    refine ensures_get_bind ?_
    exact ensures_pure (hR.refl w)
  · exact keeps_onTree hR _ (fun t => t.makeDirs cwd (Path.dir target)) hmakeDirs
  · exact keeps_onTree hR _ (fun t => t.write cwd target source) hwrite
  · exact keeps_onStore hR
      (fun s t => s.setOutputHash t cancelled target (Sha256.hexDigest source)) hremember

end Workspace

end CubeSchema
