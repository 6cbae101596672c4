import CubeSchema.Proofs.History.Reaching
import CubeSchema.Proofs.Output.Cache
import Mathlib.Data.List.Nodup

/-!
# Writing with digests and without

Digests are kept to spare the work of writing what is there already, and nobody should see a
difference. `Mirrors` relates a workspace with a store to a file tree without one: the trees look
alike, and a stored digest is that of what stands at its target. Every output keeps it, as long as
no two names of targets lead to one place, and so do removals between the calls. So after every
output all names read the same (`cache_transparent`).
-/

namespace CubeSchema

/-! ## One output in a workspace -/

namespace Workspace

/-- What became of an output that was written without a failure. -/
inductive Outcome (cwd target source : Text) (w : Workspace) : Disposition → Workspace → Prop
  /-- The digest is known, and something stands at the target. -/
  | skipped {s : Store} {h : History} (hs : w.store = some s) (hh : s.reached? w.tree = some h)
      (hhash : h.hashOf target = Sha256.hexDigest source)
      (hthere : w.tree.contains cwd target = true) : Outcome cwd target source w .skipped w
  /-- The target is written, and no digest is stored. -/
  | plain {t u : FileTree} (hs : w.store = none)
      (ht : w.tree.makeDirs cwd (Path.dir target) = .ok t)
      (hu : t.write cwd target source = .ok u) : Outcome cwd target source w .written ⟨u, none⟩
  /-- The target is written, and its digest is stored. -/
  | stored {s s' : Store} {t u v : FileTree} (hs : w.store = some s)
      (ht : w.tree.makeDirs cwd (Path.dir target) = .ok t)
      (hu : t.write cwd target source = .ok u)
      (hv : s.setOutputHash u false target (Sha256.hexDigest source) = .ok (s', v)) :
      Outcome cwd target source w .written ⟨v, some s'⟩

theorem Outcome.isSome_store {cwd target source : Text} {w w' : Workspace} {d : Disposition}
    (h : Outcome cwd target source w d w')
    (hstore : w.store.isSome = true) : w'.store.isSome = true := by
  cases h with
  | skipped _ _ _ _ => exact hstore
  | plain hs _ _ =>
    rw [hs] at hstore
    cases hstore
  | stored _ _ _ _ => rfl

theorem ensures_onTree {what : String} (act : FileTree → Except FileError FileTree) {w : Workspace}
    {Q : Except Failure Unit → Workspace → Prop} (herror : ∀ e, Q (.error e) w)
    (hok : ∀ t, act w.tree = .ok t → Q (.ok ()) { w with tree := t }) :
    Ensures (onTree what act) w Q := by
  unfold onTree
  refine ensures_get_bind ?_
  split
  · exact ensures_throw (herror _)
  · exact ensures_set (hok _ ‹_›)

theorem ensures_onStore (act : Store → FileTree → Except StoreError (Store × FileTree))
    {w : Workspace} {Q : Except Failure Unit → Workspace → Prop} (herror : ∀ e, Q (.error e) w)
    (hnone : w.store = none → Q (.ok ()) w)
    (hok : ∀ s s' t, w.store = some s → act s w.tree = .ok (s', t) → Q (.ok ()) ⟨t, some s'⟩) :
    Ensures (onStore act) w Q := by
  unfold onStore
  refine ensures_get_bind ?_
  split
  · exact ensures_pure (hnone ‹_›)
  · split
    · exact ensures_throw (herror _)
    · exact ensures_set (hok _ _ _ ‹_› ‹_›)

/-- An output that is not left alone is written, and its digest is stored where there is a store. -/
theorem ensures_settle {cwd target source : Text} {w : Workspace} (there : Bool)
    (hthere : there = true → Outcome cwd target source w .skipped w) :
    Ensures (settle (site cwd false) target source there) w fun r w' =>
      ∀ d, r = .ok d → Outcome cwd target source w d w' := by
  unfold settle
  cases there with
  | true => exact ensures_pure fun d hd => Except.ok.inj hd ▸ hthere rfl
  | false =>
    have hmakeDirs : Ensures ((site cwd false).makeDirs (Path.dir target)) w fun r w₁ =>
        r.isOk = true → ∃ t, w.tree.makeDirs cwd (Path.dir target) = .ok t ∧
          w₁ = { w with tree := t } :=
      ensures_onTree (fun t => t.makeDirs cwd (Path.dir target)) (fun _ => nofun)
        fun t ht _ => ⟨t, ht, rfl⟩
    have hwrite : ∀ t, Ensures ((site cwd false).write target source) { w with tree := t }
        fun r w₂ => r.isOk = true → ∃ u, t.write cwd target source = .ok u ∧
          w₂ = { w with tree := u } := fun t =>
      ensures_onTree (fun t => t.write cwd target source) (fun _ => nofun)
        fun u hu _ => ⟨u, hu, rfl⟩
    refine hmakeDirs.bind (fun _ w₁ h₁ => ?_) fun e w₁ _ => nofun
    obtain ⟨t, ht, rfl⟩ := h₁ rfl
    refine (hwrite t).bind (fun _ w₂ h₂ => ?_) fun e w₂ _ => nofun
    obtain ⟨u, hu, rfl⟩ := h₂ rfl
    -- With a store the digest is remembered behind the written file; without one nothing is.
    have hremember : Ensures ((site cwd false).remember target (Sha256.hexDigest source))
        { w with tree := u } fun r w₃ => r.isOk = true →
          Outcome cwd target source w .written w₃ := by
      refine ensures_onStore (fun s t => s.setOutputHash t false target _) (fun _ => nofun)
        (fun hnone _ => ?_) fun s s' v hs hv _ => .stored hs ht hu hv
      have hplain : Outcome cwd target source w .written ⟨u, none⟩ := .plain hnone ht hu
      rwa [← show w.store = none from hnone] at hplain
    refine hremember.bind (fun _ w₃ h₃ => ?_) fun e w₃ _ => nofun
    exact ensures_pure fun d hd => Except.ok.inj hd ▸ h₃ rfl

theorem outcome_of_writeOutput {cwd target source : Text} {w w' : Workspace} {d : Disposition}
    (h : (writeOutput (site cwd false) target source).run.run w = (.ok d, w')) :
    Outcome cwd target source w d w' := by
  have hensures : Ensures (writeOutput (site cwd false) target source) w fun r w' =>
      ∀ d, r = .ok d → Outcome cwd target source w d w' := by
    rw [writeOutput_eq]
    refine Ensures.bind (P := fun _ w₁ => w₁ = w) (ensures_pure rfl) (fun _ w₁ h₁ => ?_)
      fun e w₁ _ => nofun
    subst h₁
    -- The digest that is found is the one that the store has.
    refine Ensures.bind (P := fun r w₂ => w₂ = w₁ ∧ ∀ hash, r = .ok (some hash) →
        ∃ s hist, w₁.store = some s ∧ s.reached? w₁.tree = some hist ∧
          hist.hashOf target = hash) ?_ (fun known w₂ h₂ => ?_) fun e w₂ _ => nofun
    · refine ensures_get_bind ?_
      split
      · exact ensures_pure ⟨rfl, nofun⟩
      · split
        · exact ensures_throw ⟨rfl, nofun⟩
        · rename_i hash hhash
          obtain ⟨hist, hreached, heq⟩ := Store.outputHash_eq_ok.1 hhash
          refine ensures_pure ⟨rfl, fun hash' hok => ⟨_, hist, ‹_›, hreached, ?_⟩⟩
          rw [heq]
          exact Option.some.inj (Except.ok.inj hok)
    · obtain ⟨rfl, hfound⟩ := h₂
      split
      · rename_i hknown
        subst hknown
        obtain ⟨s, hist, hs, hreached, hhash⟩ := hfound _ rfl
        refine Ensures.bind (P := fun r w₃ => w₃ = w₂ ∧ r = .ok (w₂.tree.contains cwd target))
          (ensures_get_bind (ensures_pure ⟨rfl, rfl⟩)) (fun there w₃ h₃ => ?_) fun e w₃ _ => nofun
        obtain ⟨rfl, hthere⟩ := h₃
        exact ensures_settle _ fun htrue =>
          .skipped hs hreached hhash ((Except.ok.inj hthere).symm.trans htrue)
      · exact ensures_settle false nofun
  unfold Ensures at hensures
  rw [h] at hensures
  exact hensures d rfl

end Workspace

/-! ## With a store and without -/

theorem outputTarget_eq (outDir path : Text) :
    outputTarget outDir path = [] ∨ ∃ p, outputTarget outDir path = Path.clean p := by
  unfold outputTarget Path.join
  split
  · exact .inl rfl
  · exact .inr ⟨_, rfl⟩

namespace FileTree

/-- Something that can be found stands at its place. -/
theorem of_contains {t : FileTree} {cwd p : Text} (hcwd : Path.isAbsolute cwd = true)
    (h : t.contains cwd p = true) : p ≠ [] ∧ ∃ e,
      t.follow cwd p = .ok (.found (Path.place cwd p) e) ∧ t.at? (Path.place cwd p) = some e ∧
      (wantsDirectory p = true → e = .directory) := by
  unfold contains stat at h
  split at h
  · rename_i place e hwalk
    have hfollow := walk_eq_ok hwalk
    obtain ⟨rfl, hentry⟩ : place = Path.place cwd p ∧ t.at? place = some e :=
      follow_place hcwd hfollow
    refine ⟨?_, e, hfollow, hentry, fun hslash => ?_⟩
    · rintro rfl
      cases hfollow
    · unfold walk at hwalk
      rw [hfollow] at hwalk
      cases e <;> simp_all
  · cases h
  · cases h

/-- Removing takes things away and leaves the others as they are. -/
theorem at?_remove (t : FileTree) (cwd p : Text) (q : Place) :
    (t.remove cwd p).at? q = t.at? q ∨ (t.remove cwd p).at? q = none := by
  unfold remove
  split
  · rw [at?_erase]
    split
    · rename_i hq
      exact .inl (by rw [hq]; rfl)
    split
    · exact .inr rfl
    · exact .inl rfl
  · exact .inl rfl

end FileTree

/-- At a place stands a file with the given content, or no file at all. -/
def FileTree.HoldsAtMost (t : FileTree) (p : Place) (content : Text) : Prop :=
  t.at? p = none ∨ t.at? p = some .directory ∨ t.at? p = some (.file content)

/-- A workspace looks like a tree, and the digest of a target is that of what stands there. -/
structure Mirrors (cwd : Text) (names sources : List Text) (w : Workspace) (t : FileTree) :
    Prop where
  /-- The workspace has a store. -/
  store : w.store.isSome = true
  /-- The trees look alike. -/
  alike : w.tree.Alike t
  /-- A file that has been written since its digest was stored holds what the digest says. -/
  inStep {s : Store} {h : History} : w.store = some s → s.reached? w.tree = some h →
    ∀ target ∈ names, ∀ source ∈ sources, h.hashOf target = Sha256.hexDigest source →
      w.tree.HoldsAtMost (Path.place cwd target) source

section

variable {cwd : Text} {names sources : List Text} {w w' : Workspace} {t t' : FileTree}

theorem Mirrors.remove (h : Mirrors cwd names sources w t) (name : Text) :
    Mirrors cwd names sources { w with tree := w.tree.remove cwd name } (t.remove cwd name) := by
  refine ⟨h.store, h.alike.remove cwd name, ?_⟩
  intro _ _ hs hreached target htarget source hsource hhash
  -- No database has been made, so the digests are those of before.
  have hold : ∀ p d, (w.tree.remove cwd name).at? p = some (.database d) →
      w.tree.at? p = some (.database d) := by
    intro p d hp
    rcases w.tree.at?_remove cwd name p with hsame | hnone
    · rwa [← hsame]
    · rw [hnone] at hp
      cases hp
  have hheld := h.inStep hs (Store.reached?_of_no_new hold hreached) target htarget source hsource
    hhash
  rcases w.tree.at?_remove cwd name (Path.place cwd target) with hsame | hnone
  · unfold FileTree.HoldsAtMost
    rwa [hsame]
  · exact .inl hnone

/-- The steps that write an output make no database, and keep all files and directories of other
places. -/
theorem at?_of_written {u v : FileTree} {target source : Text} (hcwd : Path.isAbsolute cwd = true)
    (hu : t.makeDirs cwd (Path.dir target) = .ok u) (hv : u.write cwd target source = .ok v) :
    (∀ p d, v.at? p = some (.database d) → t.at? p = some (.database d)) ∧
    (∀ p, p ≠ Path.place cwd target → ∀ e, t.at? p = some e → v.at? p = some e) ∧
    (∀ p, p ≠ Path.place cwd target → v.at? p = t.at? p ∨ v.at? p = some .directory) ∧
    v.at? (Path.place cwd target) = some (.file source) := by
  have hfurnished := FileTree.furnished_of_makeDirs hcwd hu
  obtain ⟨-, -, -, hat⟩ := FileTree.at?_of_write hcwd hv
  have hother : ∀ p, p ≠ Path.place cwd target → v.at? p = u.at? p :=
    fun p hp => by rw [hat, if_neg hp]
  refine ⟨fun p d hp => ?_, fun p hp e he => ?_, fun p hp => ?_, by rw [hat, if_pos rfl]⟩
  · rw [hat] at hp
    split at hp
    · cases hp
    · rw [hfurnished.at?_eq] at hp
      split at hp
      · cases hp
      · exact hp
  · rw [hother p hp]
    exact hfurnished.kept he
  · rw [hother p hp, hfurnished.at?_eq]
    split
    · exact .inr rfl
    · exact .inl rfl

/-- What is known of a store that has stored the digest of a target. -/
theorem digests_of_stored {s s' : Store} {u v x : FileTree} {target source : Text}
    (hcwd : Path.isAbsolute cwd = true) (hu : t.makeDirs cwd (Path.dir target) = .ok u)
    (hv : u.write cwd target source = .ok v)
    (hx : s.setOutputHash v false target (Sha256.hexDigest source) = .ok (s', x)) :
    x.Alike v ∧ ∃ h, s.reached? t = some h ∧
      s'.reached? x = some (h.setHash target (Sha256.hexDigest source)) := by
  obtain ⟨h, hreached, hreached', halike⟩ := Store.setOutputHash_eq_ok hx
  exact ⟨halike, h, Store.reached?_of_no_new (at?_of_written hcwd hu hv).1 hreached, hreached'⟩

/-- Something that stands at most with some content still does so when the target of another place
has been written. -/
theorem FileTree.HoldsAtMost.written {u v : FileTree} {target source content : Text} {p : Place}
    (h : t.HoldsAtMost p content) (hcwd : Path.isAbsolute cwd = true)
    (hu : t.makeDirs cwd (Path.dir target) = .ok u) (hv : u.write cwd target source = .ok v)
    (hp : p ≠ Path.place cwd target) : v.HoldsAtMost p content := by
  rcases (at?_of_written hcwd hu hv).2.2.1 p hp with hsame | hdirectory
  · unfold HoldsAtMost
    rwa [hsame]
  · exact .inr (.inl hdirectory)

theorem FileTree.HoldsAtMost.alike {p : Place} {content : Text} (h : t.HoldsAtMost p content)
    (halike : t'.Alike t) : t'.HoldsAtMost p content :=
  h.imp (halike p).eq_none.2 (Or.imp (halike p).eq_directory.2 (halike p).eq_file.2)

variable (hcwd : Path.isAbsolute cwd = true)
  (hnames : ∀ a ∈ names, ∀ b ∈ names, Path.place cwd a = Path.place cwd b → a = b)
  (hsources : ∀ a ∈ sources, ∀ b ∈ sources, Sha256.hexDigest a = Sha256.hexDigest b → a = b)

include hcwd

/-- Where the target holds the source already, writing it changes nothing. -/
theorem at?_of_rewritten {u v : FileTree} {outDir path source : Text}
    (hthere : t.contains cwd (outputTarget outDir path) = true)
    (hheld : t.HoldsAtMost (Path.place cwd (outputTarget outDir path)) source)
    (hu : t.makeDirs cwd (Path.dir (outputTarget outDir path)) = .ok u)
    (hv : u.write cwd (outputTarget outDir path) source = .ok v) (q : Place) :
    v.at? q = t.at? q := by
  obtain ⟨hne, e, hfollow, hentry, -⟩ := FileTree.of_contains hcwd hthere
  obtain ⟨-, hslash, hfile, hat⟩ := FileTree.at?_of_write hcwd hv
  have hfurnished := FileTree.furnished_of_makeDirs hcwd hu
  -- The directories on the way are there.
  have hsame : ∀ q, u.at? q = t.at? q := by
    obtain ⟨p, hclean⟩ := (outputTarget_eq outDir path).resolve_left hne
    rw [hclean] at hfollow hslash hfurnished
    refine hfurnished.at?_of_directories fun q hq => ?_
    obtain ⟨stage, hstage, rfl⟩ := List.mem_map.1 hq
    exact FileTree.directory_of_mem_stages hcwd hfollow hslash hstage
  rw [hat]
  split
  · rename_i hq
    rcases hheld with hnone | hdirectory | hheld
    · rw [hnone] at hentry
      cases hentry
    · exact absurd ((hsame _).trans hdirectory) hfile
    · rw [hq, hheld]
  · exact hsame q

include hnames hsources

/-- An output keeps a workspace and a tree in line, whether it is written or not. -/
theorem Mirrors.output (h : Mirrors cwd names sources w t) {outDir path source : Text}
    {d d' : Disposition} (htarget : outputTarget outDir path ∈ names) (hsource : source ∈ sources)
    (ho : Workspace.Outcome cwd (outputTarget outDir path) source w d w')
    (hp : Workspace.Outcome cwd (outputTarget outDir path) source ⟨t, none⟩ d' ⟨t', none⟩) :
    Mirrors cwd names sources w' t' := by
  have hstore := ho.isSome_store h.store
  cases hp with
  | skipped hs _ _ _ => cases hs
  | @plain u' v' _ hu' hv' =>
    cases ho with
    | skipped hs hh hhash hthere =>
      -- The tree without digests gets what the other one has already.
      have hheld := (h.inStep hs hh _ htarget _ hsource hhash).alike h.alike.symm
      rw [h.alike.contains_eq] at hthere
      have hsame := at?_of_rewritten hcwd hthere hheld hu' hv'
      exact ⟨hstore, h.alike.trans (FileTree.alike_of_at?_eq fun q => (hsame q).symm), h.inStep⟩
    | plain _ _ _ => cases hstore
    | @stored s s' u v x hs hu hv hx =>
      obtain ⟨halike, hist, hreached, hreached'⟩ := digests_of_stored hcwd hu hv hx
      refine ⟨rfl, halike.trans ((h.alike.makeDirs hcwd hu hu').write hcwd hv hv'), ?_⟩
      rintro _ hist' ⟨⟩ hh' name hname content hcontent hhash
      obtain rfl := Option.some.inj (hreached'.symm.trans hh')
      rw [History.hashOf_setHash] at hhash
      split at hhash
      · -- The digest is the new one, and so is the content.
        rename_i heq
        rw [heq, hsources content hcontent source hsource hhash.symm]
        exact .inr (.inr ((halike _).eq_file.2 (at?_of_written hcwd hu hv).2.2.2))
      · rename_i hne
        have hheld := h.inStep hs hreached name hname content hcontent hhash
        have hplace : Path.place cwd name ≠ Path.place cwd (outputTarget outDir path) :=
          fun hplace => hne (hnames _ hname _ htarget hplace)
        exact (hheld.written hcwd hu hv hplace).alike halike

end

/-! ## Call after call -/

namespace OutputCall

/-- The first outputs of a call. -/
def upTo (c : OutputCall) (k : Nat) : OutputCall := { c with outputs := c.outputs.take k }

/-- The first output of a call without a failure has an outcome, and the others follow. -/
theorem run_cons {cwd outDir path source : Text} {outputs : List (Text × Text)} {w : Workspace}
    (h : (run (Workspace.site cwd false) ⟨outDir, (path, source) :: outputs⟩ w).1.failure = none) :
    ∃ d w₁, Workspace.Outcome cwd (outputTarget outDir path) source w d w₁ ∧
      (run (Workspace.site cwd false) ⟨outDir, outputs⟩ w₁).1.failure = none ∧
      ∀ k, run (Workspace.site cwd false) ⟨outDir, (path, source) :: outputs.take k⟩ w =
        ((run (Workspace.site cwd false) ⟨outDir, outputs.take k⟩ w₁).1.count d,
          (run (Workspace.site cwd false) ⟨outDir, outputs.take k⟩ w₁).2) := by
  rcases hwrite : (writeOutput (Workspace.site cwd false) (outputTarget outDir path)
    source).run.run w with ⟨first, w₁⟩
  cases first with
  | error e =>
    rw [run, writeOutputs_cons_error hwrite] at h
    cases h
  | ok d =>
    refine ⟨d, w₁, Workspace.outcome_of_writeOutput hwrite, ?_, fun k =>
      writeOutputs_cons_ok hwrite _⟩
    rw [run, writeOutputs_cons_ok hwrite, failure_count] at h
    exact h

/-- A call without a failure counts every output. -/
theorem count_of_success {σ ε : Type} {site : OutputSite (ExceptT ε (StateM σ))} {c : OutputCall}
    {s : σ} (h : (c.run site s).1.failure = none) :
    (c.run site s).1.written + (c.run site s).1.skipped = c.outputs.length := by
  obtain ⟨outDir, outputs⟩ := c
  induction outputs generalizing s with
  | nil => rfl
  | cons x outputs ih =>
    obtain ⟨path, source⟩ := x
    rcases hwrite : (writeOutput site (outputTarget outDir path) source).run.run s with ⟨first, s₁⟩
    cases first with
    | error e =>
      rw [run, writeOutputs_cons_error hwrite] at h
      cases h
    | ok d =>
      rw [run, writeOutputs_cons_ok hwrite] at h ⊢
      have hrest := ih (failure_count _ d ▸ h)
      rw [List.length_cons, ← hrest]
      cases d
      · exact Nat.add_right_comm ..
      · exact (Nat.add_assoc ..).symm

end OutputCall

section

variable {cwd : Text} {names sources : List Text} (hcwd : Path.isAbsolute cwd = true)
  (hnames : ∀ a ∈ names, ∀ b ∈ names, Path.place cwd a = Path.place cwd b → a = b)
  (hsources : ∀ a ∈ sources, ∀ b ∈ sources, Sha256.hexDigest a = Sha256.hexDigest b → a = b)

include hcwd hnames hsources

/-- After each output of a call, a workspace with a store mirrors one without. -/
theorem Mirrors.run {c : OutputCall} {w p : Workspace} (h : Mirrors cwd names sources w p.tree)
    (hp : p.store = none) (htargets : ∀ x ∈ c.outputs, outputTarget c.outDir x.1 ∈ names)
    (hknown : ∀ x ∈ c.outputs, x.2 ∈ sources)
    (hok : (c.run (Workspace.site cwd false) w).1.failure = none)
    (hplain : (c.run (Workspace.site cwd false) p).1.failure = none) (k : Nat) :
    Mirrors cwd names sources ((c.upTo k).run (Workspace.site cwd false) w).2
      ((c.upTo k).run (Workspace.site cwd false) p).2.tree ∧
    ((c.upTo k).run (Workspace.site cwd false) p).2.store = none := by
  obtain ⟨outDir, outputs⟩ := c
  unfold OutputCall.upTo
  induction outputs generalizing w p k with
  | nil =>
    rw [List.take_nil]
    exact ⟨h, hp⟩
  | cons x outputs ih =>
    cases k with
    | zero => exact ⟨h, hp⟩
    | succ k =>
      obtain ⟨path, source⟩ := x
      obtain ⟨d, w₁, ho, hrest, hrun⟩ := OutputCall.run_cons hok
      obtain ⟨d', p₁, ho', hrest', hrun'⟩ := OutputCall.run_cons hplain
      obtain ⟨htarget, htargets⟩ := List.forall_mem_cons.1 htargets
      obtain ⟨hsource, hknown⟩ := List.forall_mem_cons.1 hknown
      rw [List.take_succ_cons, hrun, hrun']
      obtain ⟨t, store⟩ := p
      obtain rfl : store = none := hp
      -- Without a store an output is written in the plain way, so there is none afterwards.
      have hstore : p₁.store = none := by
        cases ho' with
        | skipped hs _ _ _ => cases hs
        | plain _ _ _ => rfl
        | stored hs _ _ _ => cases hs
      obtain ⟨t₁, store₁⟩ := p₁
      obtain rfl : store₁ = none := hstore
      exact ih (p := ⟨t₁, none⟩) (h.output hcwd hnames hsources htarget hsource ho ho') rfl k
        htargets hknown hrest hrest'

end

/-! ## A call once more -/

namespace FileTree

/-- A name is found as long as no directory is lost and something fitting stands at its end. -/
theorem contains_of_kept {t u : FileTree} {cwd p : Text} (hcwd : Path.isAbsolute cwd = true)
    {stop : Stop} (hfollow : t.follow cwd p = .ok stop)
    (hkept : ∀ q, t.at? q = some .directory → u.at? q = some .directory) {e : Entry}
    (he : u.at? (Path.place cwd p) = some e) (hslash : wantsDirectory p = true → e = .directory) :
    u.contains cwd p = true := by
  rw [← (follow_place hcwd hfollow).1] at he
  have hfound : u.follow cwd p = .ok (.found stop.place e) := by
    have hfrom := follow_eq_ok hfollow
    unfold follow at hfollow ⊢
    rw [hfrom] at hfollow
    rw [walkFrom_of_kept hkept hfrom he]
    split at hfollow
    · cases hfollow
    split at hfollow
    · cases hfollow
    split at hfollow
    · cases hfollow
    · simp_all
  unfold contains stat walk
  rw [hfound]
  cases hp : wantsDirectory p with
  | true =>
    rw [hslash hp]
    rfl
  | false => cases e <;> rfl

theorem contains_of_write {t u : FileTree} {cwd p content : Text}
    (hcwd : Path.isAbsolute cwd = true) (h : t.write cwd p content = .ok u) :
    u.contains cwd p = true := by
  obtain ⟨⟨stop, hfollow⟩, hslash, hfile, hat⟩ := at?_of_write hcwd h
  refine contains_of_kept hcwd hfollow (fun q hq => ?_) (e := .file content) ?_ ?_
  · rw [hat, if_neg, hq]
    rintro rfl
    exact hfile hq
  · rw [hat, if_pos rfl]
  · rw [hslash]
    exact nofun

/-- What is found at one name is found there when the target of another place has been written. -/
theorem contains_of_written {t u v : FileTree} {cwd target source name : Text}
    (hcwd : Path.isAbsolute cwd = true) (hu : t.makeDirs cwd (Path.dir target) = .ok u)
    (hv : u.write cwd target source = .ok v) (hplace : Path.place cwd name ≠ Path.place cwd target)
    (h : t.contains cwd name = true) : v.contains cwd name = true := by
  obtain ⟨-, e, hfollow, hentry, hslash⟩ := of_contains hcwd h
  obtain ⟨-, hkept, -, -⟩ := at?_of_written hcwd hu hv
  refine contains_of_kept hcwd hfollow (fun q hq => ?_) (hkept _ hplace e hentry) hslash
  -- The target that was written is no directory.
  refine hkept q ?_ _ hq
  rintro rfl
  exact (at?_of_write hcwd hv).2.2.1 ((furnished_of_makeDirs hcwd hu).kept hq)

end FileTree

/-- The digest of a source is stored for a target, and something stands there. -/
def Workspace.Settled (cwd : Text) (w : Workspace) (target source : Text) : Prop :=
  ∃ s h, w.store = some s ∧ s.reached? w.tree = some h ∧
    h.hashOf target = Sha256.hexDigest source ∧ w.tree.contains cwd target = true

namespace Workspace

variable {cwd : Text} {w w' : Workspace} {target source : Text} {d : Disposition}

/-- An output is settled when it has been written or left alone. -/
theorem Outcome.settled (h : Outcome cwd target source w d w') (hcwd : Path.isAbsolute cwd = true)
    (hstore : w.store.isSome = true) : Settled cwd w' target source := by
  cases h with
  | skipped hs hh hhash hthere => exact ⟨_, _, hs, hh, hhash, hthere⟩
  | plain hs _ _ =>
    rw [hs] at hstore
    cases hstore
  | stored hs ht hu hv =>
    obtain ⟨halike, hist, -, hreached⟩ := digests_of_stored hcwd ht hu hv
    refine ⟨_, _, rfl, hreached, ?_, ?_⟩
    · rw [History.hashOf_setHash, if_pos rfl]
    · rw [halike.contains_eq]
      exact FileTree.contains_of_write hcwd hu

/-- What is settled stays so when the target of another place is written. -/
theorem Settled.output (h : Settled cwd w target source) (hcwd : Path.isAbsolute cwd = true)
    {target' source' : Text} (ho : Outcome cwd target' source' w d w')
    (hplace : Path.place cwd target ≠ Path.place cwd target') : Settled cwd w' target source := by
  obtain ⟨s, hist, hs, hreached, hhash, hthere⟩ := h
  cases ho with
  | skipped _ _ _ _ => exact ⟨s, hist, hs, hreached, hhash, hthere⟩
  | plain hnone _ _ =>
    rw [hs] at hnone
    cases hnone
  | @stored s₁ s' t u v hs₁ ht hu hv =>
    obtain rfl := Option.some.inj (hs.symm.trans hs₁)
    obtain ⟨halike, hist', hold, hnew⟩ := digests_of_stored hcwd ht hu hv
    obtain rfl := Option.some.inj (hreached.symm.trans hold)
    refine ⟨_, _, rfl, hnew, ?_, ?_⟩
    · rw [History.hashOf_setHash, if_neg fun heq => hplace (by rw [heq]), hhash]
    · rw [halike.contains_eq]
      exact FileTree.contains_of_written hcwd ht hu hplace hthere

/-- An output that is settled is left alone. -/
theorem Settled.writeOutput (h : Settled cwd w target source) :
    (writeOutput (site cwd false) target source).run.run w = (.ok .skipped, w) := by
  obtain ⟨s, hist, hs, hreached, hhash, hthere⟩ := h
  have hok := Store.outputHash_eq_ok.2 ⟨hist, hreached, hhash⟩
  have hensures : Ensures (CubeSchema.writeOutput (site cwd false) target source) w fun r w' =>
      r = .ok .skipped ∧ w' = w := by
    rw [writeOutput_eq]
    refine Ensures.bind (P := fun r w₁ => r = .ok () ∧ w₁ = w) (ensures_pure ⟨rfl, rfl⟩)
      (fun _ w₁ h₁ => ?_) fun e w₁ h => nomatch h.1
    obtain ⟨-, rfl⟩ := h₁
    refine Ensures.bind (P := fun r w₂ => r = .ok (some (Sha256.hexDigest source)) ∧ w₂ = w₁) ?_
      (fun known w₂ h₂ => ?_) fun e w₂ h => nomatch h.1
    · refine ensures_get_bind ?_
      rw [hs]
      dsimp only
      rw [hok]
      exact ensures_pure ⟨rfl, rfl⟩
    · obtain ⟨hknown, rfl⟩ := h₂
      rw [if_pos (Except.ok.inj hknown)]
      refine Ensures.bind (P := fun r w₃ => r = .ok (w₂.tree.contains cwd target) ∧ w₃ = w₂)
        (ensures_get_bind (ensures_pure ⟨rfl, rfl⟩)) (fun there w₃ h₃ => ?_)
        fun e w₃ h => nomatch h.1
      obtain ⟨hfound, rfl⟩ := h₃
      rw [settle, if_pos ((Except.ok.inj hfound).trans hthere)]
      exact ensures_pure ⟨rfl, rfl⟩
  exact Prod.ext hensures.1 hensures.2

/-- A call of which all outputs are settled leaves everything alone. -/
theorem run_of_settled {c : OutputCall}
    (h : ∀ x ∈ c.outputs, Settled cwd w (outputTarget c.outDir x.1) x.2) :
    c.run (site cwd false) w = ({ skipped := c.outputs.length }, w) := by
  obtain ⟨outDir, outputs⟩ := c
  induction outputs with
  | nil => rfl
  | cons x outputs ih =>
    obtain ⟨path, source⟩ := x
    obtain ⟨hfirst, hrest⟩ := List.forall_mem_cons.1 h
    have hrun : (writeOutputs (site cwd false) outDir outputs).run w =
        ({ skipped := outputs.length }, w) := ih hrest
    rw [OutputCall.run, writeOutputs_cons_ok hfirst.writeOutput, hrun]
    rfl

/-- After a call without a failure all its outputs are settled, and so is what was settled before
and has other places. -/
theorem settled_of_run (hcwd : Path.isAbsolute cwd = true) {c : OutputCall}
    (hstore : w.store.isSome = true) (hok : (c.run (site cwd false) w).1.failure = none)
    (hplaces : (c.targets.map (Path.place cwd)).Nodup) :
    (∀ x ∈ c.outputs, Settled cwd (c.run (site cwd false) w).2 (outputTarget c.outDir x.1) x.2) ∧
    ∀ target source, Path.place cwd target ∉ c.targets.map (Path.place cwd) →
      Settled cwd w target source → Settled cwd (c.run (site cwd false) w).2 target source := by
  obtain ⟨outDir, outputs⟩ := c
  induction outputs generalizing w with
  | nil => exact ⟨fun x hx => absurd hx List.not_mem_nil, fun _ _ _ h => h⟩
  | cons x outputs ih =>
    obtain ⟨path, source⟩ := x
    obtain ⟨d, w₁, ho, hrest, hrun⟩ := OutputCall.run_cons hok
    have hrun := hrun outputs.length
    rw [List.take_length] at hrun
    rw [hrun]
    obtain ⟨hnew, hplaces⟩ := List.nodup_cons.1 hplaces
    obtain ⟨hsettled, hkept⟩ := ih (ho.isSome_store hstore) hrest hplaces
    refine ⟨fun x hx => ?_, fun target source' hother h => ?_⟩
    · rcases List.mem_cons.1 hx with rfl | hx
      · exact hkept _ _ hnew (ho.settled hcwd hstore)
      · exact hsettled x hx
    · obtain ⟨hne, hother⟩ := List.ne_and_not_mem_of_not_mem_cons hother
      exact hkept target source' hother (h.output hcwd ho hne)

end Workspace

/-! ## The same files -/

/-- What is done to the files: outputs are written, or something is removed. -/
inductive FileEvent where
  /-- A call writes its outputs. -/
  | call (c : OutputCall)
  /-- What stands at a name is removed. -/
  | removal (name : Text)

namespace FileEvent

/-- The workspace after an event. -/
def apply (cwd : Text) (w : Workspace) : FileEvent → Workspace
  | call c => (c.run (Workspace.site cwd false) w).2
  | removal name => { w with tree := w.tree.remove cwd name }

/-- The workspace after events. -/
def applyAll (cwd : Text) (events : List FileEvent) (w : Workspace) : Workspace :=
  events.foldl (apply cwd) w

/-- A call does not fail. -/
def Succeeds (cwd : Text) (w : Workspace) : FileEvent → Prop
  | call c => (c.run (Workspace.site cwd false) w).1.failure = none
  | removal _ => True

/-- None of the calls fails. -/
def AllSucceed (cwd : Text) : List FileEvent → Workspace → Prop
  | [], _ => True
  | e :: events, w => e.Succeeds cwd w ∧ AllSucceed cwd events (e.apply cwd w)

instance (cwd : Text) (w : Workspace) (e : FileEvent) : Decidable (e.Succeeds cwd w) :=
  match e with
  | call c => inferInstanceAs (Decidable ((c.run (Workspace.site cwd false) w).1.failure = none))
  | removal _ => inferInstanceAs (Decidable True)

instance decidableAllSucceed (cwd : Text) :
    (events : List FileEvent) → (w : Workspace) → Decidable (AllSucceed cwd events w)
  | [], _ => inferInstanceAs (Decidable True)
  | e :: events, w =>
    have := decidableAllSucceed cwd events (e.apply cwd w)
    inferInstanceAs (Decidable (_ ∧ _))

/-- The calls among events. -/
def calls (events : List FileEvent) : List OutputCall :=
  events.filterMap fun
    | call c => some c
    | removal _ => none

/-- The names of all targets. -/
def targets (events : List FileEvent) : List Text := (calls events).flatMap OutputCall.targets

theorem allSucceed_append {cwd : Text} {before after : List FileEvent} {w : Workspace}
    (h : AllSucceed cwd (before ++ after) w) :
    AllSucceed cwd before w ∧ AllSucceed cwd after (applyAll cwd before w) := by
  induction before generalizing w with
  | nil => exact ⟨trivial, h⟩
  | cons e before ih => exact ⟨⟨h.1, (ih h.2).1⟩, (ih h.2).2⟩

theorem applyAll_snoc (cwd : Text) (events : List FileEvent) (e : FileEvent) (w : Workspace) :
    applyAll cwd (events ++ [e]) w = e.apply cwd (applyAll cwd events w) := List.foldl_concat ..

end FileEvent

/-- Along all events, a workspace with a store mirrors one without. -/
theorem Mirrors.applyAll {cwd : Text} {names sources : List Text}
    (hcwd : Path.isAbsolute cwd = true)
    (hnames : ∀ a ∈ names, ∀ b ∈ names, Path.place cwd a = Path.place cwd b → a = b)
    (hsources : ∀ a ∈ sources, ∀ b ∈ sources, Sha256.hexDigest a = Sha256.hexDigest b → a = b)
    {events : List FileEvent}
    (hcalls : ∀ c, .call c ∈ events →
      ∀ x ∈ c.outputs, outputTarget c.outDir x.1 ∈ names ∧ x.2 ∈ sources)
    {w p : Workspace} (h : Mirrors cwd names sources w p.tree) (hp : p.store = none)
    (hok : FileEvent.AllSucceed cwd events w) (hplain : FileEvent.AllSucceed cwd events p) :
    Mirrors cwd names sources (FileEvent.applyAll cwd events w)
      (FileEvent.applyAll cwd events p).tree ∧ (FileEvent.applyAll cwd events p).store = none := by
  induction events generalizing w p with
  | nil => exact ⟨h, hp⟩
  | cons e events ih =>
    have hrest := fun c hc => hcalls c (List.mem_cons_of_mem _ hc)
    cases e with
    | removal name => exact ih hrest (h.remove name) hp hok.2 hplain.2
    | call c =>
      have hc := hcalls c (List.mem_cons_self ..)
      have hrun := h.run hcwd hnames hsources hp (fun x hx => (hc x hx).1)
        (fun x hx => (hc x hx).2) hok.1 hplain.1 c.outputs.length
      rw [OutputCall.upTo, List.take_length] at hrun
      exact ih hrest hrun.1 hrun.2 hok.2 hplain.2

/-- Outputs are written by calls and things are removed between them, from an empty store on, and
nothing fails. If no two targets lead to one place and no two sources have one digest, then after
each output of each call all names read as if there were no store. Every call counts all its
outputs, and if it has no target twice and is made once more at once, it leaves all of them
alone. -/
theorem cache_transparent {cwd : Text} (hcwd : Path.isAbsolute cwd = true) {w : Workspace}
    {s : Store} (hstore : w.store = some s) (hempty : ∀ t, s.outputHash w.tree false t = .ok [])
    {events : List FileEvent} (hok : FileEvent.AllSucceed cwd events w)
    (hplain : FileEvent.AllSucceed cwd events { w with store := none })
    (hplaces : ∀ a ∈ FileEvent.targets events, ∀ b ∈ FileEvent.targets events,
      Path.place cwd a = Path.place cwd b → a = b)
    (hsources : ∀ a ∈ OutputCall.sources (FileEvent.calls events),
      ∀ b ∈ OutputCall.sources (FileEvent.calls events),
        Sha256.hexDigest a = Sha256.hexDigest b → a = b) :
    ∀ before c after, events = before ++ .call c :: after →
      (∀ k name, (FileEvent.applyAll cwd (before ++ [.call (c.upTo k)]) w).tree.read cwd name =
        (FileEvent.applyAll cwd (before ++ [.call (c.upTo k)])
          { w with store := none }).tree.read cwd name) ∧
      ((c.run (Workspace.site cwd false) (FileEvent.applyAll cwd before w)).1.written +
        (c.run (Workspace.site cwd false) (FileEvent.applyAll cwd before w)).1.skipped =
          c.outputs.length) ∧
      (c.targets.Nodup →
        c.run (Workspace.site cwd false) (FileEvent.applyAll cwd (before ++ [.call c]) w) =
          ({ written := 0, skipped := c.outputs.length },
            FileEvent.applyAll cwd (before ++ [.call c]) w)) := by
  rintro before c after rfl
  have hcalls : ∀ c', .call c' ∈ before ++ .call c :: after → ∀ x ∈ c'.outputs,
      outputTarget c'.outDir x.1 ∈ FileEvent.targets (before ++ .call c :: after) ∧
        x.2 ∈ OutputCall.sources (FileEvent.calls (before ++ .call c :: after)) := by
    intro c' hc' x hx
    have hmem : c' ∈ FileEvent.calls (before ++ .call c :: after) :=
      List.mem_filterMap.2 ⟨_, hc', rfl⟩
    exact ⟨List.mem_flatMap.2 ⟨c', hmem, List.mem_map_of_mem hx⟩,
      List.mem_flatMap.2 ⟨c', hmem, List.mem_map_of_mem hx⟩⟩
  -- In an empty store there is nothing to be in step with.
  have hstart : Mirrors cwd (FileEvent.targets (before ++ .call c :: after))
      (OutputCall.sources (FileEvent.calls (before ++ .call c :: after))) w w.tree := by
    refine ⟨by rw [hstore]; rfl, FileTree.alike_of_at?_eq fun _ => rfl, ?_⟩
    intro s' h hs' hreached target _ source _ hhash
    obtain rfl := Option.some.inj (hstore.symm.trans hs')
    obtain ⟨h', hreached', hnil⟩ := Store.outputHash_eq_ok.1 (hempty target)
    obtain rfl := Option.some.inj (hreached.symm.trans hreached')
    exact absurd (hhash.symm.trans hnil) (Sha256.hexDigest_ne_nil source)
  obtain ⟨hbefore, hc, -⟩ := FileEvent.allSucceed_append hok
  obtain ⟨hbefore', hc', -⟩ := FileEvent.allSucceed_append hplain
  have hcall : .call c ∈ before ++ .call c :: after :=
    List.mem_append_right _ (List.mem_cons_self ..)
  obtain ⟨hmirrors, hnone⟩ := Mirrors.applyAll (p := { w with store := none }) hcwd hplaces hsources
    (fun c' h => hcalls c' (List.mem_append_left _ h)) hstart rfl hbefore hbefore'
  refine ⟨fun k name => ?_, OutputCall.count_of_success hc, fun hdistinct => ?_⟩
  · have hrun := hmirrors.run hcwd hplaces hsources hnone (fun x hx => (hcalls c hcall x hx).1)
      (fun x hx => (hcalls c hcall x hx).2) hc hc' k
    rw [FileEvent.applyAll_snoc, FileEvent.applyAll_snoc]
    exact hrun.1.alike.read_eq cwd name
  · -- Different targets lead to different places.
    have hdistinct' : (c.targets.map (Path.place cwd)).Nodup := by
      refine List.Nodup.map_on (fun a ha b hb => hplaces a ?_ b ?_) hdistinct
      · exact List.mem_flatMap.2 ⟨c, List.mem_filterMap.2 ⟨_, hcall, rfl⟩, ha⟩
      · exact List.mem_flatMap.2 ⟨c, List.mem_filterMap.2 ⟨_, hcall, rfl⟩, hb⟩
    rw [FileEvent.applyAll_snoc]
    exact Workspace.run_of_settled
      (Workspace.settled_of_run hcwd hmirrors.store hc hdistinct').1

/-- An output is written, lost, written again and changed. -/
def lostAndChanged : List FileEvent :=
  [.call (callWith "a"), .removal (lit "out/a.js"), .call (callWith "a"), .call (callWith "b")]

/-- What was lost is there again, and the last call has nothing more to do. -/
theorem lostAndChanged_transparent :
    ((FileEvent.applyAll (lit "/p") (lostAndChanged.take 3) blankWorkspace).tree.read (lit "/p")
      (lit "out/a.js")).toOption = some (lit "a") ∧
    (callWith "b").run (Workspace.site (lit "/p") false)
        (FileEvent.applyAll (lit "/p") lostAndChanged blankWorkspace) =
      ({ written := 0, skipped := 1 },
        FileEvent.applyAll (lit "/p") lostAndChanged blankWorkspace) := by
  have hok : FileEvent.AllSucceed (lit "/p") lostAndChanged blankWorkspace := by decide +kernel
  have h := cache_transparent (by decide +kernel) rfl (fun _ => rfl) hok (by decide +kernel)
    (by decide +kernel) (by decide +kernel)
  refine ⟨?_, (h (lostAndChanged.take 3) (callWith "b") [] rfl).2.2 (by decide +kernel)⟩
  have htake : lostAndChanged.take 3 =
      lostAndChanged.take 2 ++ [.call ((callWith "a").upTo 1)] := rfl
  rw [htake, (h (lostAndChanged.take 2) (callWith "a") [.call (callWith "b")] rfl).1 1]
  decide +kernel

/-- A file is written by one name, changed by another, and changed back by the first. -/
def changedByOtherName : List FileEvent :=
  [.call (callWith "a"), .call ⟨lit "/p/out", [(lit "a.js", lit "b")]⟩, .call (callWith "a")]

/-- A directory takes the place of a file that is lost. -/
def lostToDirectory : List FileEvent :=
  [.call (callWith "a"), .removal (lit "out/a.js"),
    .call ⟨lit "out/a.js", [(lit "b.js", lit "b")]⟩, .call (callWith "a")]

/-- Nothing fails with a store or without, and yet a file that is reached by two names has not the
content that it has without a store. Where a directory has come to stand at a target, the output is
left alone with a store, and cannot be written without one. -/
theorem stale_digest_visible :
    FileEvent.AllSucceed (lit "/p") changedByOtherName blankWorkspace ∧
    FileEvent.AllSucceed (lit "/p") changedByOtherName { blankWorkspace with store := none } ∧
    ((FileEvent.applyAll (lit "/p") changedByOtherName blankWorkspace).tree.read (lit "/p")
      (lit "out/a.js")).toOption = some (lit "b") ∧
    ((FileEvent.applyAll (lit "/p") changedByOtherName
      { blankWorkspace with store := none }).tree.read (lit "/p")
        (lit "out/a.js")).toOption = some (lit "a") ∧
    FileEvent.AllSucceed (lit "/p") lostToDirectory blankWorkspace ∧
    ¬ FileEvent.AllSucceed (lit "/p") lostToDirectory { blankWorkspace with store := none } := by
  decide +kernel

end CubeSchema
