import CubeSchema.Proofs.FileTree.Likeness
import CubeSchema.Store

/-!
# Reaching a history

Every operation of a store starts from the history that its database holds, if that can be reached,
and one that changes the history saves another one in its place. No change of files and directories
makes a history, and saving one changes nothing but the database. A store that has just been opened
can be reached.
-/

namespace CubeSchema

/-! ## Digests of a history -/

namespace History

@[simp] theorem hashOf_setHash (h : History) (path hash other : Text) :
    (h.setHash path hash).hashOf other = if other = path then hash else h.hashOf other := by
  rw [hashOf, setHash, forgetHash, FileTree.lookup_replaced, hashOf]
  split <;> rfl

@[simp] theorem hashOf_forgetHash (h : History) (path other : Text) :
    (h.forgetHash path).hashOf other = if other = path then [] else h.hashOf other := by
  by_cases hother : other = path
  · have hnone : (h.forgetHash path).hashes.lookup other = none := by
      refine List.lookup_eq_none_iff.2 fun e he => ?_
      have hne : e.1 ≠ path := by simpa using (List.mem_filter.1 he).2
      simpa [hother] using hne.symm
    rw [hashOf, hnone, if_pos hother]
    rfl
  · -- Whatever is stored for the path afterwards has no part in this.
    have hset := h.hashOf_setHash path [] other
    rw [hashOf, setHash, List.lookup_append, FileTree.lookup_cons_eq, if_neg hother] at hset
    simpa [hashOf] using hset

end History

/-! ## The history of a store -/

/-- Where the tables are made there is a history. -/
theorem Database.exists_migrate_eq (d : Database) : ∃ h, d.migrate = .ready h := by
  cases d with
  | blank => exact ⟨{}, rfl⟩
  | ready h => exact ⟨h, rfl⟩

namespace Store

/-- The history of a store, if it can be reached. -/
def reached? (s : Store) (t : FileTree) : Option History :=
  if s.backing = .none || s.closed then none
  else
    match s.database t with
    | .blank => none
    | .ready h => some h

theorem history_eq_ok {s : Store} {t : FileTree} {action : StoreAction} {h : History} :
    s.history t false action = .ok h ↔ s.reached? t = some h := by
  unfold history reached?
  by_cases hnone : s.backing = .none
  · simp [hnone]
  by_cases hclosed : s.closed = true
  · simp [hnone, hclosed]
  · simp only [hnone, hclosed, decide_false, Bool.or_self, Bool.false_eq_true, if_false]
    cases s.database t <;> simp

/-- Work that has been called off gets through to no history. -/
theorem reached?_of_history {s : Store} {t : FileTree} {cancelled : Bool} {action : StoreAction}
    {h : History} (hh : s.history t cancelled action = .ok h) : s.reached? t = some h := by
  cases cancelled with
  | false => exact history_eq_ok.1 hh
  | true =>
    unfold history at hh
    split at hh
    · cases hh
    split at hh <;> cases hh

/-- What succeeds behind the history has got one. -/
theorem exists_reached_of_bind {α : Type} {s : Store} {t : FileTree} {cancelled : Bool}
    {action : StoreAction} {next : History → Except StoreError α} {a : α}
    (h : (s.history t cancelled action >>= next) = .ok a) :
    ∃ hist, s.reached? t = some hist ∧ next hist = .ok a := by
  cases hhistory : s.history t cancelled action with
  | error e =>
    rw [hhistory] at h
    cases h
  | ok hist =>
    rw [hhistory] at h
    exact ⟨hist, reached?_of_history hhistory, h⟩

theorem outputHash_eq_ok {s : Store} {t : FileTree} {path hash : Text} :
    s.outputHash t false path = .ok hash ↔ ∃ h, s.reached? t = some h ∧ h.hashOf path = hash := by
  unfold outputHash
  simp only [← @history_eq_ok _ _ .getHash]
  cases s.history t false .getHash with
  | error e => exact ⟨nofun, nofun⟩
  | ok h =>
    constructor
    · intro hhash
      exact ⟨h, rfl, Except.ok.inj hhash⟩
    · rintro ⟨h', hh, hhash⟩
      obtain rfl := Except.ok.inj hh
      exact congrArg Except.ok hhash

/-- A history that is reached was there before, if no database has been made. -/
theorem reached?_of_no_new {s : Store} {t u : FileTree} {h : History}
    (hold : ∀ p d, u.at? p = some (.database d) → t.at? p = some (.database d))
    (hu : s.reached? u = some h) : s.reached? t = some h := by
  unfold reached? at hu ⊢
  split at hu
  · cases hu
  · rename_i hopen
    rw [if_neg hopen]
    unfold database at hu ⊢
    cases hbacking : s.backing with
    | none => simp [hbacking] at hopen
    | memory d =>
      rw [hbacking] at hu
      exact hu
    | file place =>
      rw [hbacking] at hu
      dsimp only at hu ⊢
      split at hu
      · cases hu
      · rename_i h' hdatabase
        split at hdatabase
        · -- The database of the later tree stood at its place before.
          rename_i d hat
          rw [hold place d hat]
          dsimp only
          rw [hdatabase]
          exact hu
        · cases hdatabase

/-- The history that was saved is the one that is reached, and only the database has changed. -/
theorem reached?_save {s : Store} {t : FileTree} {h : History} (hreached : s.reached? t = some h)
    (h' : History) : (s.save t (.ready h')).1.reached? (s.save t (.ready h')).2 = some h' ∧
      (s.save t (.ready h')).2.Alike t := by
  unfold reached? at hreached
  split at hreached
  · cases hreached
  · rename_i hopen
    unfold save
    cases hbacking : s.backing with
    | none => simp [hbacking] at hopen
    | memory d =>
      have hclosed : s.closed = false := by simpa [hbacking] using hopen
      exact ⟨by simp [reached?, database, hclosed], FileTree.alike_of_at?_eq fun _ => rfl⟩
    | file place =>
      -- A history has been reached, so there is a database to be replaced.
      obtain ⟨d, hat⟩ : ∃ d, t.at? place = some (.database d) := by
        unfold database at hreached
        rw [hbacking] at hreached
        dsimp only at hreached
        split at hreached
        · cases hreached
        · rename_i hdatabase
          split at hdatabase
          · exact ⟨_, ‹_›⟩
          · cases hdatabase
      have hplace : place ≠ [] := FileTree.ne_nil_of_at? (by rw [hat]; simp)
      dsimp only
      refine ⟨?_, fun q => ?_⟩
      · unfold reached?
        rw [if_neg hopen]
        unfold database
        rw [hbacking]
        simp [FileTree.at?_put t hplace]
      · rw [FileTree.at?_put t hplace]
        split
        · rename_i hq
          rw [hq, hat]
          exact .database _ _
        · exact .refl _

/-- Storing a digest adds it to the history and changes databases only. -/
theorem setOutputHash_eq_ok {s s' : Store} {t u : FileTree} {cancelled : Bool} {path hash : Text}
    (h : s.setOutputHash t cancelled path hash = .ok (s', u)) :
    ∃ hist, s.reached? t = some hist ∧ s'.reached? u = some (hist.setHash path hash) ∧
      u.Alike t := by
  unfold setOutputHash at h
  obtain ⟨hist, hreached, hsaved⟩ := exists_reached_of_bind h
  have hsave := reached?_save hreached (hist.setHash path hash)
  rw [show s.save t (.ready (hist.setHash path hash)) = (s', u) from Except.ok.inj hsaved] at hsave
  exact ⟨hist, hreached, hsave⟩

/-- Starting a run adds it to the history and changes databases only. -/
theorem createRun_eq_ok {s s' : Store} {t u : FileTree} {cancelled : Bool} {id : Text} {now : Int}
    {run : Run} (h : s.createRun t cancelled id now = .ok (run, s', u)) :
    ∃ hist, s.reached? t = some hist ∧ s'.reached? u = some (hist.start id now) ∧
      u.Alike t := by
  unfold createRun at h
  obtain ⟨hist, hreached, hsaved⟩ := exists_reached_of_bind h
  have hsave := reached?_save hreached (hist.start id now)
  rw [show s.save t (.ready (hist.start id now)) = (s', u) from
    (Prod.mk.inj (Except.ok.inj hsaved)).2] at hsave
  exact ⟨hist, hreached, hsave⟩

/-- Recording the outcome of a run needs the run, and changes databases only. -/
theorem completeRun_eq_ok {s s' : Store} {t u : FileTree} {cancelled : Bool} {id : Text} {now : Int}
    {outcome : RunOutcome} (h : s.completeRun t cancelled id now outcome = .ok (s', u)) :
    ∃ hist, s.reached? t = some hist ∧ (hist.run? id).isSome = true ∧
      s'.reached? u = some (hist.finish id now outcome) ∧ u.Alike t := by
  unfold completeRun at h
  obtain ⟨hist, hreached, hsaved⟩ := exists_reached_of_bind h
  split at hsaved
  · have hsave := reached?_save hreached (hist.finish id now outcome)
    rw [show s.save t (.ready (hist.finish id now outcome)) = (s', u) from
      Except.ok.inj hsaved] at hsave
    exact ⟨hist, hreached, ‹_›, hsave⟩
  · cases hsaved

/-! ## Opening -/

/-- What stands where after a database has been opened: it has been put at its place, and otherwise
directories have been made where nothing stood. -/
theorem at?_of_open {s : Store} {t u : FileTree} {cwd path : Text}
    (hcwd : Path.isAbsolute cwd = true) (h : Store.open? t cwd path = (.ok s, u)) :
    (∃ hist, s.reached? u = some hist) ∧
      ∀ p, s.backing ≠ .file p → ∀ content,
        u.at? p = some (.file content) ↔ t.at? p = some (.file content) := by
  unfold Store.open? at h
  split at h
  · obtain ⟨hs, rfl⟩ := Prod.mk.inj h
    obtain rfl := Except.ok.inj hs
    exact ⟨⟨{}, rfl⟩, fun _ _ _ => Iff.rfl⟩
  split at h
  · cases (Prod.mk.inj h).1
  rename_i t₁ hdirs
  have hfurnished := FileTree.furnished_of_makeDirs hcwd hdirs
  have hfiles : ∀ p content,
      t₁.at? p = some (.file content) ↔ t.at? p = some (.file content) := by
    intro p content
    rw [hfurnished.at?_eq]
    split
    · rcases hfurnished.free p ‹_› with hfree | hfree <;> simp [hfree]
    · exact Iff.rfl
  -- Wherever there is something to be opened, a history is put there.
  have hready : ∀ {place : Place} {d : Database}, t₁.at? place ≠ some .directory →
      ((.ok ⟨path, .file place, false⟩, t₁.put place (.database d.migrate)) :
        Except StoreError Store × FileTree) = (.ok s, u) →
      (∃ hist, s.reached? u = some hist) ∧
        ∀ p, s.backing ≠ .file p → ∀ content,
          u.at? p = some (.file content) ↔ t.at? p = some (.file content) := by
    intro place d hvacant heq
    obtain ⟨hs, rfl⟩ := Prod.mk.inj heq
    obtain rfl := Except.ok.inj hs
    have hplace := FileTree.ne_nil_of_at? hvacant
    refine ⟨?_, fun p hp content => ?_⟩
    · obtain ⟨hist, hhist⟩ := d.exists_migrate_eq
      exact ⟨hist, by simp [reached?, database, FileTree.at?_put t₁ hplace, hhist]⟩
    · rw [FileTree.at?_put t₁ hplace, if_neg (fun heq => hp (by rw [heq])), hfiles]
  dsimp only at h
  split at h
  · rename_i place d hwalk
    obtain ⟨-, hentry⟩ := FileTree.follow_place hcwd (FileTree.walk_eq_ok hwalk)
    exact hready (by rw [show t₁.at? place = some (.database d) from hentry]; simp) h
  · rename_i place hwalk
    obtain ⟨-, hentry⟩ := FileTree.follow_place hcwd (FileTree.walk_eq_ok hwalk)
    exact hready (by rw [show t₁.at? place = some (.file []) from hentry]; simp) h
  · cases (Prod.mk.inj h).1
  · rename_i place hwalk
    obtain ⟨-, hentry⟩ := FileTree.follow_place hcwd (FileTree.walk_eq_ok hwalk)
    split at h
    · cases (Prod.mk.inj h).1
    · exact hready (by rw [show t₁.at? place = none from hentry]; simp) h
  · cases (Prod.mk.inj h).1

end Store

end CubeSchema
