import CubeSchema.Proofs.FileTree.Disk
import CubeSchema.Proofs.Path.Steps

/-!
# Changes that leave a directory alone

Following a name in a file tree ends at the place that the name alone gives, since no component is a
link. A change spares a place if the files there and below stay what they are and no directory is
lost anywhere; what is loaded from a directory that was spared is what was loaded before.
-/

namespace CubeSchema

namespace FileTree

/-! ## Where a walk ends -/

/-- The place where a walk ends. -/
def Stop.place : Stop → Place
  | found place _ => place
  | vacant place => place

/-- What a walk finds at its end. -/
def Stop.entry? : Stop → Option Entry
  | found _ entry => some entry
  | vacant _ => none

/-- One step of a walk: it starts at a directory, and its component stays, goes up, ends the walk at
a free name, or goes down to something. -/
theorem walkFrom_cons {t : FileTree} {place : Place} {c : Text} {rest : List Text} {stop : Stop} :
    t.walkFrom place (c :: rest) = .ok stop ↔ t.at? place = some .directory ∧
      (c = Path.here ∧ t.walkFrom place rest = .ok stop ∨
        c = Path.up ∧ t.walkFrom place.dropLast rest = .ok stop ∨
        c ≠ Path.here ∧ c ≠ Path.up ∧ c.length ≤ maxComponent ∧
          ((t.at? (place ++ [c]) = none ∧ rest = [] ∧ stop = .vacant (place ++ [c])) ∨
            (∃ e, t.at? (place ++ [c]) = some e) ∧ t.walkFrom (place ++ [c]) rest = .ok stop)) := by
  conv => lhs; unfold walkFrom
  cases hplace : t.at? place with
  | none => simp
  | some e =>
    cases e with
    | file _ => simp
    | database _ => simp
    | directory =>
      -- The conditions are tried in the order in which the walk tries them.
      by_cases hhere : c = Path.here
      · simp [hhere, show Path.here ≠ Path.up by decide]
      by_cases hup : c = Path.up
      · simp [hup, show Path.up ≠ Path.here by decide]
      by_cases hlength : c.length ≤ maxComponent
      · cases hnext : t.at? (place ++ [c]) with
        | some e => simp [hhere, hup, hlength, Nat.not_lt.2 hlength]
        | none =>
          cases rest with
          | nil => simp [hhere, hup, hlength, Nat.not_lt.2 hlength, eq_comm]
          | cons d rest => simp [hhere, hup, hlength, Nat.not_lt.2 hlength]
      · simp [hhere, hup, hlength, Nat.not_le.1 hlength]

/-- A walk ends at the place that its components lead to, and tells what stands there. -/
theorem walkFrom_place {t : FileTree} {place : Place} {cs : List Text} {stop : Stop}
    (h : t.walkFrom place cs = .ok stop) (hplace : Path.up ∉ place) :
    stop.place = Path.going place cs ∧ t.at? stop.place = stop.entry? := by
  induction cs generalizing place with
  | nil =>
    rw [walkFrom] at h
    split at h
    · rename_i e he
      obtain rfl := Except.ok.inj h
      exact ⟨(Path.going_nil place).symm, he⟩
    · cases h
  | cons c cs ih =>
    rw [Path.going_cons]
    obtain ⟨-, ⟨hc, h⟩ | ⟨hc, h⟩ | ⟨hhere, hup, -, ⟨hnone, rfl, rfl⟩ | ⟨-, h⟩⟩⟩ :=
      walkFrom_cons.1 h
    · rw [hc, Path.going_here]
      exact ih h hplace
    · rw [hc, Path.going_up hplace]
      exact ih h fun hmem => hplace (List.dropLast_subset _ hmem)
    · rw [Path.going_down hhere hup, Path.going_nil]
      exact ⟨rfl, hnone⟩
    · rw [Path.going_down hhere hup]
      refine ih h ?_
      simpa using ⟨hplace, Ne.symm hup⟩

theorem follow_eq_ok {t : FileTree} {cwd p : Text} {stop : Stop} (h : t.follow cwd p = .ok stop) :
    t.walkFrom (origin cwd p) (Path.components p) = .ok stop := by
  unfold follow at h
  split at h
  · cases h
  split at h
  · cases h
  split at h
  · cases h
  · exact h

theorem walk_eq_ok {t : FileTree} {cwd p : Text} {stop : Stop} (h : t.walk cwd p = .ok stop) :
    t.follow cwd p = .ok stop := by
  unfold walk at h
  split at h
  · rename_i hfollow
    split at h
    · cases h
    · rw [hfollow, h]
  · rename_i hfollow
    split at h
    · cases h
    · rw [hfollow, h]
  · exact h

theorem follow_place {t : FileTree} {cwd p : Text} (hcwd : Path.isAbsolute cwd = true) {stop : Stop}
    (h : t.follow cwd p = .ok stop) :
    stop.place = Path.place cwd p ∧ t.at? stop.place = stop.entry? := by
  rw [Path.place_eq hcwd]
  exact walkFrom_place (follow_eq_ok h) (Path.up_not_mem_origin hcwd p)

/-! ## Sparing a place -/

theorem lookup_cons_eq {κ ν : Type} [BEq κ] [LawfulBEq κ] [DecidableEq κ] (q r : κ) (e : ν)
    (l : List (κ × ν)) : ((r, e) :: l).lookup q = if q = r then some e else l.lookup q := by
  rw [List.lookup_cons]
  by_cases h : q = r
  · simp [h]
  · have hne : (q == r) = false := by simpa using h
    simp [h, hne]

/-- Replacing the entry of a key changes what is found by it only. -/
theorem lookup_replaced {κ ν : Type} [BEq κ] [LawfulBEq κ] [DecidableEq κ] (l : List (κ × ν))
    (p : κ) (e : ν) (q : κ) : (l.filter (fun x => x.1 ≠ p) ++ [(p, e)]).lookup q =
      if q = p then some e else l.lookup q := by
  induction l with
  | nil => simp [lookup_cons_eq]
  | cons x l ih =>
    obtain ⟨r, f⟩ := x
    by_cases hr : r = p
    · rw [List.filter_cons_of_neg (by simpa using hr), ih, lookup_cons_eq, hr]
      split <;> rfl
    · rw [List.filter_cons_of_pos (by simpa using hr), List.cons_append, lookup_cons_eq,
        lookup_cons_eq, ih]
      by_cases hq : q = p
      · have hne : q ≠ r := fun h => hr (h.symm.trans hq)
        rw [if_neg hne, if_pos hq, if_pos hq]
      · rw [if_neg hq, if_neg hq]

/-- Putting something changes what stands at its place only. -/
theorem at?_put (t : FileTree) {p : Place} (hp : p ≠ []) (e : Entry) (q : Place) :
    (t.put p e).at? q = if q = p then some e else t.at? q := by
  -- The root is not listed, so it is looked at by itself.
  unfold at? put
  by_cases hq : q = []
  · have hne : q ≠ p := fun h => hp (h ▸ hq)
    rw [if_neg hne, if_pos (by simpa using hq), if_pos (by simpa using hq)]
  · have hq' : ¬ q.isEmpty = true := by simpa using hq
    rw [if_neg hq', if_neg hq', lookup_replaced]

theorem ne_nil_of_at? {t : FileTree} {p : Place} (h : t.at? p ≠ some .directory) : p ≠ [] := by
  rintro rfl
  exact h rfl

/-- The files at a place and below it. -/
def filesAt (t : FileTree) (p : Place) : List (Place × Entry) :=
  t.entries.filter fun x => p.isPrefixOf x.1 && x.2 ≠ .directory

/-- The files at a place and below it are the same after a change, and no directory is lost. -/
structure Spares (p : Place) (t t' : FileTree) : Prop where
  /-- The files below the place are the same. -/
  below : t'.filesAt p = t.filesAt p
  /-- A file at the place itself or below it is found there again. -/
  files (q : Place) (e : Entry) : p <+: q → e ≠ .directory → t.at? q = some e → t'.at? q = some e
  /-- Every directory is still there. -/
  directories (q : Place) : t.at? q = some .directory → t'.at? q = some .directory

theorem Spares.refl (p : Place) (t : FileTree) : Spares p t t :=
  ⟨rfl, fun _ _ _ _ h => h, fun _ h => h⟩

theorem Spares.trans {p : Place} {t t' t'' : FileTree} (h : Spares p t t') (h' : Spares p t' t'') :
    Spares p t t'' :=
  ⟨h'.below.trans h.below, fun q e hq he hat => h'.files q e hq he (h.files q e hq he hat),
    fun q hq => h'.directories q (h.directories q hq)⟩

/-- Putting something where no directory stands keeps what stands elsewhere. -/
theorem at?_put_of_ne {t : FileTree} {p q : Place} {e e' : Entry}
    (hq : t.at? q ≠ some .directory) (h : t.at? p = some e') (hpq : p ≠ q) :
    (t.put q e).at? p = some e' := by
  rw [at?_put t (ne_nil_of_at? hq), if_neg hpq, h]

/-- The files below a place are the same if neither what is put nor what it replaces is one of
them. -/
theorem filesAt_put {t : FileTree} {p q : Place} {e : Entry}
    (hnew : p.isPrefixOf q = false ∨ e = .directory)
    (hold : p.isPrefixOf q = false ∨ ∀ x ∈ t.entries, x.1 ≠ q) :
    (t.put q e).filesAt p = t.filesAt p := by
  unfold filesAt put
  have hlast : [(q, e)].filter (fun x => p.isPrefixOf x.1 && x.2 ≠ .directory) = [] := by
    rcases hnew with h | h <;> simp [h]
  rw [List.filter_append, hlast, List.append_nil, List.filter_filter]
  refine List.filter_congr fun x hx => ?_
  rcases hold with h | h
  · by_cases hxq : x.1 = q <;> simp [hxq, h]
  · simp [h x hx]

/-- Putting something outside of a place where no directory stands spares the place. -/
theorem spares_put {p q : Place} {t : FileTree} (hout : ¬ p <+: q)
    (hq : t.at? q ≠ some .directory) (e : Entry) : Spares p t (t.put q e) := by
  have hprefix : p.isPrefixOf q = false := by
    rw [Bool.eq_false_iff, ne_eq, List.isPrefixOf_iff_prefix]
    exact hout
  refine ⟨filesAt_put (.inl hprefix) (.inl hprefix), fun r f hr _ hf => at?_put_of_ne hq hf ?_,
    fun r hr => at?_put_of_ne hq hr ?_⟩
  · rintro rfl
    exact hout hr
  · rintro rfl
    exact hq hr

/-- Making a directory where nothing stands spares every place. -/
theorem spares_makeDirectory (p : Place) {q : Place} {t : FileTree} (hq : t.at? q = none) :
    Spares p t (t.put q .directory) := by
  have hvacant : t.at? q ≠ some .directory := by simp [hq]
  have hother : ∀ {r : Place} {e : Entry}, t.at? r = some e → (t.put q .directory).at? r = some e :=
    fun {r e} hr => at?_put_of_ne hvacant hr fun h => by simp [h, hq] at hr
  -- Nothing stands there, so no entry is taken away.
  have hnone : ∀ x ∈ t.entries, x.1 ≠ q := by
    intro x hx h
    rw [at?, if_neg (by simpa using ne_nil_of_at? hvacant), List.lookup_eq_none_iff] at hq
    simpa [h] using hq x hx
  exact ⟨filesAt_put (.inr rfl) (.inr hnone), fun r f _ _ hf => hother hf, fun r hr => hother hr⟩

/-! ## Changes of a file tree -/

theorem spares_ensureDir (q : Place) {t t' : FileTree} {cwd p : Text}
    (hcwd : Path.isAbsolute cwd = true) (h : t.ensureDir cwd p = .ok t') : Spares q t t' := by
  unfold ensureDir at h
  split at h
  · obtain rfl := Except.ok.inj h
    exact Spares.refl q t
  · cases h
  · unfold makeDir at h
    split at h
    · cases h
    · rename_i place hfollow
      obtain rfl := Except.ok.inj h
      exact spares_makeDirectory q (follow_place hcwd hfollow).2
    · cases h

/-- Making directories spares every place. -/
theorem spares_makeDirs (q : Place) {t t' : FileTree} {cwd p : Text}
    (hcwd : Path.isAbsolute cwd = true) (h : t.makeDirs cwd p = .ok t') : Spares q t t' := by
  unfold makeDirs at h
  generalize stages p = names at h
  induction names generalizing t with
  | nil =>
    obtain rfl := Except.ok.inj h
    exact Spares.refl q t
  | cons name names ih =>
    rw [List.foldlM_cons] at h
    cases hfirst : t.ensureDir cwd name with
    | error e =>
      rw [hfirst] at h
      cases h
    | ok t₁ =>
      rw [hfirst] at h
      exact (spares_ensureDir q hcwd hfirst).trans (ih h)

/-- Writing a file spares a place that its name does not lead into. -/
theorem spares_write {q : Place} {t t' : FileTree} {cwd p source : Text}
    (hcwd : Path.isAbsolute cwd = true) (hout : ¬ q <+: Path.place cwd p)
    (h : t.write cwd p source = .ok t') : Spares q t t' := by
  unfold write at h
  split at h
  · cases h
  · rename_i place e hfile hwalk
    obtain rfl := Except.ok.inj h
    obtain ⟨hplace, hentry⟩ : place = Path.place cwd p ∧ t.at? place = some e :=
      follow_place hcwd (walk_eq_ok hwalk)
    refine spares_put (hplace ▸ hout) ?_ _
    rw [hentry]
    rintro ⟨⟩
    exact hfile rfl
  · rename_i place hwalk
    split at h
    · cases h
    · obtain rfl := Except.ok.inj h
      obtain ⟨hplace, hentry⟩ : place = Path.place cwd p ∧ t.at? place = none :=
        follow_place hcwd (walk_eq_ok hwalk)
      refine spares_put (hplace ▸ hout) ?_ _
      rw [hentry]
      exact nofun
  · cases h

/-! ## Loading again -/

/-- A walk that ends at a place that is spared, or below it, ends there again. -/
theorem Spares.walkFrom {p q : Place} {t t' : FileTree} (h : Spares p t t') (hq : p <+: q)
    {place : Place} {cs : List Text} {e : Entry} (hwalk : t.walkFrom place cs = .ok (.found q e)) :
    t'.walkFrom place cs = .ok (.found q e) := by
  -- What the walk meets is there again: directories, and at its end the place itself.
  have hkept : ∀ e, t.at? q = some e → t'.at? q = some e := by
    intro e he
    by_cases hdir : e = .directory
    · exact hdir ▸ h.directories q (hdir ▸ he)
    · exact h.files q e hq hdir he
  induction cs generalizing place with
  | nil =>
    unfold FileTree.walkFrom at hwalk ⊢
    split at hwalk
    · rename_i f hf
      obtain ⟨rfl, rfl⟩ := Stop.found.inj (Except.ok.inj hwalk)
      rw [hkept f hf]
    · cases hwalk
  | cons c cs ih =>
    obtain ⟨hplace, hstep⟩ := walkFrom_cons.1 hwalk
    refine walkFrom_cons.2 ⟨h.directories place hplace, ?_⟩
    rcases hstep with ⟨hc, hrest⟩ | ⟨hc, hrest⟩ |
      ⟨hhere, hup, hlength, ⟨-, -, hstop⟩ | ⟨⟨f, hf⟩, hrest⟩⟩
    · exact .inl ⟨hc, ih hrest⟩
    · exact .inr (.inl ⟨hc, ih hrest⟩)
    · cases hstop
    · refine .inr (.inr ⟨hhere, hup, hlength, .inr ⟨?_, ih hrest⟩⟩)
      -- The walk goes on from here, so this is a directory, or it ends here.
      cases cs with
      | nil =>
        unfold FileTree.walkFrom at hrest
        rw [hf] at hrest
        obtain ⟨hp, -⟩ := Stop.found.inj (Except.ok.inj hrest)
        exact ⟨f, hp ▸ hkept f (hp ▸ hf)⟩
      | cons d cs => exact ⟨_, h.directories _ (walkFrom_cons.1 hrest).1⟩

/-- What stands at a name that leads to a spared place, or below it, is found there again. -/
theorem Spares.walk {p q : Place} {t t' : FileTree} (h : Spares p t t') (hq : p <+: q)
    {cwd name : Text} {e : Entry} (hwalk : t.walk cwd name = .ok (.found q e)) :
    t'.walk cwd name = .ok (.found q e) := by
  have hfollow : t'.follow cwd name = .ok (.found q e) := by
    have hold := walk_eq_ok hwalk
    have hfrom := follow_eq_ok hold
    unfold follow at hold ⊢
    rw [hfrom] at hold
    rw [h.walkFrom hq hfrom, hold]
  unfold FileTree.walk at hwalk ⊢
  rw [hfollow]
  rwa [walk_eq_ok hwalk] at hwalk

/-- A file at or below a spared place is read again with its content. -/
theorem Spares.read {p : Place} {t t' : FileTree} (h : Spares p t t') {cwd name source : Text}
    (hcwd : Path.isAbsolute cwd = true) (hname : p <+: Path.place cwd name)
    (hread : t.read cwd name = .ok source) : t'.read cwd name = .ok source := by
  unfold FileTree.read openFile stat at hread ⊢
  cases hwalk : t.walk cwd name with
  | error f =>
    rw [hwalk] at hread
    cases hread
  | ok stop =>
    cases stop with
    | vacant q =>
      rw [hwalk] at hread
      cases hread
    | found q e =>
      obtain rfl : q = Path.place cwd name := (follow_place hcwd (walk_eq_ok hwalk)).1
      rw [hwalk] at hread
      rwa [h.walk hname hwalk]

end FileTree

namespace SchemaFile

open FileTree

/-- The ways below a place of a tree are those to the files there. -/
theorem waysBelow_ofTree (t : FileTree) (place : Place) : waysBelow t place =
    ((t.filesAt place).filterMap fun x =>
      if selects (x.1.drop place.length) (.plain x.2) then some (x.1.drop place.length)
      else none).mergeSort fun a b => decide (a ≤ b) := by
  rw [waysBelow, Disk.ofTree, filesAt, List.filterMap_map, List.filterMap_filter]
  congr 2
  funext x
  simp only [Function.comp_apply]
  cases place.isPrefixOf x.1 with
  | false => simp
  | true =>
    by_cases hdir : x.2 = .directory
    · simp [hdir, selects]
    · simp [hdir]

/-- A way below a place of a tree consists of names of the tree. -/
theorem isName_of_mem_waysBelow {t : FileTree} (ht : ∀ x ∈ t.entries, ∀ c ∈ x.1, Path.IsName c)
    {place : Place} {way : List Text} (h : way ∈ waysBelow t place) : ∀ c ∈ way, Path.IsName c := by
  rw [waysBelow_ofTree, List.mem_mergeSort, List.mem_filterMap] at h
  obtain ⟨x, hx, hway⟩ := h
  split at hway
  · obtain rfl := Option.some.inj hway
    exact fun c hc => ht x (List.mem_filter.1 hx).1 c (List.drop_subset _ _ hc)
  · cases hway

/-- A schema file of a directory that was spared is loaded again. -/
theorem load_of_spares {cwd dir : Text} (hcwd : Path.isAbsolute cwd = true) (hdir : dir ≠ [])
    {t t' : FileTree} (h : Spares (Path.place cwd dir) t t') {way : List Text}
    (hway : ∀ c ∈ way, Path.IsName c) {f : SchemaFile} (hload : load t cwd dir way = .ok f) :
    load t' cwd dir way = .ok f := by
  have hcomponents := Path.components_join fun c hc => ⟨(hway c hc).1, (hway c hc).2.1⟩
  rw [load_eq_ok, Disk.read_ofTree] at hload ⊢
  refine ⟨hload.1, h.read hcwd ?_ hload.2⟩
  rw [Path.place_join hcwd hdir, hcomponents, Path.going_names hway]
  exact List.prefix_append _ _

/-- What is loaded from a directory that was spared is what was loaded before. -/
theorem loadDir_of_spares {cwd dir : Text} (hcwd : Path.isAbsolute cwd = true) {t t' : FileTree}
    (hnamed : ∀ x ∈ t.entries, ∀ c ∈ x.1, Path.IsName c)
    (h : Spares (Path.place cwd dir) t t') {files : List SchemaFile}
    (hload : loadDir t cwd dir = .ok files) : loadDir t' cwd dir = .ok files := by
  cases hwalk : t.walk cwd dir with
  | error f => simp [loadDir, Disk.follow_ofTree, hwalk, Disk.ending] at hload
  | ok stop =>
    cases stop with
    | vacant q => simp [loadDir, Disk.follow_ofTree, hwalk, Disk.ending] at hload
    | found q e =>
      -- The walk ends at the place that is spared, and so it does again.
      obtain rfl : q = Path.place cwd dir := (follow_place hcwd (walk_eq_ok hwalk)).1
      have hold : ∀ last, (t : Disk).follow last cwd dir =
          .ok (Path.place cwd dir, .plain e) := fun last => by
        rw [Disk.follow_ofTree, hwalk, Disk.ending]
      have hnew : ∀ last, (t' : Disk).follow last cwd dir =
          .ok (Path.place cwd dir, .plain e) := fun last => by
        rw [Disk.follow_ofTree, h.walk (List.prefix_refl _) hwalk, Disk.ending]
      have hdir : dir ≠ [] := by
        rintro rfl
        cases hwalk
      by_cases hplain : e = .directory
      · subst hplain
        have hways : waysBelow t' (Path.place cwd dir) = waysBelow t (Path.place cwd dir) := by
          rw [waysBelow_ofTree, waysBelow_ofTree, h.below]
        rw [loadDir_directory (hold true) (hold false)] at hload
        rw [loadDir_directory (hnew true) (hnew false), hways]
        cases hmap : (waysBelow t (Path.place cwd dir)).mapM (load t cwd dir) with
        | error f =>
          rw [hmap] at hload
          cases hload
        | ok loaded =>
          have hagain : ∀ way ∈ waysBelow t (Path.place cwd dir),
              load t' cwd dir way = load t cwd dir way := by
            intro way hway
            obtain ⟨f, -, hf⟩ := List.mem_map.1 (mapM_eq_ok.1 hmap ▸ List.mem_map_of_mem hway)
            rw [← hf]
            exact load_of_spares hcwd hdir h (isName_of_mem_waysBelow hnamed hway) hf.symm
          rw [mapM_eq_ok.2 ((List.map_congr_left hagain).trans (mapM_eq_ok.1 hmap)), ← hmap, hload]
      · have hitem : Item.plain e ≠ .directory := by simpa using hplain
        rw [loadDir_other (hold true) (hold false) hitem, Disk.read_ofTree] at hload
        rw [loadDir_other (hnew true) (hnew false) hitem, Disk.read_ofTree]
        split at hload
        · rename_i hended
          rw [if_pos hended]
          split at hload
          · cases hload
          · rename_i hread
            rwa [h.read hcwd (List.prefix_refl _) hread]
        · rename_i hended
          rwa [if_neg hended]

end SchemaFile

end CubeSchema
