import CubeSchema.Proofs.FileTree.Sparing
import Mathlib.Data.List.TakeWhile

/-!
# File trees that look alike

Every change of a file tree is told by what stands where afterwards: writing a file and making
directories change the places that their names lead to, and removing takes away what is below one.
Two trees look alike if the same stands everywhere in both, up to what databases hold. Names lead to
the same places in them and read the same, and changes that succeed in both keep them alike.
-/

namespace CubeSchema

namespace FileTree

/-! ## What changes leave behind -/

/-- What a written file changes. -/
theorem at?_of_write {t u : FileTree} {cwd p content : Text} (hcwd : Path.isAbsolute cwd = true)
    (h : t.write cwd p content = .ok u) :
    (∃ stop, t.follow cwd p = .ok stop) ∧ wantsDirectory p = false ∧
      t.at? (Path.place cwd p) ≠ some .directory ∧
      ∀ q, u.at? q = if q = Path.place cwd p then some (.file content) else t.at? q := by
  unfold write at h
  split at h
  · cases h
  · rename_i place e hfile hwalk
    obtain rfl := Except.ok.inj h
    have hfollow := walk_eq_ok hwalk
    obtain ⟨hplace, hentry⟩ : place = Path.place cwd p ∧ t.at? place = some e :=
      follow_place hcwd hfollow
    -- There is a file or a database at the place, which is replaced.
    have hdirectory : t.at? place ≠ some .directory := by
      rw [hentry]
      rintro ⟨⟩
      exact hfile rfl
    refine ⟨⟨_, hfollow⟩, ?_, hplace ▸ hdirectory, fun q => ?_⟩
    · -- A file was found, which is not done behind a closing slash.
      rw [← Bool.not_eq_true]
      intro hslash
      unfold walk at hwalk
      rw [hfollow] at hwalk
      cases e <;> simp_all
    · rw [at?_put t (ne_nil_of_at? hdirectory), hplace]
  · rename_i place hwalk
    split at h
    · cases h
    · rename_i hslash
      obtain rfl := Except.ok.inj h
      have hfollow := walk_eq_ok hwalk
      obtain ⟨hplace, hentry⟩ : place = Path.place cwd p ∧ t.at? place = none :=
        follow_place hcwd hfollow
      -- There is nothing at the place yet, and the name has no closing slash.
      have hdirectory : t.at? place ≠ some .directory := by simp [hentry]
      refine ⟨⟨_, hfollow⟩, by simpa using hslash, hplace ▸ hdirectory, fun q => ?_⟩
      rw [at?_put t (ne_nil_of_at? hdirectory), hplace]
  · cases h

/-- What stands where when directories have been made at some places, where nothing else stood. -/
structure Furnished (places : List Place) (t u : FileTree) : Prop where
  /-- There was nothing else. -/
  free : ∀ q ∈ places, t.at? q = none ∨ t.at? q = some .directory
  /-- There are directories now, and nothing has changed elsewhere. -/
  at?_eq : ∀ q, u.at? q = if q ∈ places then some .directory else t.at? q

theorem furnished_of_ensureDir {t u : FileTree} {cwd p : Text} (hcwd : Path.isAbsolute cwd = true)
    (h : t.ensureDir cwd p = .ok u) : Furnished [Path.place cwd p] t u := by
  have hsingle : ∀ {q : Place}, q ∈ [Path.place cwd p] ↔ q = Path.place cwd p := List.mem_singleton
  unfold ensureDir at h
  split at h
  · rename_i hstat
    obtain rfl := Except.ok.inj h
    -- The directory is there already.
    have hentry : t.at? (Path.place cwd p) = some .directory := by
      unfold stat at hstat
      split at hstat
      · rename_i place e hwalk
        obtain rfl := Except.ok.inj hstat
        obtain ⟨hplace, hentry⟩ : place = Path.place cwd p ∧ t.at? place = some .directory :=
          follow_place hcwd (walk_eq_ok hwalk)
        exact hplace ▸ hentry
      · cases hstat
      · cases hstat
    refine ⟨fun q hq => .inr (hsingle.1 hq ▸ hentry), fun q => ?_⟩
    split
    · rename_i hq
      rw [hsingle.1 hq, hentry]
    · rfl
  · cases h
  · unfold makeDir at h
    split at h
    · cases h
    · rename_i place hfollow
      obtain rfl := Except.ok.inj h
      obtain ⟨hplace, hentry⟩ : place = Path.place cwd p ∧ t.at? place = none :=
        follow_place hcwd hfollow
      have hvacant : t.at? place ≠ some .directory := by simp [hentry]
      refine ⟨fun q hq => .inl (by rw [hsingle.1 hq, ← hplace, hentry]), fun q => ?_⟩
      rw [at?_put t (ne_nil_of_at? hvacant), hplace]
      simp only [hsingle]
    · cases h

theorem Furnished.append {as bs : List Place} {t u v : FileTree} (h : Furnished as t u)
    (h' : Furnished bs u v) : Furnished (as ++ bs) t v := by
  refine ⟨fun q hq => ?_, fun q => ?_⟩
  · rcases List.mem_append.1 hq with hq | hq
    · exact h.free q hq
    · have hfree := h'.free q hq
      rw [h.at?_eq] at hfree
      split at hfree
      · exact h.free q ‹_›
      · exact hfree
  · rw [h'.at?_eq, h.at?_eq]
    by_cases ha : q ∈ as <;> by_cases hb : q ∈ bs <;> simp [ha, hb]

/-- What making directories changes. -/
theorem furnished_of_makeDirs {t u : FileTree} {cwd p : Text} (hcwd : Path.isAbsolute cwd = true)
    (h : t.makeDirs cwd p = .ok u) : Furnished ((stages p).map (Path.place cwd)) t u := by
  unfold makeDirs at h
  generalize stages p = names at h
  induction names generalizing t with
  | nil =>
    obtain rfl := Except.ok.inj h
    exact ⟨fun q hq => absurd hq List.not_mem_nil, fun q => rfl⟩
  | cons name names ih =>
    rw [List.foldlM_cons] at h
    cases hfirst : t.ensureDir cwd name with
    | error e =>
      rw [hfirst] at h
      cases h
    | ok t₁ =>
      rw [hfirst] at h
      exact (furnished_of_ensureDir hcwd hfirst).append (ih h)

theorem Furnished.kept {places : List Place} {t u : FileTree} (h : Furnished places t u) {q : Place}
    {e : Entry} (hq : t.at? q = some e) : u.at? q = some e := by
  rw [h.at?_eq]
  split
  · rcases h.free q ‹_› with hnone | hdirectory
    · rw [hnone] at hq
      cases hq
    · rw [← hq, hdirectory]
  · exact hq

/-- Where directories stand at all places already, nothing changes. -/
theorem Furnished.at?_of_directories {places : List Place} {t u : FileTree}
    (h : Furnished places t u) (hthere : ∀ q ∈ places, t.at? q = some .directory) (q : Place) :
    u.at? q = t.at? q := by
  rw [h.at?_eq]
  split
  · rw [hthere q ‹_›]
  · rfl

/-- Taking away a place takes away what is below it. -/
theorem at?_erase (t : FileTree) (p q : Place) : (t.erase p).at? q =
    if q = [] then some .directory else if p <+: q then none else t.at? q := by
  have hlookup : ∀ l : List (Place × Entry), (l.filter fun x => !p.isPrefixOf x.1).lookup q =
      if p <+: q then none else l.lookup q := by
    intro l
    induction l with
    | nil => simp
    | cons x l ih =>
      obtain ⟨r, e⟩ := x
      cases hr : p.isPrefixOf r with
      | true =>
        -- This entry is dropped, and where it is asked for, nothing is to be found.
        have hfront := List.isPrefixOf_iff_prefix.1 hr
        rw [List.filter_cons_of_neg (by simp [hfront]), ih, lookup_cons_eq]
        by_cases hq : q = r
        · rw [if_pos (hq ▸ hfront), if_pos (hq ▸ hfront)]
        · rw [if_neg hq]
      | false =>
        have hfront : ¬ p <+: r := by
          rw [← List.isPrefixOf_iff_prefix, hr]
          exact Bool.false_ne_true
        rw [List.filter_cons_of_pos (by rw [hr]; rfl), lookup_cons_eq, lookup_cons_eq, ih]
        by_cases hq : q = r
        · rw [if_pos hq, if_pos hq, if_neg (hq ▸ hfront)]
        · rw [if_neg hq, if_neg hq]
  unfold at? erase
  by_cases hq : q = []
  · simp [hq]
  · have hq' : ¬ q.isEmpty = true := by simpa using hq
    rw [if_neg hq', if_neg hq', if_neg hq, hlookup]

/-! ## Walks -/

/-- A walk ends where it did, at what stands there now, if no directory is lost. -/
theorem walkFrom_of_kept {t u : FileTree}
    (hkept : ∀ q, t.at? q = some .directory → u.at? q = some .directory) {place : Place}
    {cs : List Text} {stop : Stop} (hwalk : t.walkFrom place cs = .ok stop) {e : Entry}
    (he : u.at? stop.place = some e) : u.walkFrom place cs = .ok (.found stop.place e) := by
  induction cs generalizing place with
  | nil =>
    unfold walkFrom at hwalk ⊢
    split at hwalk
    · obtain rfl := Except.ok.inj hwalk
      rw [show u.at? place = some e from he]
      rfl
    · cases hwalk
  | cons c cs ih =>
    obtain ⟨hplace, hstep⟩ := walkFrom_cons.1 hwalk
    refine walkFrom_cons.2 ⟨hkept place hplace, ?_⟩
    rcases hstep with ⟨hc, hrest⟩ | ⟨hc, hrest⟩ |
      ⟨hhere, hup, hlength, ⟨-, rfl, rfl⟩ | ⟨⟨f, hf⟩, hrest⟩⟩
    · exact .inl ⟨hc, ih hrest⟩
    · exact .inr (.inl ⟨hc, ih hrest⟩)
    · refine .inr (.inr ⟨hhere, hup, hlength, .inr ⟨⟨e, he⟩, ?_⟩⟩)
      rw [walkFrom, show u.at? (place ++ [c]) = some e from he]
      rfl
    · refine .inr (.inr ⟨hhere, hup, hlength, .inr ⟨?_, ih hrest⟩⟩)
      -- The walk goes on from here, so this is a directory, or it ends here.
      cases cs with
      | nil =>
        rw [walkFrom, hf] at hrest
        obtain rfl := Except.ok.inj hrest
        exact ⟨e, he⟩
      | cons d cs => exact ⟨_, hkept _ (walkFrom_cons.1 hrest).1⟩

/-- On the way to its end a walk goes through directories. -/
theorem directory_of_walkFrom {t : FileTree} {place : Place} (hplace : Path.up ∉ place)
    {as bs : List Text} (hbs : bs ≠ []) {stop : Stop}
    (h : t.walkFrom place (as ++ bs) = .ok stop) :
    t.at? (Path.going place as) = some .directory := by
  induction as generalizing place with
  | nil =>
    obtain ⟨b, bs, rfl⟩ := List.exists_cons_of_ne_nil hbs
    rw [Path.going_nil]
    exact (walkFrom_cons.1 h).1
  | cons a as ih =>
    rw [Path.going_cons]
    obtain ⟨-, ⟨ha, h⟩ | ⟨ha, h⟩ | ⟨hhere, hup, -, ⟨-, hnil, -⟩ | ⟨-, h⟩⟩⟩ :=
      walkFrom_cons.1 (List.cons_append .. ▸ h)
    · rw [ha, Path.going_here]
      exact ih hplace h
    · rw [ha, Path.going_up hplace]
      exact ih (fun hmem => hplace (List.dropLast_subset _ hmem)) h
    · exact absurd (List.append_eq_nil_iff.1 hnil).2 hbs
    · rw [Path.going_down hhere hup]
      exact ih (by simpa using ⟨hplace, Ne.symm hup⟩) h

/-! ## Looking alike -/

/-- The same stands at two places, up to what a database holds. -/
inductive SameEntry : Option Entry → Option Entry → Prop
  | none : SameEntry none none
  | file (content : Text) : SameEntry (some (.file content)) (some (.file content))
  | database (d d' : Database) : SameEntry (some (.database d)) (some (.database d'))
  | directory : SameEntry (some .directory) (some .directory)

theorem SameEntry.refl (e : Option Entry) : SameEntry e e := by
  rcases e with _ | (content | d | _)
  · exact .none
  · exact .file content
  · exact .database d d
  · exact .directory

theorem SameEntry.symm {e e' : Option Entry} (h : SameEntry e e') : SameEntry e' e := by
  cases h
  · exact .none
  · exact .file _
  · exact .database _ _
  · exact .directory

theorem SameEntry.trans {e e' e'' : Option Entry} (h : SameEntry e e') (h' : SameEntry e' e'') :
    SameEntry e e'' := by
  cases h
  · exact h'
  · exact h'
  · cases h'
    exact .database _ _
  · exact h'

theorem SameEntry.eq_none {e e' : Option Entry} (h : SameEntry e e') : e = .none ↔ e' = .none := by
  cases h <;> simp

theorem SameEntry.eq_file {e e' : Option Entry} (h : SameEntry e e') {content : Text} :
    e = some (.file content) ↔ e' = some (.file content) := by
  cases h <;> simp

theorem SameEntry.eq_directory {e e' : Option Entry} (h : SameEntry e e') :
    e = some .directory ↔ e' = some .directory := by
  cases h <;> simp

/-- The same stands everywhere, up to what databases hold. -/
def Alike (t u : FileTree) : Prop := ∀ p, SameEntry (t.at? p) (u.at? p)

theorem Alike.symm {t u : FileTree} (h : t.Alike u) : u.Alike t := fun p => (h p).symm

theorem Alike.trans {t u v : FileTree} (h : t.Alike u) (h' : u.Alike v) : t.Alike v :=
  fun p => (h p).trans (h' p)

theorem alike_of_at?_eq {t u : FileTree} (h : ∀ p, t.at? p = u.at? p) : t.Alike u :=
  fun p => h p ▸ .refl _

/-- Two walks come to the same end, up to what a database holds. -/
inductive SameEnd : Except FileFault Stop → Except FileFault Stop → Prop
  | error (f : FileFault) : SameEnd (.error f) (.error f)
  | vacant (q : Place) : SameEnd (.ok (.vacant q)) (.ok (.vacant q))
  | file (q : Place) (content : Text) :
      SameEnd (.ok (.found q (.file content))) (.ok (.found q (.file content)))
  | database (q : Place) (d d' : Database) :
      SameEnd (.ok (.found q (.database d))) (.ok (.found q (.database d')))
  | directory (q : Place) : SameEnd (.ok (.found q .directory)) (.ok (.found q .directory))

/-- A walk comes to the same end in two trees that look alike. -/
theorem Alike.walkFrom {t u : FileTree} (h : t.Alike u) (place : Place) (cs : List Text) :
    SameEnd (t.walkFrom place cs) (u.walkFrom place cs) := by
  -- The walks take the same turns, for they only ask what kind of entry stands at a place.
  induction cs generalizing place with
  | nil =>
    have hplace := h place
    rw [FileTree.walkFrom, FileTree.walkFrom]
    generalize t.at? place = e at hplace
    generalize u.at? place = e' at hplace
    cases hplace with
    | none => exact .error _
    | file content => exact .file place content
    | database d d' => exact .database place d d'
    | directory => exact .directory place
  | cons c cs ih =>
    have hplace := h place
    have hnext := (h (place ++ [c])).eq_none
    unfold FileTree.walkFrom
    generalize t.at? place = e at hplace
    generalize u.at? place = e' at hplace
    cases hplace with
    | none => exact .error _
    | file content => exact .error _
    | database d d' => exact .error _
    | directory =>
      dsimp only
      split
      · exact ih place
      split
      · exact ih place.dropLast
      split
      · exact .error _
      cases hc : t.at? (place ++ [c]) with
      | none =>
        rw [hnext.1 hc]
        cases cs
        · exact .vacant _
        · exact .error _
      | some e =>
        cases hc' : u.at? (place ++ [c]) with
        | none => simp [hnext.2 hc'] at hc
        | some e' => exact ih (place ++ [c])

theorem Alike.follow {t u : FileTree} (h : t.Alike u) (cwd p : Text) :
    SameEnd (t.follow cwd p) (u.follow cwd p) := by
  unfold FileTree.follow
  split
  · exact .error _
  split
  · exact .error _
  split
  · exact .error _
  · exact h.walkFrom _ _

theorem Alike.walk {t u : FileTree} (h : t.Alike u) (cwd p : Text) :
    SameEnd (t.walk cwd p) (u.walk cwd p) := by
  have hfollow := h.follow cwd p
  unfold FileTree.walk
  generalize t.follow cwd p = x at hfollow
  generalize u.follow cwd p = y at hfollow
  cases hfollow with
  | error f => exact .error f
  | vacant q => exact .vacant q
  | file q content =>
    dsimp only
    split
    · exact .error _
    · exact .file q content
  | database q d d' =>
    dsimp only
    split
    · exact .error _
    · exact .database q d d'
  | directory q => exact .directory q

/-- The same names can be found. -/
theorem Alike.contains_eq {t u : FileTree} (h : t.Alike u) (cwd p : Text) :
    t.contains cwd p = u.contains cwd p := by
  have hwalk := h.walk cwd p
  unfold contains stat
  generalize t.walk cwd p = x at hwalk
  generalize u.walk cwd p = y at hwalk
  cases hwalk <;> rfl

/-- All names read the same. -/
theorem Alike.read_eq {t u : FileTree} (h : t.Alike u) (cwd p : Text) :
    t.read cwd p = u.read cwd p := by
  have hwalk := h.walk cwd p
  unfold read openFile stat
  generalize t.walk cwd p = x at hwalk
  generalize u.walk cwd p = y at hwalk
  cases hwalk <;> rfl

/-! ## Changes keep trees alike -/

theorem Alike.write {t t' u u' : FileTree} (h : t.Alike t') {cwd p content : Text}
    (hcwd : Path.isAbsolute cwd = true) (hu : t.write cwd p content = .ok u)
    (hu' : t'.write cwd p content = .ok u') : u.Alike u' := by
  intro q
  rw [(at?_of_write hcwd hu).2.2.2, (at?_of_write hcwd hu').2.2.2]
  split
  · exact .refl _
  · exact h q

theorem Alike.makeDirs {t t' u u' : FileTree} (h : t.Alike t') {cwd p : Text}
    (hcwd : Path.isAbsolute cwd = true) (hu : t.makeDirs cwd p = .ok u)
    (hu' : t'.makeDirs cwd p = .ok u') : u.Alike u' := by
  intro q
  rw [(furnished_of_makeDirs hcwd hu).at?_eq, (furnished_of_makeDirs hcwd hu').at?_eq]
  split
  · exact .refl _
  · exact h q

theorem Alike.erase {t u : FileTree} (h : t.Alike u) (p : Place) :
    (t.erase p).Alike (u.erase p) := by
  intro q
  rw [at?_erase, at?_erase]
  split
  · exact .refl _
  split
  · exact .refl _
  · exact h q

theorem Alike.remove {t u : FileTree} (h : t.Alike u) (cwd p : Text) :
    (t.remove cwd p).Alike (u.remove cwd p) := by
  have hfollow := h.follow cwd p
  unfold FileTree.remove
  generalize t.follow cwd p = x at hfollow
  generalize u.follow cwd p = y at hfollow
  cases hfollow with
  | error f => exact h
  | vacant q => exact h
  | file q content => exact h.erase q
  | database q d d' => exact h.erase q
  | directory q => exact h.erase q

end FileTree

/-! ## Directories on the way -/

namespace Path

/-- A name is its head and a last component, which may be empty. -/
theorem exists_eq_head_append (p : Text) : ∃ c, p = head p ++ c ∧ slash ∉ c ∧
    (head p = [] ∨ ∃ a, head p = a ++ [slash]) := by
  refine ⟨(p.reverse.takeWhile fun b => b ≠ slash).reverse, ?_, ?_, ?_⟩
  · rw [head, ← List.reverse_append, List.takeWhile_append_dropWhile, List.reverse_reverse]
  · rw [List.mem_reverse]
    intro hmem
    simpa using List.mem_takeWhile_imp hmem
  · unfold head
    cases hrest : p.reverse.dropWhile fun b => b ≠ slash with
    | nil => exact .inl rfl
    | cons b rest =>
      -- What is left behind the last component starts, from the end, with a slash.
      have hb := List.head?_dropWhile_not (fun b => b ≠ slash) p.reverse
      rw [hrest] at hb
      have hslash : b = slash := by simpa using hb
      exact .inr ⟨rest.reverse, by rw [List.reverse_cons, hslash]⟩

theorem isAbsolute_head (p : Text) : isAbsolute (head p) = isAbsolute p := by
  obtain ⟨c, hp, hslash, hhead⟩ := exists_eq_head_append p
  by_cases hnil : head p = []
  · rw [hnil, List.nil_append] at hp
    have habsolute : isAbsolute p ≠ true := by
      intro h
      obtain ⟨rest, hrest⟩ : ∃ rest, p = slash :: rest := by
        unfold isAbsolute at h
        cases p with
        | nil => simp at h
        | cons b rest => exact ⟨rest, by simpa using h⟩
      exact hslash (by rw [← hp, hrest]; exact List.mem_cons_self ..)
    rw [hnil, Bool.eq_false_iff.2 habsolute]
    rfl
  · have happend := isAbsolute_append hnil c
    rw [← hp] at happend
    exact happend.symm

theorem components_head {p c : Text} (hp : p = head p ++ c)
    (hhead : head p = [] ∨ ∃ a, head p = a ++ [slash]) :
    components p = components (head p) ++ components c := by
  rcases hhead with hnil | ⟨a, ha⟩
  · rw [hnil, List.nil_append] at hp
    rw [hnil, ← hp]
    rfl
  · have hp' : p = a ++ slash :: c := by
      rw [ha, List.append_assoc] at hp
      exact hp
    have hcomponents : components (a ++ [slash]) = components a := by
      rw [components_append]
      exact List.append_nil _
    rw [ha, hcomponents, hp', components_append]

/-- What is in order stays so when the last steps are left out. -/
theorem IsNormal.of_append {rooted : Bool} {as bs : List Text} (h : IsNormal rooted (as ++ bs)) :
    IsNormal rooted bs :=
  ⟨fun c hc => h.component c (List.mem_append_right _ hc),
    fun hr hmem => h.rooted hr (List.mem_append_right _ hmem), (List.pairwise_append.1 h.ups).2.1⟩

theorem clean_ne_nil (p : Text) : clean p ≠ [] := by
  unfold clean assemble
  split
  · exact List.cons_ne_nil _ _
  split
  · decide
  · rename_i hsteps
    -- The first step is a part of the name.
    cases hs : steps p with
    | nil => simp [hs] at hsteps
    | cons c cs =>
      have hc := (mem_steps (hs ▸ List.mem_cons_self .. : c ∈ steps p)).1
      cases cs with
      | nil => simpa [Text.join] using hc
      | cons d cs => simp [join_cons_cons, hc]

/-- The head of a clean name is in order. -/
theorem steps_head_clean (p : Text) : steps (head (clean p)) = components (head (clean p)) := by
  obtain ⟨c, hclean, -, hhead⟩ := exists_eq_head_append (clean p)
  have hcomponents := components_head hclean hhead
  rw [components_clean] at hcomponents
  split at hcomponents
  · rename_i hp
    have hhere : clean p = here := by
      unfold clean assemble
      rw [hp.1, hp.2]
      rfl
    rw [hhere]
    decide
  · have hnormal := isNormal_steps p
    rw [hcomponents, List.reverse_append] at hnormal
    have hfold := hnormal.of_append.foldl_reverse
    rw [List.reverse_reverse] at hfold
    rw [steps, isAbsolute_head, isAbsolute_clean, hfold, List.reverse_reverse]

end Path

namespace FileTree

theorem mem_stages {p q : Text} (h : q ∈ stages p) :
    q = p ∨ ∃ a rest, p = a ++ Path.slash :: rest ∧ q = a ++ [Path.slash] := by
  unfold stages at h
  rcases List.mem_append.1 h with h | h
  · obtain ⟨i, hi, rfl⟩ := List.mem_map.1 h
    obtain ⟨-, hi⟩ := List.mem_filter.1 hi
    rw [Bool.and_eq_true, decide_eq_true_eq] at hi
    obtain ⟨hlt, hslash⟩ := List.getElem?_eq_some_iff.1 hi.1
    refine .inr ⟨p.take i, p.drop (i + 1), ?_, ?_⟩
    · rw [← hslash, List.getElem_cons_drop, List.take_append_drop]
    · rw [List.take_add_one, hi.1]
      rfl
  · exact .inl (List.mem_singleton.1 h)

/-- A name that a directory leads through starts like it, and has the first of its components. -/
theorem components_of_mem_stages {p q : Text} (h : q ∈ stages p) :
    Path.isAbsolute q = Path.isAbsolute p ∧ Path.components q <+: Path.components p := by
  rcases mem_stages h with rfl | ⟨a, rest, rfl, rfl⟩
  · exact ⟨rfl, List.prefix_refl _⟩
  · refine ⟨by cases a <;> rfl, ?_⟩
    rw [Path.components_append, Path.components_append]
    exact (List.prefix_append_right_inj _).2 (List.nil_prefix ..)

/-- Where a clean name leads somewhere, all names that its directory leads through are those of
directories. -/
theorem directory_of_mem_stages {t : FileTree} {cwd p q : Text}
    (hcwd : Path.isAbsolute cwd = true) {stop : Stop}
    (hfollow : t.follow cwd (Path.clean p) = .ok stop)
    (hslash : wantsDirectory (Path.clean p) = false) (hq : q ∈ stages (Path.dir (Path.clean p))) :
    t.at? (Path.place cwd q) = some .directory := by
  have hwalk := follow_eq_ok hfollow
  have hup := Path.up_not_mem_origin hcwd (Path.clean p)
  obtain ⟨c, hclean, hc, hhead⟩ := Path.exists_eq_head_append (Path.clean p)
  -- The last component is there, as the name does not end with a slash.
  have hne : c ≠ [] := by
    rintro rfl
    rw [List.append_nil] at hclean
    rcases hhead with hnil | ⟨a, ha⟩
    · exact Path.clean_ne_nil p (hclean.trans hnil)
    · rw [wantsDirectory, hclean, ha] at hslash
      simp at hslash
  rw [Path.components_head hclean hhead, Path.components_singleton hne hc] at hwalk
  obtain ⟨habsolute, hfront⟩ := components_of_mem_stages hq
  have horigin : origin cwd q = origin cwd (Path.clean p) := by
    rw [origin, origin, habsolute, Path.dir, Path.isAbsolute_clean, Path.isAbsolute_head]
  rw [Path.place_eq hcwd, horigin]
  rw [Path.dir, Path.components_clean, Path.steps_head_clean] at hfront
  split at hfront
  · -- The name is a single component, read from the working directory.
    have hstart := @directory_of_walkFrom t _ hup [] _ (by simp) _ hwalk
    have hhere : Path.components q = [] ∨ Path.components q = [Path.here] := by
      rcases List.prefix_cons_iff.1 hfront with hnil | ⟨rest, hrest, hnil⟩
      · exact .inl hnil
      · rw [List.prefix_nil.1 hnil] at hrest
        exact .inr hrest
    rcases hhere with hhere | hhere
    · rwa [hhere]
    · rw [hhere, Path.going_here]
      rwa [Path.going_nil] at hstart
  · obtain ⟨rest, hrest⟩ := hfront
    rw [← hrest, List.append_assoc] at hwalk
    exact directory_of_walkFrom hup (by simp) hwalk

end FileTree

end CubeSchema
