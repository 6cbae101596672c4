import CubeSchema.Proofs.FileTree.Following
import CubeSchema.Proofs.Graph.Edges

/-!
# Which files are loaded from a directory

A directory is loaded as a walk through it would do it: name after name, down into every directory
that is not left out and into no link, and whatever else has the right ending is read by its name
and sorted by that at the end. The order of the walk is another one, because a directory may be met
in front of a file whose name is sorted before the names of all that is in it: `a/b.js` is met
before `a.js` and comes behind it.

`LeadsTo` says without a walk on which ways there are schema files. `mem_walked` is the step: a walk
of a directory is told by the walks of the directories in it. `loadDir_selects` puts the answer
together for every well-formed disk and every directory that is opened. Behind a link nothing is
selected, and a link with the right ending is read as what it leads to, which is told by
`linkedDirectory_not_regular`.
-/

namespace CubeSchema

open FileTree

/-! ## What stands in a directory -/

namespace Disk

/-- The names in a directory, sorted. -/
def names (d : Disk) (p : Place) : List Text :=
  Text.sort (d.items.filterMap fun x => if x.1.dropLast = p then x.1.getLast? else none)

variable {d : Disk}

theorem eq_snoc_of_name {p q : Place} {name : Text}
    (h : name ∈ (if q.dropLast = p then q.getLast? else none)) : q = p ++ [name] := by
  split at h
  · rename_i hparent
    obtain ⟨front, rfl⟩ := List.getLast?_eq_some_iff.1 h
    rw [← hparent, List.dropLast_concat]
  · cases h

/-- The names in a directory are those at which something stands. -/
theorem WellFormed.mem_names (hd : d.WellFormed) {p : Place} {name : Text} :
    name ∈ d.names p ↔ ∃ item, d.at? (p ++ [name]) = some item := by
  rw [Disk.names, Text.mem_sort, List.mem_filterMap]
  constructor
  · rintro ⟨⟨q, item⟩, hmem, hname⟩
    obtain rfl := eq_snoc_of_name hname
    exact ⟨item, hd.at? (by simp) hmem⟩
  · rintro ⟨item, hat⟩
    exact ⟨_, mem_items_of_at? (by simp) hat, by simp⟩

/-- The names in a directory are in a strict order. -/
theorem WellFormed.strict_names (hd : d.WellFormed) (p : Place) :
    (d.names p).Pairwise (· < ·) := by
  refine Text.strict_sort (List.pairwise_filterMap.2 ?_)
  refine (List.pairwise_map.1 hd.once).imp fun {x y} hne name hx name' hy heq => hne ?_
  rw [eq_snoc_of_name hx, eq_snoc_of_name hy, heq]

end Disk

namespace SchemaFile

variable {d : Disk} {place : Place}

/-! ## Ways to schema files -/

/-- A way leads from a place to a schema file: to something with the right ending that is no
directory, through no directory that is hidden or holds installed packages. -/
structure LeadsTo (d : Disk) (place : Place) (way : List Text) (item : Item) : Prop where
  /-- Something stands at the end of the way. -/
  stands : d.at? (place ++ way) = some item
  /-- It is no directory. -/
  file : item ≠ .directory
  /-- The last name has the ending of schema files. -/
  ended : ∃ name ∈ way.getLast?, lit ".js" <:+ name
  /-- No directory on the way is left out. -/
  passes : ∀ dir ∈ way.dropLast, ¬ lit "." <+: dir ∧ dir ≠ lit "node_modules"

theorem skipsDirectory_eq_false {dir : Text} :
    skipsDirectory dir = false ↔ ¬ lit "." <+: dir ∧ dir ≠ lit "node_modules" := by
  simp only [skipsDirectory, Text.startsWith, Bool.or_eq_false_iff, decide_eq_false_iff_not, ne_eq,
    ← List.isPrefixOf_iff_prefix, Bool.not_eq_true]

/-- A way has at least one name. -/
theorem LeadsTo.ne_nil {way : List Text} {item : Item} (h : LeadsTo d place way item) :
    way ≠ [] := by
  obtain ⟨name, hname, -⟩ := h.ended
  rintro rfl
  cases hname

theorem LeadsTo.place_ne_nil {way : List Text} {item : Item} (h : LeadsTo d place way item) :
    place ++ way ≠ [] :=
  List.append_ne_nil_of_right_ne_nil _ h.ne_nil

/-- Names are put together in one way only. -/
theorem join_inj {cs ds : List Text} (hcs : ∀ c ∈ cs, Path.IsName c)
    (hds : ∀ d ∈ ds, Path.IsName d)
    (h : Text.join [Path.slash] cs = Text.join [Path.slash] ds) : cs = ds := by
  have hback : ∀ {cs : List Text}, (∀ c ∈ cs, Path.IsName c) →
      Path.components (Text.join [Path.slash] cs) = cs := fun h =>
    Path.components_join fun c hc => ⟨(h c hc).1, (h c hc).2.1⟩
  rw [← hback hcs, h, hback hds]

/-- Only one way has the name that a schema file has. -/
theorem LeadsTo.unique (hd : d.WellFormed) {way way' : List Text} {item item' : Item}
    (h : LeadsTo d place way item) (h' : LeadsTo d place way' item')
    (hpath : Text.join [Path.slash] way = Text.join [Path.slash] way') : way = way' :=
  join_inj (fun c hc => (hd.names h.stands c hc).1) (fun c hc => (hd.names h'.stands c hc).1) hpath

theorem any_endsWith {way : List Text} : way.getLast?.any (Text.endsWith · ending) = true ↔
    ∃ name ∈ way.getLast?, lit ".js" <:+ name := by
  rw [Option.any_eq_true]
  refine exists_congr fun name => ?_
  rw [Text.endsWith, List.isSuffixOf_iff_suffix]
  rfl

/-- What is selected where a way ends is a schema file that it leads to. -/
theorem selects_eq_true {way : List Text} {item : Item} (hat : d.at? (place ++ way) = some item) :
    selects way item = true ↔ LeadsTo d place way item := by
  have hpasses : way.dropLast.any skipsDirectory = false ↔
      ∀ dir ∈ way.dropLast, ¬ lit "." <+: dir ∧ dir ≠ lit "node_modules" := by
    rw [List.any_eq_false]
    refine forall₂_congr fun dir _ => ?_
    rw [Bool.not_eq_true, skipsDirectory_eq_false]
  rw [selects, Bool.and_eq_true, Bool.and_eq_true, Bool.not_eq_true', hpasses, any_endsWith,
    decide_eq_true_eq]
  exact ⟨fun h => ⟨hat, h.1.1, h.2, h.1.2⟩, fun h => ⟨⟨h.file, h.passes⟩, h.ended⟩⟩

/-- The ways below a place are those that lead to schema files. -/
theorem mem_waysBelow (hd : d.WellFormed) {way : List Text} :
    way ∈ waysBelow d place ↔ ∃ item, LeadsTo d place way item := by
  constructor
  · intro h
    have hway := ne_nil_of_mem_waysBelow h
    rw [waysBelow, List.mem_mergeSort, List.mem_filterMap] at h
    obtain ⟨⟨p, item⟩, hmem, hselects⟩ := h
    split at hselects
    · rename_i hboth
      obtain ⟨hbelow, hselects'⟩ := Bool.and_eq_true_iff.1 hboth
      obtain ⟨way', rfl⟩ := List.isPrefixOf_iff_prefix.1 hbelow
      rw [List.drop_left] at hselects hselects'
      obtain rfl := Option.some.inj hselects
      have hat := hd.at? (List.append_ne_nil_of_right_ne_nil _ hway) hmem
      exact ⟨item, (selects_eq_true hat).1 hselects'⟩
    · cases hselects
  · rintro ⟨item, hleads⟩
    rw [waysBelow, List.mem_mergeSort, List.mem_filterMap]
    refine ⟨(place ++ way, item), Disk.mem_items_of_at? hleads.place_ne_nil hleads.stands, ?_⟩
    rw [List.drop_left, if_pos]
    rw [Bool.and_eq_true, List.isPrefixOf_iff_prefix]
    exact ⟨List.prefix_append .., (selects_eq_true hleads.stands).2 hleads⟩

/-- No way is listed twice. -/
theorem nodup_waysBelow (hd : d.WellFormed) : (waysBelow d place).Nodup := by
  refine (List.mergeSort_perm ..).nodup_iff.2 (List.pairwise_filterMap.2 ?_)
  refine (List.pairwise_map.1 hd.once).imp fun {x y} hne way hx way' hy heq => hne ?_
  have hback : ∀ {z : Place × Item} {way : List Text},
      (if place.isPrefixOf z.1 && selects (z.1.drop place.length) z.2 then
        some (z.1.drop place.length) else none) = some way → z.1 = place ++ way := by
    intro z way hz
    split at hz
    · rename_i hboth
      obtain ⟨rest, hrest⟩ := List.isPrefixOf_iff_prefix.1 (Bool.and_eq_true_iff.1 hboth).1
      rw [← hrest, List.drop_left] at hz
      rw [← hrest, Option.some.inj hz]
    · cases hz
  rw [hback hx, hback hy, heq]

/-! ## Walking through a directory -/

/-- The ways to schema files that a walk meets from the end of a way on: to anything with the right
ending that is no directory, and to what is in a directory that is not left out, name after name.
The directory that the walk starts at is entered whatever its name is. The walk goes down no more
than `depth` directories. -/
def walked (d : Disk) (place : Place) : Nat → List Text → List (List Text)
  | 0, _ => []
  | depth + 1, way =>
    match d.at? (place ++ way) with
    | some (.plain .directory) =>
      if way.getLast?.any skipsDirectory then []
      else (d.names (place ++ way)).flatMap fun name => walked d place depth (way ++ [name])
    | some _ => if way.getLast?.any (Text.endsWith · ending) then [way] else []
    | none => []

/-- The names of the directories that the walk is in are not left out. -/
def Entered (way : List Text) : Prop :=
  ∀ dir ∈ way.dropLast, ¬ lit "." <+: dir ∧ dir ≠ lit "node_modules"

theorem entered_snoc {way : List Text} (h : Entered way)
    (hlast : way.getLast?.any skipsDirectory = false) (name : Text) : Entered (way ++ [name]) := by
  rw [Entered, List.dropLast_concat]
  intro dir hdir
  cases hway : way.getLast? with
  | none =>
    rw [List.getLast?_eq_none_iff.1 hway] at hdir
    cases hdir
  | some last =>
    rw [hway, Option.any_some] at hlast
    obtain ⟨front, rfl⟩ := List.getLast?_eq_some_iff.1 hway
    rw [List.mem_append, List.mem_singleton] at hdir
    rcases hdir with hdir | rfl
    · exact h dir (by rwa [List.dropLast_concat])
    · exact skipsDirectory_eq_false.1 hlast

/-- A walk meets the ways to schema files that go on from where it is, if they are not too long for
it. -/
theorem mem_walked (hd : d.WellFormed) {depth : Nat} {way : List Text} (hway : Entered way)
    {met : List Text} : met ∈ walked d place depth way ↔
      ∃ rest item, rest.length < depth ∧ LeadsTo d place (way ++ rest) item ∧
        met = way ++ rest := by
  induction depth generalizing way with
  | zero => simp [walked]
  | succ depth ih =>
    rw [walked]
    split
    case h_1 hat =>
      -- A directory: every way goes on behind it, so it may be left out but does not end one.
      have hon : ∀ {rest : List Text} {item : Item}, LeadsTo d place (way ++ rest) item →
          ∃ name more, rest = name :: more := by
        intro rest item hleads
        refine List.exists_cons_of_ne_nil fun hrest => hleads.file ?_
        have hstands := hleads.stands
        rw [hrest, List.append_nil, hat] at hstands
        exact (Option.some.inj hstands).symm
      cases hskip : way.getLast?.any skipsDirectory with
      | true =>
        rw [if_pos rfl]
        refine ⟨nofun, fun ⟨rest, item, _, hleads, _⟩ => ?_⟩
        obtain ⟨name, more, rfl⟩ := hon hleads
        obtain ⟨dir, hdir, hskipped⟩ := (Option.any_eq_true _ _).1 hskip
        have hpassed : dir ∈ (way ++ name :: more).dropLast := by
          rw [List.dropLast_append_cons]
          exact List.mem_append_left _ (List.mem_of_getLast? hdir)
        rw [skipsDirectory_eq_false.2 (hleads.passes dir hpassed)] at hskipped
        cases hskipped
      | false =>
        rw [if_neg Bool.false_ne_true, List.mem_flatMap]
        have hstep := fun name => ih (entered_snoc hway hskip name)
        simp only [hstep, List.append_assoc, List.singleton_append]
        constructor
        · rintro ⟨name, -, rest, item, hlength, hleads, rfl⟩
          exact ⟨name :: rest, item, Nat.succ_lt_succ hlength, hleads, rfl⟩
        · rintro ⟨rest, item, hlength, hleads, rfl⟩
          obtain ⟨name, more, rfl⟩ := hon hleads
          refine ⟨name, hd.mem_names.2 ?_, more, item, Nat.lt_of_succ_lt_succ hlength, hleads, rfl⟩
          have hstands := hleads.stands
          rw [← List.singleton_append, ← List.append_assoc, ← List.append_assoc] at hstands
          by_cases hmore : more = []
          · exact ⟨item, by simpa [hmore] using hstands⟩
          · exact ⟨_, hd.above hmore hstands⟩
    case h_2 item hfile hat =>
      -- Anything else: no way goes on behind it.
      have hend : ∀ {rest : List Text} {item' : Item}, LeadsTo d place (way ++ rest) item' →
          rest = [] := by
        intro rest item' hleads
        cases rest with
        | nil => rfl
        | cons name more =>
          have hstands := hleads.stands
          rw [← List.append_assoc] at hstands
          have habove := hd.above (List.cons_ne_nil name more) hstands
          exact absurd (Option.some.inj (hat.symm.trans habove)) hfile
      constructor
      · intro hf
        split at hf
        · rename_i hended
          obtain rfl := List.mem_singleton.1 hf
          have hleads : LeadsTo d place met item := ⟨hat, hfile, any_endsWith.1 hended, hway⟩
          exact ⟨[], item, Nat.succ_pos depth, by simpa using hleads, by simp⟩
        · cases hf
      · rintro ⟨rest, item', -, hleads, rfl⟩
        obtain rfl := hend hleads
        rw [List.append_nil] at hleads ⊢
        rw [if_pos (any_endsWith.2 hleads.ended)]
        exact List.mem_singleton_self _
    case h_3 hat =>
      refine ⟨nofun, fun ⟨rest, item, _, hleads, _⟩ => ?_⟩
      have hstands := hleads.stands
      by_cases hrest : rest = []
      · rw [hrest, List.append_nil, hat] at hstands
        cases hstands
      · rw [← List.append_assoc] at hstands
        cases hat.symm.trans (hd.above hrest hstands)

/-- A walk meets the ways in the strict order of their names, one name after the other. -/
theorem strict_walked (hd : d.WellFormed) (depth : Nat) {way : List Text} (hway : Entered way) :
    (walked d place depth way).Pairwise (· < ·) := by
  induction depth generalizing way with
  | zero => exact List.Pairwise.nil
  | succ depth ih =>
    rw [walked]
    split
    · split
      · exact List.Pairwise.nil
      · rename_i hskip
        rw [Bool.not_eq_true] at hskip
        have hstep := fun name => entered_snoc hway hskip name
        refine List.pairwise_flatMap.2 ⟨fun name _ => ih (hstep name), ?_⟩
        -- What is met behind a name comes before what is met behind a greater one.
        refine (hd.strict_names _).imp fun {a b} hlt met hmet met' hmet' => ?_
        obtain ⟨rest, -, -, -, rfl⟩ := (mem_walked hd (hstep a)).1 hmet
        obtain ⟨rest', -, -, -, rfl⟩ := (mem_walked hd (hstep b)).1 hmet'
        rw [List.append_assoc, List.append_assoc]
        exact List.append_left_lt (List.cons_lt_cons_iff.2 (.inl hlt))
    · split
      · exact List.pairwise_singleton ..
      · exact List.Pairwise.nil
    · exact List.Pairwise.nil

/-- The ways below a place are met by a walk from there in this order. -/
theorem waysBelow_eq_walked (hd : d.WellFormed) {depth : Nat}
    (hdepth : ∀ x ∈ d.items, x.1.length < depth) : waysBelow d place = walked d place depth [] := by
  have hroot : Entered [] := fun _ h => absurd h List.not_mem_nil
  have hmem : ∀ way, way ∈ waysBelow d place ↔ way ∈ walked d place depth [] := by
    intro way
    rw [mem_waysBelow hd, mem_walked hd hroot]
    constructor
    · rintro ⟨item, hleads⟩
      have hlength := hdepth _ (Disk.mem_items_of_at? hleads.place_ne_nil hleads.stands)
      rw [List.length_append] at hlength
      exact ⟨way, item, by omega, hleads, rfl⟩
    · rintro ⟨rest, item, -, hleads, rfl⟩
      exact ⟨item, hleads⟩
  have hstrict : (walked d place depth []).Pairwise (· < ·) := strict_walked hd depth hroot
  have hsorted : (waysBelow d place).Pairwise (· ≤ ·) := by
    have hpairwise : (waysBelow d place).Pairwise fun a b => decide (a ≤ b) = true := by
      refine List.pairwise_mergeSort (fun a b c hab hbc => ?_) (fun a b => ?_) _
      · simp only [decide_eq_true_eq] at hab hbc ⊢
        exact List.le_trans hab hbc
      · simpa using List.le_total a b
    exact hpairwise.imp fun h => of_decide_eq_true h
  have hnodup : (walked d place depth []).Nodup := hstrict.imp fun {a b} hlt heq => by
    rw [heq] at hlt
    exact List.lt_irrefl b hlt
  have hperm := (List.perm_ext_iff_of_nodup (nodup_waysBelow hd) hnodup).2 hmem
  refine hperm.eq_of_pairwise (fun a b _ _ hab hba => List.le_antisymm hab hba) hsorted ?_
  exact hstrict.imp fun h => Std.le_of_lt h

/-! ## What is loaded -/

theorem pairwise_mergeSort_path (files : List SchemaFile) :
    (files.mergeSort fun a b => decide (a.path ≤ b.path)).Pairwise fun f g => f.path ≤ g.path := by
  have hsorted : (files.mergeSort fun a b => decide (a.path ≤ b.path)).Pairwise
      fun f g => decide (f.path ≤ g.path) = true := by
    refine List.pairwise_mergeSort (fun f g h hfg hgh => ?_) (fun f g => ?_) files
    · simp only [decide_eq_true_eq] at hfg hgh ⊢
      exact List.le_trans hfg hgh
    · simpa using List.le_total f.path g.path
  exact hsorted.imp fun h => of_decide_eq_true h

/-- Files in a strict order of their names are what sorting makes of them. -/
theorem mergeSort_path_eq {files met : List SchemaFile} (hperm : met.Perm files)
    (hstrict : files.Pairwise fun f g => f.path < g.path) :
    (met.mergeSort fun a b => decide (a.path ≤ b.path)) = files := by
  have hsorted := (List.mergeSort_perm met fun a b => decide (a.path ≤ b.path)).trans hperm
  have hnames : ∀ f ∈ files, ∀ g ∈ files, f.path = g.path → f = g := by
    intro f hf g hg heq
    have hirrefl : ∀ {x y : Text}, x < y → x ≠ y := fun {x y} hlt h => List.lt_irrefl y (h ▸ hlt)
    obtain ⟨front, back, rfl⟩ := List.append_of_mem hf
    obtain ⟨-, hback, hfront⟩ := List.pairwise_append.1 hstrict
    rcases List.mem_append.1 hg with hg | hg
    · exact absurd heq.symm (hirrefl (hfront g hg f (List.mem_cons_self ..)))
    · rcases List.mem_cons.1 hg with rfl | hg
      · rfl
      · exact absurd heq (hirrefl ((List.pairwise_cons.1 hback).1 g hg))
  refine hsorted.eq_of_pairwise (fun f g hf hg hfg hgf => ?_) (pairwise_mergeSort_path met)
    (hstrict.imp fun h => Std.le_of_lt h)
  exact hnames f (hsorted.mem_iff.1 hf) g hg (List.le_antisymm hfg hgf)

/-- Whatever is loaded from a directory that is opened was read at the end of a way, and everything
there was. -/
theorem exists_loaded_of_opens {cwd dir : Text} (hdir : d.Opens cwd dir place)
    {files : List SchemaFile} (h : loadDir d cwd dir = .ok files) : ∃ loaded : List SchemaFile,
      (waysBelow d place).map (load d cwd dir) = loaded.map .ok ∧
        files = loaded.mergeSort fun a b => decide (a.path ≤ b.path) := by
  rw [loadDir_directory hdir.stat hdir.itself] at h
  cases hmap : (waysBelow d place).mapM (load d cwd dir) with
  | error e =>
    rw [hmap] at h
    cases h
  | ok loaded =>
    rw [hmap] at h
    exact ⟨loaded, mapM_eq_ok.1 hmap, (Except.ok.inj h).symm⟩

/-- Loading a directory gives exactly the files below a place that ways lead to, with their
content. -/
def LoadsRegular (d : Disk) (cwd dir : Text) (place : Place) : Prop :=
  ∃ files, loadDir d cwd dir = .ok files ∧ ∀ f, f ∈ files ↔
    ∃ way e, LeadsTo d place way (.plain e) ∧ f = ⟨Text.join [Path.slash] way, e.content⟩

section

variable {cwd dir : Text} (hd : d.WellFormed) (hdir : d.Opens cwd dir place)

include hd hdir

/-- A directory is loaded exactly if all schema files that ways lead to can be read. -/
theorem loadDir_isOk : (∃ files, loadDir d cwd dir = .ok files) ↔
    ∀ way item, LeadsTo d place way item →
      ∃ source, d.read cwd (Path.join [dir, Text.join [Path.slash] way]) = .ok source := by
  have hloads : (∃ files, loadDir d cwd dir = .ok files) ↔
      ∃ loaded, (waysBelow d place).mapM (load d cwd dir) = .ok loaded := by
    rw [loadDir_directory hdir.stat hdir.itself]
    cases (waysBelow d place).mapM (load d cwd dir) <;> simp [Except.map]
  rw [hloads, exists_mapM_eq_ok]
  constructor
  · intro h way item hleads
    obtain ⟨f, hf⟩ := h way ((mem_waysBelow hd).2 ⟨item, hleads⟩)
    exact ⟨f.source, (load_eq_ok.1 hf).2⟩
  · intro h way hway
    obtain ⟨item, hleads⟩ := (mem_waysBelow hd).1 hway
    obtain ⟨source, hread⟩ := h way item hleads
    exact ⟨⟨_, source⟩, load_eq_ok.2 ⟨rfl, hread⟩⟩

/-- The files of a directory are those at the ends of the ways. -/
theorem mem_of_loadDir {files : List SchemaFile} (h : loadDir d cwd dir = .ok files)
    (f : SchemaFile) : f ∈ files ↔ ∃ way item, LeadsTo d place way item ∧
      f.path = Text.join [Path.slash] way ∧
      d.read cwd (Path.join [dir, f.path]) = .ok f.source := by
  obtain ⟨loaded, hmap, rfl⟩ := exists_loaded_of_opens hdir h
  have hmem : f ∈ loaded ↔ Except.ok f ∈ (waysBelow d place).map (load d cwd dir) := by
    rw [hmap]
    simp
  rw [List.mem_mergeSort, hmem, List.mem_map]
  constructor
  · rintro ⟨way, hway, hload⟩
    obtain ⟨item, hleads⟩ := (mem_waysBelow hd).1 hway
    obtain ⟨hpath, hread⟩ := load_eq_ok.1 hload
    exact ⟨way, item, hleads, hpath, hpath ▸ hread⟩
  · rintro ⟨way, item, hleads, hpath, hread⟩
    exact ⟨way, (mem_waysBelow hd).2 ⟨item, hleads⟩, load_eq_ok.2 ⟨hpath, hpath ▸ hread⟩⟩

/-- The files of a directory have different names, in a strict order. -/
theorem strict_of_loadDir {files : List SchemaFile} (h : loadDir d cwd dir = .ok files) :
    files.Pairwise fun f g => f.path < g.path := by
  obtain ⟨loaded, hmap, rfl⟩ := exists_loaded_of_opens hdir h
  -- Two ways are different, and so are the names of what is loaded at their ends.
  have hways : (waysBelow d place).Pairwise fun a b => ∀ f g, load d cwd dir a = .ok f →
      load d cwd dir b = .ok g → f.path ≠ g.path := by
    refine (nodup_waysBelow hd).imp_of_mem fun {a b} ha hb hne f g hf hg hpath => hne ?_
    obtain ⟨item, hleads⟩ := (mem_waysBelow hd).1 ha
    obtain ⟨item', hleads'⟩ := (mem_waysBelow hd).1 hb
    rw [(load_eq_ok.1 hf).1, (load_eq_ok.1 hg).1] at hpath
    exact hleads.unique hd hleads' hpath
  have hloaded : (loaded.map Except.ok).Pairwise fun x y => ∀ f g : SchemaFile,
      x = Except.ok (ε := LoadError) f → y = .ok g → f.path ≠ g.path := by
    rw [← hmap, List.pairwise_map]
    exact hways
  have hapart : loaded.Pairwise fun f g => f.path ≠ g.path :=
    (List.pairwise_map.1 hloaded).imp fun h => h _ _ rfl rfl
  refine (pairwise_mergeSort_path loaded).imp₂ (fun _ _ hle hne => Std.lt_of_le_of_ne hle hne) ?_
  exact ((List.mergeSort_perm ..).pairwise_iff fun h => Ne.symm h).2 hapart

/-- Where no link is among the schema files and no name is too long, the files are those that ways
lead to, with their content. -/
theorem loadsRegular_of_plain
    (hplain : ∀ way item, LeadsTo d place way item → ∃ e, item = .plain e)
    (hlength : ∀ way item, LeadsTo d place way item →
      (Path.join [dir, Text.join [Path.slash] way]).length ≤ maxName) :
    LoadsRegular d cwd dir place := by
  have hread : ∀ way e, LeadsTo d place way (.plain e) →
      d.read cwd (Path.join [dir, Text.join [Path.slash] way]) = .ok e.content := fun way e h =>
    hdir.read_plain hd h.ne_nil (fun he => h.file (congrArg _ he)) h.stands (hlength _ _ h)
  obtain ⟨files, hload⟩ := (loadDir_isOk hd hdir).2 fun way item hleads => by
    obtain ⟨e, rfl⟩ := hplain way item hleads
    exact ⟨_, hread way e hleads⟩
  refine ⟨files, hload, fun f => (mem_of_loadDir hd hdir hload f).trans ⟨?_, ?_⟩⟩
  · rintro ⟨way, item, hleads, hpath, hsource⟩
    obtain ⟨e, rfl⟩ := hplain way item hleads
    rw [hpath, hread way e hleads] at hsource
    refine ⟨way, e, hleads, ?_⟩
    rw [← hpath, Except.ok.inj hsource]
  · rintro ⟨way, e, hleads, rfl⟩
    exact ⟨way, _, hleads, rfl, hread way e hleads⟩

end

/-- From a directory that is opened, exactly what ways lead to is loaded, if all of it can be read,
each with what is read by its name and in the strict order of the names; different ways give
different names. A file is read with its content, and a link with that of what it leads to. The
directory is loaded as a walk through it would meet the schema files, up to the first that cannot be
read. -/
theorem loadDir_selects {cwd dir : Text} (hd : d.WellFormed) (hdir : d.Opens cwd dir place) :
    ((∃ files, loadDir d cwd dir = .ok files) ↔ ∀ way item, LeadsTo d place way item →
      ∃ source, d.read cwd (Path.join [dir, Text.join [Path.slash] way]) = .ok source) ∧
    (∀ files, loadDir d cwd dir = .ok files →
      (files.Pairwise fun f g => f.path < g.path) ∧
      ∀ f, f ∈ files ↔ ∃ way item, LeadsTo d place way item ∧
        f.path = Text.join [Path.slash] way ∧
        d.read cwd (Path.join [dir, f.path]) = .ok f.source) ∧
    (∀ way way' item item', LeadsTo d place way item → LeadsTo d place way' item' →
      Text.join [Path.slash] way = Text.join [Path.slash] way' → way = way') ∧
    (∀ way e, LeadsTo d place way (.plain e) →
      (Path.join [dir, Text.join [Path.slash] way]).length ≤ maxName →
        d.read cwd (Path.join [dir, Text.join [Path.slash] way]) = .ok e.content) ∧
    (∀ way item source, LeadsTo d place way item →
      d.read cwd (Path.join [dir, Text.join [Path.slash] way]) = .ok source →
        item.content = .ok source ∨ ∃ target q found, item = .link target ∧
          d.leads (place ++ way.dropLast) target = .ok (q, found) ∧
          found.content = .ok source) ∧
    ∀ depth, (∀ x ∈ d.items, x.1.length < depth) →
      loadDir d cwd dir = ((walked d place depth []).mapM (load d cwd dir)).map fun files =>
        files.mergeSort fun a b => decide (a.path ≤ b.path) := by
  refine ⟨loadDir_isOk hd hdir,
    fun files h => ⟨strict_of_loadDir hd hdir h, mem_of_loadDir hd hdir h⟩,
    fun way way' item item' h h' hpath => h.unique hd h' hpath,
    fun way e h hlength => hdir.read_plain hd h.ne_nil (fun he => h.file (congrArg _ he)) h.stands
      hlength,
    fun way item source h hread => hdir.content_of_read hd h.ne_nil h.stands hread,
    fun depth hdepth => ?_⟩
  rw [loadDir_directory hdir.stat hdir.itself, waysBelow_eq_walked hd hdepth]

/-- A hidden directory with files called like hidden directories, directories called like schema
files, directories that are left out, and links, one of them to a file that has the right ending. -/
def crowdedDirectory : Disk :=
  ⟨[([lit ".s"], .directory), ([lit ".s", lit ".m.js"], .plain (.file (lit "m"))),
    ([lit ".s", lit ".cache"], .directory),
    ([lit ".s", lit ".cache", lit "d.js"], .plain (.file (lit "d"))),
    ([lit ".s", lit "a"], .directory), ([lit ".s", lit "a", lit "b.js"], .plain (.file (lit "b"))),
    ([lit ".s", lit "a", lit "node_modules"], .directory),
    ([lit ".s", lit "a", lit "node_modules", lit "i.js"], .plain (.file (lit "i"))),
    ([lit ".s", lit "a.js"], .directory),
    ([lit ".s", lit "a.js", lit "c.js"], .plain (.file (lit "c"))),
    ([lit ".s", lit "a.js", lit "read.me"], .plain (.file (lit "r"))),
    ([lit ".s", lit "l.js"], .link (lit "more/../../a.js/c.js")),
    ([lit ".s", lit "more"], .link (lit "/.s/a/node_modules"))]⟩

/-- The files are sorted by their whole names; the walk meets two of them the other way round, and
nothing below the link to a directory. -/
theorem crowdedDirectory_selects :
    crowdedDirectory.Opens (lit "/") (lit ".s") [lit ".s"] ∧
    walked crowdedDirectory [lit ".s"] 5 [] =
      [[lit ".m.js"], [lit "a", lit "b.js"], [lit "a.js", lit "c.js"], [lit "l.js"]] ∧
    loadDir crowdedDirectory (lit "/") (lit ".s") = .ok [⟨lit ".m.js", lit "m"⟩,
      ⟨lit "a.js/c.js", lit "c"⟩, ⟨lit "a/b.js", lit "b"⟩, ⟨lit "l.js", lit "c"⟩] ∧
    ∀ way item, LeadsTo crowdedDirectory [lit ".s"] way item →
      ∃ source, crowdedDirectory.read (lit "/")
        (Path.join [lit ".s", Text.join [Path.slash] way]) = .ok source := by
  have hd : crowdedDirectory.WellFormed := by decide +kernel
  have hdir : crowdedDirectory.Opens (lit "/") (lit ".s") [lit ".s"] :=
    ⟨eq_ok_of_toOption (by decide +kernel), eq_ok_of_toOption (by decide +kernel)⟩
  have hdepth : ∀ x ∈ crowdedDirectory.items, x.1.length < 5 := by decide +kernel
  obtain ⟨hreadable, -, -, -, -, hwalk⟩ := loadDir_selects hd hdir
  have hmet : walked crowdedDirectory [lit ".s"] 5 [] =
      [[lit ".m.js"], [lit "a", lit "b.js"], [lit "a.js", lit "c.js"], [lit "l.js"]] := by
    rw [← waysBelow_eq_walked hd hdepth]
    exact (List.mergeSort_of_pairwise (by decide +kernel)).trans (by decide +kernel)
  have hload : loadDir crowdedDirectory (lit "/") (lit ".s") = .ok [⟨lit ".m.js", lit "m"⟩,
      ⟨lit "a.js/c.js", lit "c"⟩, ⟨lit "a/b.js", lit "b"⟩, ⟨lit "l.js", lit "c"⟩] := by
    have hread : (walked crowdedDirectory [lit ".s"] 5 []).mapM
        (load crowdedDirectory (lit "/") (lit ".s")) = .ok [⟨lit ".m.js", lit "m"⟩,
          ⟨lit "a/b.js", lit "b"⟩, ⟨lit "a.js/c.js", lit "c"⟩, ⟨lit "l.js", lit "c"⟩] := by
      rw [hmet]
      exact eq_ok_of_toOption (by decide +kernel)
    rw [hwalk 5 hdepth, hread]
    exact congrArg Except.ok (mergeSort_path_eq (by decide +kernel) (by decide +kernel))
  exact ⟨hdir, hmet, hload, hreadable.1 ⟨_, hload⟩⟩

/-- A directory with a file and a link to it, and links from elsewhere: to the directory, and into a
directory beside it. -/
def linkedDirectory : Disk :=
  ⟨[([lit "s"], .directory), ([lit "s", lit "a.js"], .plain (.file (lit "a"))),
    ([lit "s", lit "b.js"], .link (lit "a.js")), ([lit "l"], .link (lit "s")),
    ([lit "t"], .directory), ([lit "t", lit "c.js"], .plain (.file (lit "c"))),
    ([lit "t", lit "u"], .directory), ([lit "m"], .link (lit "t/u"))]⟩

/-- Links make a difference, though everything can be read: a link with the right ending is loaded
with the files, below a link to a directory no file is found, and behind a link a step up leads to a
directory whose files are not read. -/
theorem linkedDirectory_not_regular : linkedDirectory.WellFormed ∧
    [lit "s/a.js", lit "s/b.js", lit "t/c.js"].map
      (fun name => (linkedDirectory.read (lit "/") name).toOption) =
        [some (lit "a"), some (lit "a"), some (lit "c")] ∧
    (linkedDirectory.follow true (lit "/") (lit "s") = .ok ([lit "s"], .directory) ∧
      ¬ LoadsRegular linkedDirectory (lit "/") (lit "s") [lit "s"]) ∧
    (linkedDirectory.follow true (lit "/") (lit "l") = .ok ([lit "s"], .directory) ∧
      ¬ LoadsRegular linkedDirectory (lit "/") (lit "l") [lit "s"]) ∧
    (linkedDirectory.follow true (lit "/") (lit "m/..") = .ok ([lit "t"], .directory) ∧
      ¬ LoadsRegular linkedDirectory (lit "/") (lit "m/..") [lit "t"]) := by
  have hd : linkedDirectory.WellFormed := by decide +kernel
  have hfile : LeadsTo linkedDirectory [lit "s"] [lit "a.js"] (.plain (.file (lit "a"))) :=
    ⟨by decide +kernel, by decide, ⟨_, rfl, by decide +kernel⟩, by decide⟩
  have hlink : LeadsTo linkedDirectory [lit "s"] [lit "b.js"] (.link (lit "a.js")) :=
    ⟨by decide +kernel, by decide, ⟨_, rfl, by decide +kernel⟩, by decide⟩
  have hopens : linkedDirectory.Opens (lit "/") (lit "s") [lit "s"] :=
    ⟨eq_ok_of_toOption (by decide +kernel), eq_ok_of_toOption (by decide +kernel)⟩
  refine ⟨hd, by decide +kernel, ⟨hopens.stat, ?_⟩, ⟨eq_ok_of_toOption (by decide +kernel), ?_⟩,
    eq_ok_of_toOption (by decide +kernel), ?_⟩
  · rintro ⟨files, hload, hfiles⟩
    -- The link is loaded, and no file is on its way.
    have hread : linkedDirectory.read (lit "/") (Path.join [lit "s", lit "b.js"]) = .ok (lit "a") :=
      eq_ok_of_toOption (by decide +kernel)
    have hmem : ⟨lit "b.js", lit "a"⟩ ∈ files :=
      (mem_of_loadDir hd hopens hload _).2 ⟨_, _, hlink, rfl, hread⟩
    obtain ⟨way, e, hleads, heq⟩ := (hfiles _).1 hmem
    obtain rfl := hlink.unique hd hleads (congrArg path heq)
    cases hlink.stands.symm.trans hleads.stands
  · rintro ⟨files, hload, hfiles⟩
    have hnone : loadDir linkedDirectory (lit "/") (lit "l") = .ok [] :=
      eq_ok_of_toOption (by decide +kernel)
    obtain rfl := Except.ok.inj (hnone.symm.trans hload)
    cases (hfiles _).2 ⟨_, _, hfile, rfl⟩
  · rintro ⟨files, hload, -⟩
    have hmissing : (loadDir linkedDirectory (lit "/") (lit "m/..")).toOption = none := by
      decide +kernel
    rw [hload] at hmissing
    cases hmissing

end SchemaFile

end CubeSchema
