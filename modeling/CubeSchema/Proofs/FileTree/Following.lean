import CubeSchema.Proofs.FileTree.Disk
import CubeSchema.Proofs.Path.Steps

/-!
# Following names on a disk

A name is followed turn by turn. What is left of it behind a directory is followed from there, with
as many links as are left (`walkFrom_append`); more links lead no other way (`Walk.mono`). Down
from a directory through directories every component is a turn to what stands there, so that a name
in the directory is read as what stands at its place or, if that is a link, as what the link leads
to (`Opens.follow_way`). This takes the directory to be opened by its clean name too, since that is
what the names in it start with.
-/

namespace CubeSchema

open FileTree

namespace Path

theorem mem_of_mem_splitOn {sep b : UInt8} {t part : Text} (h : part ∈ Text.splitOn sep t)
    (hb : b ∈ part) : b ∈ t := by
  induction t generalizing part with
  | nil =>
    rw [Text.splitOn, List.mem_singleton] at h
    rw [h] at hb
    cases hb
  | cons x rest ih =>
    rw [Text.splitOn] at h
    split at h
    · exact absurd ‹_› (Text.splitOn_ne_nil sep rest)
    · rename_i first more heq
      split at h
      · rcases List.mem_cons.1 h with rfl | h
        · cases hb
        · exact List.mem_cons_of_mem _ (ih (heq ▸ h) hb)
      · rcases List.mem_cons.1 h with rfl | h
        · rcases List.mem_cons.1 hb with rfl | hb
          · exact List.mem_cons_self ..
          · exact List.mem_cons_of_mem _ (ih (heq ▸ List.mem_cons_self ..) hb)
        · exact List.mem_cons_of_mem _ (ih (heq ▸ List.mem_cons_of_mem _ h) hb)

/-- The bytes of a joined name are slashes and those of its components. -/
theorem mem_join {b : UInt8} {cs : List Text} (h : b ∈ Text.join [slash] cs) :
    b = slash ∨ ∃ c ∈ cs, b ∈ c := by
  induction cs with
  | nil => cases h
  | cons c cs ih =>
    cases cs with
    | nil => exact .inr ⟨c, List.mem_cons_self .., h⟩
    | cons c' cs =>
      rw [join_cons_cons, List.mem_append, List.mem_cons] at h
      obtain h | h | h := h
      · exact .inr ⟨c, List.mem_cons_self .., h⟩
      · exact .inl h
      · obtain h | ⟨c'', hc, h⟩ := ih h
        · exact .inl h
        · exact .inr ⟨c'', List.mem_cons_of_mem _ hc, h⟩

/-- The bytes of a clean name are slashes, dots and those of the name. -/
theorem mem_clean {b : UInt8} {p : Text} (h : b ∈ clean p) : b = slash ∨ b ∈ here ∨ b ∈ p := by
  have hsteps : b ∈ Text.join [slash] (steps p) → b = slash ∨ b ∈ here ∨ b ∈ p := fun h => by
    obtain h | ⟨c, hc, hb⟩ := mem_join h
    · exact .inl h
    · have hmem := mem_components_of_mem_steps hc
      exact .inr (.inr (mem_of_mem_splitOn (List.mem_filter.1 hmem).1 hb))
  unfold clean assemble at h
  split at h
  · obtain h | h := List.mem_cons.1 h
    · exact .inl h
    · exact hsteps h
  · split at h
    · exact .inr (.inl h)
    · exact hsteps h

/-- A name in a directory takes the steps of the directory and then its own. -/
theorem steps_append_names {a : Text} (ha : a ≠ []) {cs : List Text} (h : ∀ c ∈ cs, IsName c) :
    steps (a ++ slash :: Text.join [slash] cs) = steps a ++ cs := by
  rw [steps, steps, isAbsolute_append ha, components_append, List.foldl_append,
    components_join fun c hc => ⟨(h c hc).1, (h c hc).2.1⟩, foldl_descend_names h,
    List.reverse_append, List.reverse_reverse]

/-- A joined name ends as its last component does. -/
theorem getLast?_join {cs : List Text} {c : Text} (hc : c ≠ []) :
    (Text.join [slash] (cs ++ [c])).getLast? = c.getLast? := by
  induction cs with
  | nil => rfl
  | cons d cs ih =>
    obtain ⟨e, es, heq⟩ := List.exists_cons_of_ne_nil (show cs ++ [c] ≠ [] by simp)
    rw [List.cons_append, heq, join_cons_cons, List.append_cons, List.getLast?_append, ← heq, ih]
    cases hlast : c.getLast? with
    | none => exact absurd (List.getLast?_eq_none_iff.1 hlast) hc
    | some b => rfl

end Path

namespace Disk

variable {d : Disk} {last : Bool} {n : Nat} {place q : Place} {cs : List Text}

/-! ## Turn by turn -/

/-- What comes of a link that is met in a directory when so many links may be followed. -/
def through (d : Disk) (last : Bool) :
    Nat → Place → Text → List Text → Except FileFault (Place × Item)
  | 0, _, _, _ => .error .looped
  | links + 1, place, target, rest =>
    d.walkFrom last links (base place target) (parts target ++ rest)

theorem walkFrom_nil : d.walkFrom last n place [] =
    match d.at? place with
    | some item => .ok (place, item)
    | none => .error .missing := by
  cases n <;> rfl

theorem walkFrom_cons (c : Text) : d.walkFrom last n place (c :: cs) =
    match d.turn place c with
    | .fails f => .error f
    | .goes q => d.walkFrom last n q cs
    | .meets target =>
      if cs.isEmpty && !last then .ok (place ++ [c], .link target)
      else d.through last n place target cs := by
  cases n <;> rfl

/-- A walk that gets somewhere, following no more links than so many. -/
inductive Walk (d : Disk) (last : Bool) : Nat → Place → List Text → Place × Item → Prop
  /-- Something stands where the walk is. -/
  | stops {n : Nat} {place : Place} {item : Item} (hat : d.at? place = some item) :
      Walk d last n place [] (place, item)
  /-- The next component leads on. -/
  | goes {n : Nat} {place q : Place} {c : Text} {cs : List Text} {r : Place × Item}
      (hturn : d.turn place c = .goes q) (more : Walk d last n q cs r) :
      Walk d last n place (c :: cs) r
  /-- The last component is a link that is not followed. -/
  | stays {n : Nat} {place : Place} {c target : Text} (hturn : d.turn place c = .meets target)
      (hlast : last = false) : Walk d last n place [c] (place ++ [c], .link target)
  /-- The next component is a link, and the walk goes on along its target. -/
  | follows {n : Nat} {place : Place} {c target : Text} {cs : List Text} {r : Place × Item}
      (hturn : d.turn place c = .meets target) (hfollow : (cs.isEmpty && !last) = false)
      (more : Walk d last n (base place target) (parts target ++ cs) r) :
      Walk d last (n + 1) place (c :: cs) r

theorem walk_of_walkFrom {r : Place × Item} (h : d.walkFrom last n place cs = .ok r) :
    Walk d last n place cs r := by
  -- A link takes one of the links that are left, any other turn a component.
  induction n using Nat.strongRecOn generalizing place cs with
  | _ n ihn =>
  induction cs generalizing place with
  | nil =>
    rw [walkFrom_nil] at h
    split at h
    · rename_i hat
      obtain rfl := Except.ok.inj h
      exact .stops hat
    · cases h
  | cons c cs ih =>
    rw [walkFrom_cons] at h
    cases hturn : d.turn place c with
    | fails f =>
      rw [hturn] at h
      cases h
    | goes q =>
      rw [hturn] at h
      exact .goes hturn (ih h)
    | meets target =>
      simp only [hturn] at h
      split at h
      · rename_i hstay
        obtain ⟨hempty, hlast⟩ := Bool.and_eq_true_iff.1 hstay
        obtain rfl := List.isEmpty_iff.1 hempty
        obtain rfl := Except.ok.inj h
        exact .stays hturn (by simpa using hlast)
      · rename_i hfollow
        cases n with
        | zero => cases h
        | succ links =>
          exact .follows hturn (Bool.eq_false_iff.2 hfollow) (ihn links (Nat.lt_succ_self links) h)

/-- What a walk gets to is what following the components gives. -/
theorem walkFrom_eq_ok {r : Place × Item} :
    d.walkFrom last n place cs = .ok r ↔ Walk d last n place cs r := by
  refine ⟨walk_of_walkFrom, fun h => ?_⟩
  induction h with
  | stops hat => rw [walkFrom_nil, hat]
  | goes hturn _ ih => rw [walkFrom_cons, hturn, ← ih]
  | stays hturn hlast =>
    rw [walkFrom_cons, hturn, hlast]
    rfl
  | follows hturn hfollow _ ih =>
    simp only [walkFrom_cons, hturn, hfollow, Bool.false_eq_true, if_false]
    exact ih

/-- A component that stays makes no difference where a walk succeeds. -/
theorem walkFrom_here {r : Place × Item} (h : d.walkFrom last n place [Path.here] = .ok r) :
    d.walkFrom last n place [] = .ok r := by
  have hturn : ∀ t, d.turn place Path.here = t → t = .goes place ∨ ∃ f, t = .fails f := by
    rintro t rfl
    unfold turn
    split
    · exact .inl (if_pos rfl)
    · exact .inr ⟨_, rfl⟩
    · exact .inr ⟨_, rfl⟩
  rw [walkFrom_cons] at h
  obtain hgoes | ⟨f, hfails⟩ := hturn _ rfl
  · rwa [hgoes] at h
  · rw [hfails] at h
    cases h

/-- Behind a directory what is left is followed from there, with the links that are left. -/
theorem walkFrom_append (h : d.walkFrom true n place cs = .ok (q, .directory)) :
    ∃ m ≤ n, ∀ rest, d.walkFrom true n place (cs ++ rest) = d.walkFrom true m q rest := by
  generalize hr : (q, Item.directory) = r at h
  replace h := walkFrom_eq_ok.1 h
  induction h with
  | @stops n place item hat =>
    obtain ⟨rfl, -⟩ := Prod.mk.inj hr
    exact ⟨n, Nat.le_refl n, fun rest => rfl⟩
  | goes hturn _ ih =>
    simp only [List.cons_append, walkFrom_cons, hturn]
    exact ih hr
  | stays _ hlast => cases hlast
  | follows hturn _ _ ih =>
    obtain ⟨m, hm, hrest⟩ := ih hr
    refine ⟨m, Nat.le_succ_of_le hm, fun rest => ?_⟩
    simp only [List.cons_append, walkFrom_cons, hturn, Bool.not_true, Bool.and_false,
      Bool.false_eq_true, if_false, through]
    rw [← List.append_assoc, hrest]

/-- Where a name leads, it leads too if more links may be followed. -/
theorem Walk.mono {m : Nat} {r : Place × Item} (h : Walk d last n place cs r) (hm : n ≤ m) :
    Walk d last m place cs r := by
  induction h generalizing m with
  | stops hat => exact .stops hat
  | goes hturn _ ih => exact .goes hturn (ih hm)
  | stays hturn hlast => exact .stays hturn hlast
  | follows hturn hfollow _ ih =>
    obtain ⟨more, rfl⟩ := Nat.exists_eq_add_of_le' hm
    exact .follows hturn hfollow (ih (Nat.le_add_left ..))

/-- What stands at the end of a name is found there also if a link there is followed. -/
theorem Walk.followed {r : Place × Item} (h : Walk d last n place cs r)
    (hitem : ∀ target, r.2 ≠ .link target) : Walk d true n place cs r := by
  induction h with
  | stops hat => exact .stops hat
  | goes hturn _ ih => exact .goes hturn (ih hitem)
  | stays => exact absurd rfl (hitem _)
  | follows hturn _ _ ih => exact .follows hturn (by simp) (ih hitem)

/-! ## Down through directories -/

/-- Every component is a name that something can have, everything stands in a directory, and nothing
is listed twice. -/
structure WellFormed (d : Disk) : Prop where
  /-- The components of every place are names, and no names that cannot be given. -/
  named : ∀ x ∈ d.items, ∀ c ∈ x.1, Path.IsName c ∧ c.length ≤ maxComponent ∧ 0 ∉ c
  /-- Above everything is a directory. -/
  nested : ∀ x ∈ d.items, d.at? x.1.dropLast = some .directory
  /-- At every place stands one thing. -/
  once : (d.items.map Prod.fst).Nodup

instance (d : Disk) : Decidable d.WellFormed :=
  decidable_of_iff ((∀ x ∈ d.items, ∀ c ∈ x.1, Path.IsName c ∧ c.length ≤ maxComponent ∧ 0 ∉ c) ∧
    (∀ x ∈ d.items, d.at? x.1.dropLast = some .directory) ∧ (d.items.map Prod.fst).Nodup)
    ⟨fun h => ⟨h.1, h.2.1, h.2.2⟩, fun h => ⟨h.named, h.nested, h.once⟩⟩

theorem mem_items_of_at? {p : Place} (hp : p ≠ []) {item : Item} (h : d.at? p = some item) :
    (p, item) ∈ d.items := by
  rw [at?, if_neg (by simpa using hp), List.lookup_eq_some_iff] at h
  obtain ⟨before, after, heq, -⟩ := h
  rw [heq]
  exact List.mem_append_right _ (List.mem_cons_self ..)

/-- What is listed at a place stands there. -/
theorem WellFormed.at? (hd : d.WellFormed) {p : Place} (hp : p ≠ []) {item : Item}
    (h : (p, item) ∈ d.items) : d.at? p = some item := by
  rw [Disk.at?, if_neg (by simpa using hp), List.lookup_eq_some_iff]
  obtain ⟨before, after, heq⟩ := List.append_of_mem h
  refine ⟨before, after, heq, fun x hx => ?_⟩
  have honce := hd.once
  rw [heq, List.map_append, List.map_cons] at honce
  have hne := (List.nodup_append.1 honce).2.2 x.1 (List.mem_map_of_mem hx) p
    (List.mem_cons_self ..)
  simpa using Ne.symm hne

/-- All places above something are directories. -/
theorem WellFormed.above (hd : d.WellFormed) {p rest : Place} (hrest : rest ≠ []) {item : Item}
    (hat : d.at? (p ++ rest) = some item) : d.at? p = some .directory := by
  have hone : ∀ {q : Place} {c : Text} {item : Item}, d.at? (q ++ [c]) = some item →
      d.at? q = some .directory := by
    intro q c item hq
    simpa using hd.nested _ (mem_items_of_at? (by simp) hq)
  induction rest generalizing p with
  | nil => exact absurd rfl hrest
  | cons c rest ih =>
    by_cases hempty : rest = []
    · exact hone (hempty ▸ hat)
    · rw [← List.singleton_append, ← List.append_assoc] at hat
      exact hone (ih hempty hat)

/-- The components on the way to something are names that something can have. -/
theorem WellFormed.names (hd : d.WellFormed) {way : List Text} {item : Item}
    (hat : d.at? (place ++ way) = some item) :
    ∀ c ∈ way, Path.IsName c ∧ c.length ≤ maxComponent ∧ 0 ∉ c := by
  intro c hc
  have hne : place ++ way ≠ [] := List.append_ne_nil_of_right_ne_nil _ (List.ne_nil_of_mem hc)
  exact hd.named _ (mem_items_of_at? hne hat) c (List.mem_append_right _ hc)

/-- Where the turn to something leads that stands at a place. -/
def turnTo (p : Place) : Item → Turn
  | .link target => .meets target
  | _ => .goes p

/-- What a walk comes to that has something at a place before it, when so many links may be
followed. -/
def arrival (d : Disk) (n : Nat) (p : Place) : Item → Except FileFault (Place × Item)
  | .link target => d.through true n p.dropLast target []
  | item => .ok (p, item)

/-- The turn to something that stands in a directory. -/
theorem WellFormed.turn (hd : d.WellFormed) {c : Text} {item : Item}
    (hat : d.at? (place ++ [c]) = some item) : d.turn place c = turnTo (place ++ [c]) item := by
  obtain ⟨⟨-, -, hhere, hup⟩, hlength, -⟩ := hd.names hat c (List.mem_cons_self ..)
  simp only [Disk.turn, hd.above (List.cons_ne_nil c []) hat, if_neg hhere, if_neg hup,
    if_neg (Nat.not_lt.2 hlength), hat]
  cases item <;> rfl

/-- Down a way through directories a walk gets to what stands at its end. -/
theorem WellFormed.walkFrom_way (hd : d.WellFormed) {way : List Text} (hway : way ≠ [])
    {item : Item} (hat : d.at? (place ++ way) = some item) :
    d.walkFrom true n place way = d.arrival n (place ++ way) item := by
  induction way generalizing place with
  | nil => exact absurd rfl hway
  | cons c rest ih =>
    rw [walkFrom_cons]
    by_cases hrest : rest = []
    · subst hrest
      rw [hd.turn hat]
      cases item <;> simp [turnTo, arrival, walkFrom_nil, hat]
    · rw [List.append_cons] at hat
      have hstep := ih hrest hat
      rw [← List.append_cons] at hstep
      rw [hd.turn (hd.above hrest hat)]
      exact hstep

/-! ## What is read in a directory -/

/-- A clean name that has steps has no other parts. -/
theorem parts_clean {p : Text} (h : Path.steps p ≠ []) : parts (Path.clean p) = Path.steps p := by
  obtain ⟨front, c, heq⟩ : ∃ front c, Path.steps p = front ++ [c] :=
    ⟨_, _, (List.dropLast_concat_getLast h).symm⟩
  obtain ⟨hc, hnone, -⟩ := Path.mem_steps (heq ▸ List.mem_concat_self)
  have hjoin : (Text.join [Path.slash] (Path.steps p)).getLast? = c.getLast? := by
    rw [heq, Path.getLast?_join hc]
  have hlast : (Path.clean p).getLast? = c.getLast? := by
    unfold Path.clean Path.assemble
    split
    · cases hslash : c.getLast? with
      | none => exact absurd (List.getLast?_eq_none_iff.1 hslash) hc
      | some b => rw [List.getLast?_cons, hjoin, hslash, Option.getD_some]
    · rw [if_neg (by simpa using h), hjoin]
  have hslash : wantsDirectory (Path.clean p) = false := by
    rw [wantsDirectory, hlast, decide_eq_false_iff_not]
    exact fun hslash => hnone (List.mem_of_getLast? hslash)
  rw [parts, hslash, Path.components_clean, if_neg fun hempty => h hempty.2]
  simp

theorem follow_eq_ok {cwd p : Text} {r : Place × Item} (h : d.follow last cwd p = .ok r) :
    p ≠ [] ∧ 0 ∉ p ∧ p.length ≤ maxName ∧
      d.walkFrom last maxLinks (origin cwd p) (parts p) = .ok r := by
  unfold follow at h
  split at h
  · cases h
  split at h
  · cases h
  split at h
  · cases h
  · rename_i hempty hzero hlength
    exact ⟨by simpa using hempty, by simpa using hzero, Nat.not_lt.1 hlength, h⟩

/-- What is read at a name is the content of what the name leads to. -/
theorem read_eq_ok {cwd p source : Text} : d.read cwd p = .ok source ↔
    ∃ q item, d.follow true cwd p = .ok (q, item) ∧ item.content = .ok source := by
  unfold read
  cases d.follow true cwd p with
  | error f => simp
  | ok r =>
    obtain ⟨q, item⟩ := r
    have hone : (∃ q' item', Except.ok (ε := FileFault) (q, item) = .ok (q', item') ∧
        item'.content = .ok source) ↔ item.content = .ok source :=
      ⟨fun ⟨_, _, heq, hcontent⟩ => by cases heq; exact hcontent, fun h => ⟨q, item, rfl, h⟩⟩
    rw [hone]
    have hcontent : ∀ content : Text, Except.ok (ε := FileError) content = .ok source ↔
        Except.ok (ε := FileFault) content = .ok source := fun content =>
      ⟨fun h => congrArg _ (Except.ok.inj h), fun h => congrArg _ (Except.ok.inj h)⟩
    cases item with
    | plain e =>
      cases e with
      | file content => exact hcontent content
      | database content => exact hcontent databaseMagic
      | directory => exact ⟨nofun, nofun⟩
    | link target => exact ⟨nofun, nofun⟩
    | special content => exact hcontent content
    | sealed f => exact ⟨nofun, nofun⟩

/-- What a link in a directory leads to. -/
def leads (d : Disk) (place : Place) (target : Text) : Except FileFault (Place × Item) :=
  d.walkFrom true maxLinks (base place target) (parts target)

/-- A directory is opened: it stands itself where its name leads, and its clean name leads there
too. -/
structure Opens (d : Disk) (cwd dir : Text) (place : Place) : Prop where
  /-- The name leads to the directory and not to a link. -/
  itself : d.follow false cwd dir = .ok (place, .directory)
  /-- The clean name leads to the directory. -/
  cleaned : d.follow true cwd (Path.clean dir) = .ok (place, .directory)

section

variable {cwd dir : Text} (h : d.Opens cwd dir place)

include h

/-- Something stands at the name of a directory that is opened. -/
theorem Opens.stat : d.follow true cwd dir = .ok (place, .directory) := by
  obtain ⟨hne, hzero, hlength, hwalk⟩ := follow_eq_ok h.itself
  rw [follow, if_neg (by simpa using hne), if_neg (by simpa using hzero),
    if_neg (Nat.not_lt.2 hlength)]
  exact walkFrom_eq_ok.2 ((walkFrom_eq_ok.1 hwalk).followed nofun)

/-- The steps of its name lead to the directory. -/
theorem Opens.steps :
    d.walkFrom true maxLinks (origin cwd dir) (Path.steps dir) = .ok (place, .directory) := by
  obtain ⟨-, -, -, hwalk⟩ := follow_eq_ok h.cleaned
  rw [origin, Path.isAbsolute_clean, ← origin] at hwalk
  by_cases hsteps : Path.steps dir = []
  · -- The clean name has one part, which stays where it is.
    have hparts : parts (Path.clean dir) = [Path.here] := by
      rw [Path.clean, hsteps]
      cases Path.isAbsolute dir <;> decide
    rw [hparts] at hwalk
    rw [hsteps]
    exact walkFrom_here hwalk
  · rwa [parts_clean hsteps] at hwalk

/-- The name of something in the directory leads to what a walk down from the directory comes to, if
it is not too long. -/
theorem Opens.follow_way (hd : d.WellFormed) : ∃ m ≤ maxLinks, ∀ way item, way ≠ [] →
    d.at? (place ++ way) = some item →
      d.follow true cwd (Path.join [dir, Text.join [Path.slash] way]) =
        if (Path.join [dir, Text.join [Path.slash] way]).length > maxName then .error .nameTooLong
        else d.arrival m (place ++ way) item := by
  obtain ⟨m, hm, hrest⟩ := walkFrom_append h.steps
  obtain ⟨hdir, hzero, -, -⟩ := follow_eq_ok h.itself
  refine ⟨m, hm, fun way item hway hat => ?_⟩
  have hnames := hd.names hat
  have hjoin : Path.join [dir, Text.join [Path.slash] way] =
      Path.clean (dir ++ Path.slash :: Text.join [Path.slash] way) := by
    rw [Path.join_pair hdir, if_neg]
    intro hempty
    have hcomponents := Path.components_join fun c hc => ⟨(hnames c hc).1.1, (hnames c hc).1.2.1⟩
    rw [hempty] at hcomponents
    exact hway hcomponents.symm
  have hsteps : Path.steps (dir ++ Path.slash :: Text.join [Path.slash] way) =
      Path.steps dir ++ way := Path.steps_append_names hdir fun c hc => (hnames c hc).1
  have horigin : origin cwd (Path.join [dir, Text.join [Path.slash] way]) = origin cwd dir := by
    rw [origin, Path.isAbsolute_join_pair hdir, ← origin]
  have hclean : 0 ∉ Path.join [dir, Text.join [Path.slash] way] := by
    rw [hjoin]
    intro hmem
    obtain hmem | hmem | hmem := Path.mem_clean hmem
    · exact absurd hmem (by decide)
    · exact absurd hmem (by decide)
    · obtain hmem | hmem := List.mem_append.1 hmem
      · exact hzero hmem
      · obtain hmem | hmem := List.mem_cons.1 hmem
        · exact absurd hmem (by decide)
        · obtain hmem | ⟨c, hc, hmem⟩ := Path.mem_join hmem
          · exact absurd hmem (by decide)
          · exact (hnames c hc).2.2 hmem
  have hne : Path.join [dir, Text.join [Path.slash] way] ≠ [] := by
    intro hempty
    have hback := Path.steps_clean (dir ++ Path.slash :: Text.join [Path.slash] way)
    rw [← hjoin, hempty, hsteps] at hback
    exact hway (List.append_eq_nil_iff.1 hback.symm).2
  rw [follow, if_neg (by simpa using hne), if_neg (by simpa using hclean), horigin, hjoin,
    parts_clean (by simp [hsteps, hway]), hsteps, hrest, hd.walkFrom_way hway hat]

/-- A file in the directory is read by its name, if that is not too long. -/
theorem Opens.read_plain (hd : d.WellFormed) {way : List Text} (hway : way ≠ []) {e : Entry}
    (he : e ≠ .directory) (hat : d.at? (place ++ way) = some (.plain e))
    (hlength : (Path.join [dir, Text.join [Path.slash] way]).length ≤ maxName) :
    d.read cwd (Path.join [dir, Text.join [Path.slash] way]) = .ok e.content := by
  obtain ⟨m, -, hfollow⟩ := h.follow_way hd
  rw [read_eq_ok, hfollow way _ hway hat, if_neg (Nat.not_lt.2 hlength)]
  refine ⟨_, _, rfl, ?_⟩
  cases e with
  | file content => rfl
  | database content => rfl
  | directory => exact absurd rfl he

/-- What is read at a name in the directory is the content of what stands there or, behind a link,
of what that leads to. -/
theorem Opens.content_of_read (hd : d.WellFormed) {way : List Text} (hway : way ≠ []) {item : Item}
    (hat : d.at? (place ++ way) = some item) {source : Text}
    (hread : d.read cwd (Path.join [dir, Text.join [Path.slash] way]) = .ok source) :
    item.content = .ok source ∨ ∃ target q found, item = .link target ∧
      d.leads (place ++ way.dropLast) target = .ok (q, found) ∧ found.content = .ok source := by
  obtain ⟨m, hm, hfollow⟩ := h.follow_way hd
  obtain ⟨q, found, hfound, hcontent⟩ := read_eq_ok.1 hread
  rw [hfollow way item hway hat] at hfound
  split at hfound
  · cases hfound
  cases item with
  | link target =>
    rw [arrival, List.dropLast_append_of_ne_nil hway] at hfound
    cases m with
    | zero => cases hfound
    | succ links =>
      rw [through, List.append_nil] at hfound
      have hwalk := (walkFrom_eq_ok.1 hfound).mono (Nat.le_of_succ_le hm)
      exact .inr ⟨target, q, found, rfl, walkFrom_eq_ok.2 hwalk, hcontent⟩
  | plain e =>
    cases hfound
    exact .inl hcontent
  | special content =>
    cases hfound
    exact .inl hcontent
  | sealed f =>
    cases hfound
    exact .inl hcontent

end

end Disk

end CubeSchema
