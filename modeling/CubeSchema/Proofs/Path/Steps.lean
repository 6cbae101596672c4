import CubeSchema.Config
import CubeSchema.FileTree

/-!
# Where a name leads

A name is followed component by component (`going`), and cleaning it does not change where it leads:
`place cwd p` is the same for `p` and for its clean name. What is read as a name relative to a
directory leads to a place below that directory unless it goes up, which its clean name shows at its
first component.
-/

namespace CubeSchema

/-! ## Splitting a text -/

namespace Text

theorem splitOn_ne_nil (sep : UInt8) (t : Text) : splitOn sep t ≠ [] := by
  cases t with
  | nil => simp [splitOn]
  | cons b t =>
    rw [splitOn]
    split
    · simp
    · split <;> simp

/-- The parts of a text that is cut at a separator. -/
theorem splitOn_append (sep : UInt8) (a b : Text) :
    splitOn sep (a ++ sep :: b) = splitOn sep a ++ splitOn sep b := by
  induction a with
  | nil =>
    obtain ⟨part, parts, hb⟩ := List.exists_cons_of_ne_nil (splitOn_ne_nil sep b)
    simp [splitOn, hb]
  | cons c a ih =>
    obtain ⟨part, parts, ha⟩ := List.exists_cons_of_ne_nil (splitOn_ne_nil sep a)
    rw [ha, List.cons_append] at ih
    simp only [List.cons_append, splitOn, ih, ha]
    split <;> rfl

theorem splitOn_eq_singleton {sep : UInt8} {t : Text} (h : sep ∉ t) : splitOn sep t = [t] := by
  induction t with
  | nil => rfl
  | cons b t ih =>
    rw [List.mem_cons, not_or] at h
    obtain ⟨hb, ht⟩ := h
    simp only [splitOn, ih ht, if_neg (Ne.symm hb)]

theorem not_mem_of_mem_splitOn {sep : UInt8} {t part : Text} (h : part ∈ splitOn sep t) :
    sep ∉ part := by
  induction t generalizing part with
  | nil =>
    obtain rfl := List.mem_singleton.1 h
    exact List.not_mem_nil
  | cons b t ih =>
    obtain ⟨first, parts, ht⟩ := List.exists_cons_of_ne_nil (splitOn_ne_nil sep t)
    rw [ht] at ih
    simp only [splitOn, ht] at h
    by_cases hb : b = sep
    · rw [if_pos hb] at h
      rcases List.mem_cons.1 h with rfl | h
      · exact List.not_mem_nil
      · exact ih h
    · rw [if_neg hb] at h
      rcases List.mem_cons.1 h with rfl | h
      · rw [List.mem_cons, not_or]
        exact ⟨Ne.symm hb, ih (List.mem_cons_self ..)⟩
      · exact ih (List.mem_cons_of_mem _ h)

end Text

namespace Path

/-! ## Components -/

theorem mem_components {p c : Text} (h : c ∈ components p) : c ≠ [] ∧ slash ∉ c := by
  obtain ⟨hmem, hne⟩ := List.mem_filter.1 h
  exact ⟨by simpa using hne, Text.not_mem_of_mem_splitOn hmem⟩

theorem components_append (a b : Text) :
    components (a ++ slash :: b) = components a ++ components b := by
  rw [components, Text.splitOn_append, List.filter_append]
  rfl

theorem components_slash (p : Text) : components (slash :: p) = components p :=
  components_append [] p

theorem components_singleton {c : Text} (hne : c ≠ []) (hslash : slash ∉ c) :
    components c = [c] := by
  rw [components, Text.splitOn_eq_singleton hslash]
  simp [hne]

theorem join_cons_cons (c d : Text) (cs : List Text) :
    Text.join [slash] (c :: d :: cs) = c ++ slash :: Text.join [slash] (d :: cs) := by
  simp [Text.join]

/-- The components of a name that is put together of components. -/
theorem components_join {cs : List Text} (h : ∀ c ∈ cs, c ≠ [] ∧ slash ∉ c) :
    components (Text.join [slash] cs) = cs := by
  induction cs with
  | nil => rfl
  | cons c cs ih =>
    obtain ⟨⟨hne, hslash⟩, hcs⟩ := List.forall_mem_cons.1 h
    cases cs with
    | nil => exact components_singleton hne hslash
    | cons d cs =>
      rw [join_cons_cons, components_append, components_singleton hne hslash, ih hcs]
      rfl

/-! ## Going from place to place -/

/-- A component that goes down. -/
def IsName (c : Text) : Prop := c ≠ [] ∧ slash ∉ c ∧ c ≠ here ∧ c ≠ up

instance (c : Text) : Decidable (IsName c) := inferInstanceAs (Decidable (_ ∧ _))

@[simp] theorem descend_here (rooted : Bool) (done : List Text) : descend rooted done here = done :=
  if_pos rfl

theorem descend_down {c : Text} (hhere : c ≠ here) (hup : c ≠ up) (rooted : Bool)
    (done : List Text) : descend rooted done c = c :: done := by
  unfold descend
  rw [if_neg hhere, if_neg hup]

/-- Names add to the way. -/
theorem foldl_descend_names {cs : List Text} (h : ∀ c ∈ cs, IsName c) (rooted : Bool)
    (done : List Text) : cs.foldl (descend rooted) done = cs.reverse ++ done := by
  induction cs generalizing done with
  | nil => rfl
  | cons c cs ih =>
    obtain ⟨⟨-, -, hhere, hup⟩, hcs⟩ := List.forall_mem_cons.1 h
    rw [List.foldl_cons, descend_down hhere hup, ih hcs, List.reverse_cons, List.append_assoc,
      List.singleton_append]

/-- Going up takes the last component back. -/
theorem descend_up_cons {last : Text} (h : last ≠ up) (rooted : Bool) (rest : List Text) :
    descend rooted (last :: rest) up = rest := by
  unfold descend
  rw [if_neg (by decide), if_pos rfl]
  simp [h]

theorem descend_up {done : List Text} (h : up ∉ done) : descend true done up = done.tail := by
  cases done with
  | nil => rfl
  | cons last rest => exact descend_up_cons (fun heq => h (heq ▸ List.mem_cons_self ..)) true rest

/-- The place that components lead to from a place. -/
def going (place cs : List Text) : List Text := (cs.foldl (descend true) place.reverse).reverse

@[simp] theorem going_nil (place : List Text) : going place [] = place := by simp [going]

theorem going_append (place a b : List Text) : going place (a ++ b) = going (going place a) b := by
  simp [going]

theorem going_cons (place : List Text) (c : Text) (cs : List Text) :
    going place (c :: cs) = going (going place [c]) cs := going_append place [c] cs

@[simp] theorem going_here (place : List Text) : going place [here] = place := by
  simp [going]

theorem going_down {c : Text} (hhere : c ≠ here) (hup : c ≠ up) (place : List Text) :
    going place [c] = place ++ [c] := by
  simp [going, descend_down hhere hup]

theorem going_up {place : List Text} (h : up ∉ place) : going place [up] = place.dropLast := by
  have hreverse : up ∉ place.reverse := by simpa using h
  simp [going, descend_up hreverse]

/-- Names lead straight down. -/
theorem going_names {cs : List Text} (h : ∀ c ∈ cs, IsName c) (place : List Text) :
    going place cs = place ++ cs := by
  induction cs generalizing place with
  | nil => simp
  | cons c cs ih =>
    obtain ⟨⟨-, -, hhere, hup⟩, hcs⟩ := List.forall_mem_cons.1 h
    rw [going_cons, going_down hhere hup, ih hcs, List.append_assoc, List.singleton_append]

/-- Going up only leads to a place above. -/
theorem going_ups_prefix {cs : List Text} (hcs : ∀ c ∈ cs, c = up) {place : List Text}
    (h : up ∉ place) : going place cs <+: place := by
  induction cs generalizing place with
  | nil => simp
  | cons c cs ih =>
    obtain ⟨hc, hcs⟩ := List.forall_mem_cons.1 hcs
    rw [going_cons, hc, going_up h]
    have hdrop : up ∉ place.dropLast := fun hmem => h (List.dropLast_subset _ hmem)
    exact (ih hcs hdrop).trans (List.dropLast_prefix place)

/-! ## Steps -/

/-- What is kept of the components of a name, in reverse: no component that stays, and only those
that go up from where the name is read, which come before all others. -/
structure IsNormal (rooted : Bool) (done : List Text) : Prop where
  /-- Every component goes somewhere. -/
  component : ∀ c ∈ done, c ≠ [] ∧ slash ∉ c ∧ c ≠ here
  /-- From the root there is no way up. -/
  rooted : rooted = true → up ∉ done
  /-- In front of a component that goes up are only others that do. -/
  ups : done.Pairwise fun later earlier => later = up → earlier = up

theorem IsNormal.descend {rooted : Bool} {done : List Text} (h : IsNormal rooted done) {c : Text}
    (hc : c ≠ [] ∧ slash ∉ c) : IsNormal rooted (descend rooted done c) := by
  by_cases hhere : c = here
  · simpa [hhere] using h
  by_cases hup : c = up
  · subst hup
    unfold Path.descend
    rw [if_neg hhere, if_pos rfl]
    cases done with
    | nil =>
      cases rooted with
      | true => exact h
      | false => exact ⟨by decide, by simp, by simp⟩
    | cons last rest =>
      obtain ⟨hlast, hrest⟩ := List.pairwise_cons.1 h.ups
      by_cases heq : last = up
      · -- All that is kept goes up already, and one more step up joins it.
        refine ⟨?_, fun hr => absurd (heq ▸ List.mem_cons_self ..) (h.rooted hr), ?_⟩
        · simp only [heq, if_true]
          exact List.forall_mem_cons.2 ⟨by decide, heq ▸ h.component⟩
        · simp only [heq, if_true]
          refine List.pairwise_cons.2 ⟨fun a ha _ => ?_, heq ▸ h.ups⟩
          rcases List.mem_cons.1 ha with rfl | ha
          · rfl
          · exact hlast a ha heq
      · simp only [heq, if_false]
        exact ⟨fun c hc => h.component c (List.mem_cons_of_mem _ hc),
          fun hr hmem => h.rooted hr (List.mem_cons_of_mem _ hmem), hrest⟩
  · rw [descend_down hhere hup]
    refine ⟨List.forall_mem_cons.2 ⟨⟨hc.1, hc.2, hhere⟩, h.component⟩, fun hr => ?_, ?_⟩
    · rw [List.mem_cons, not_or]
      exact ⟨Ne.symm hup, h.rooted hr⟩
    · exact List.pairwise_cons.2 ⟨fun _ _ h => absurd h hup, h.ups⟩

theorem IsNormal.foldl_descend {rooted : Bool} {done : List Text} (h : IsNormal rooted done)
    {cs : List Text} (hcs : ∀ c ∈ cs, c ≠ [] ∧ slash ∉ c) :
    IsNormal rooted (cs.foldl (Path.descend rooted) done) := by
  induction cs generalizing done with
  | nil => exact h
  | cons c cs ih =>
    obtain ⟨hc, hcs⟩ := List.forall_mem_cons.1 hcs
    exact ih (h.descend hc) hcs

theorem isNormal_nil (rooted : Bool) : IsNormal rooted [] := ⟨by simp, by simp, List.Pairwise.nil⟩

theorem isNormal_steps (p : Text) : IsNormal (isAbsolute p) (steps p).reverse := by
  rw [steps, List.reverse_reverse]
  exact (isNormal_nil _).foldl_descend fun c => mem_components

theorem mem_steps {p c : Text} (h : c ∈ steps p) : c ≠ [] ∧ slash ∉ c ∧ c ≠ here :=
  (isNormal_steps p).component c (List.mem_reverse.2 h)

theorem up_not_mem_steps {p : Text} (h : isAbsolute p = true) : up ∉ steps p := by
  simpa using (isNormal_steps p).rooted h

/-- Where a step goes up, all steps in front of it do. -/
theorem steps_pairwise (p : Text) :
    (steps p).Pairwise fun earlier later => later = up → earlier = up := by
  simpa using List.pairwise_reverse.1 (by simpa using (isNormal_steps p).ups)

theorem mem_descend {rooted : Bool} {done : List Text} {c x : Text}
    (h : x ∈ descend rooted done c) : x ∈ done ∨ x = c := by
  unfold descend at h
  split at h
  · exact .inl h
  split at h
  · rename_i hup
    split at h
    · split at h
      · exact .inl h
      · exact .inr ((List.mem_singleton.1 h).trans hup.symm)
    · split at h
      · rcases List.mem_cons.1 h with h | h
        · exact .inr (h.trans hup.symm)
        · exact .inl h
      · exact .inl (List.mem_cons_of_mem _ h)
  · exact (List.mem_cons.1 h).symm

/-- Every step of a name is one of its components. -/
theorem mem_components_of_mem_steps {p x : Text} (h : x ∈ steps p) : x ∈ components p := by
  have hall : ∀ (cs done : List Text), x ∈ cs.foldl (descend (isAbsolute p)) done →
      x ∈ done ∨ x ∈ cs := by
    intro cs
    induction cs with
    | nil => exact fun _ h => .inl h
    | cons c cs ih =>
      intro done h
      rcases ih _ h with h | h
      · rcases mem_descend h with h | rfl
        · exact .inl h
        · exact .inr (List.mem_cons_self ..)
      · exact .inr (List.mem_cons_of_mem _ h)
  simpa using hall _ [] (List.mem_reverse.1 h)

/-- One component does the same before and after it is put in order. -/
theorem foldl_descend_descend {outer rooted : Bool} {start done : List Text}
    (hstart : rooted = true → outer = true ∧ start = []) (h : IsNormal rooted done) (c : Text) :
    (descend rooted done c).reverse.foldl (descend outer) start =
      descend outer (done.reverse.foldl (descend outer) start) c := by
  -- A component stays, goes, or takes back the one in front of it.
  by_cases hhere : c = here
  · simp [hhere]
  by_cases hup : c = up
  · subst hup
    cases done with
    | nil =>
      cases rooted with
      | true =>
        obtain ⟨rfl, rfl⟩ := hstart rfl
        rfl
      | false => rfl
    | cons last rest =>
      by_cases heq : last = up
      · have hstep : descend rooted (last :: rest) up = up :: last :: rest := by
          unfold Path.descend
          rw [if_neg hhere, if_pos rfl]
          simp [heq]
        rw [hstep, List.reverse_cons, List.foldl_append, List.foldl_cons, List.foldl_nil]
      · -- The last component is taken back at once.
        have hlast : last ≠ here := (h.component last (List.mem_cons_self ..)).2.2
        have htaken : ∀ flag rest, descend flag (last :: rest) up = rest := by
          intro flag rest
          unfold Path.descend
          rw [if_neg hhere, if_pos rfl]
          simp [heq]
        rw [htaken, List.reverse_cons, List.foldl_append, List.foldl_cons, List.foldl_nil,
          descend_down hlast heq, htaken]
  · rw [descend_down hhere hup, List.reverse_cons, List.foldl_append]
    rfl

/-- Components do the same before and after they are put in order. -/
theorem foldl_descend_foldl {outer rooted : Bool} {start done cs : List Text}
    (hstart : rooted = true → outer = true ∧ start = []) (h : IsNormal rooted done)
    (hcs : ∀ c ∈ cs, c ≠ [] ∧ slash ∉ c) :
    (cs.foldl (descend rooted) done).reverse.foldl (descend outer) start =
      cs.foldl (descend outer) (done.reverse.foldl (descend outer) start) := by
  induction cs generalizing done with
  | nil => rfl
  | cons c cs ih =>
    obtain ⟨hc, hcs⟩ := List.forall_mem_cons.1 hcs
    rw [List.foldl_cons, ih (h.descend hc) hcs, foldl_descend_descend hstart h, ← List.foldl_cons]

/-- A name leads where its components lead. -/
theorem going_steps {p : Text} {place : List Text} (hplace : isAbsolute p = true → place = []) :
    going place (steps p) = going place (components p) := by
  have hstart : isAbsolute p = true → true = true ∧ place.reverse = [] :=
    fun h => ⟨rfl, by rw [hplace h, List.reverse_nil]⟩
  rw [going, steps, foldl_descend_foldl hstart (isNormal_nil _) fun c => mem_components]
  rfl

/-- From the root, the steps of a name are the place it leads to. -/
theorem steps_eq_going {p : Text} (h : isAbsolute p = true) :
    steps p = going [] (components p) := by
  rw [steps, h]
  rfl

/-- The steps of a name without a way up lead straight down. -/
theorem going_steps_down {p : Text} (h : up ∉ steps p) (place : List Text) :
    going place (steps p) = place ++ steps p := by
  refine going_names (fun c hc => ?_) place
  obtain ⟨hne, hslash, hhere⟩ := mem_steps hc
  exact ⟨hne, hslash, hhere, fun hup => h (hup ▸ hc)⟩

/-! ## Clean names -/

theorem isAbsolute_join {c : Text} (hne : c ≠ []) (hslash : slash ∉ c) (cs : List Text) :
    isAbsolute (Text.join [slash] (c :: cs)) = false := by
  obtain ⟨b, rest, rfl⟩ := List.exists_cons_of_ne_nil hne
  have hb : b ≠ slash := fun h => hslash (h ▸ List.mem_cons_self ..)
  cases cs with
  | nil => simp [isAbsolute, Text.join, hb]
  | cons d cs => simp [isAbsolute, join_cons_cons, hb]

@[simp] theorem isAbsolute_clean (p : Text) : isAbsolute (clean p) = isAbsolute p := by
  unfold clean assemble
  cases hp : isAbsolute p with
  | true => simp [isAbsolute]
  | false =>
    cases hs : steps p with
    | nil => decide
    | cons c cs =>
      obtain ⟨hne, hslash, -⟩ := mem_steps (hs ▸ List.mem_cons_self .. : c ∈ steps p)
      simpa using isAbsolute_join hne hslash cs

/-- The components of a clean name are its steps, and one that stays if there are none. -/
theorem components_clean (p : Text) : components (clean p) =
    if isAbsolute p = false ∧ steps p = [] then [here] else steps p := by
  have hjoin : components (Text.join [slash] (steps p)) = steps p :=
    components_join fun c hc => ⟨(mem_steps hc).1, (mem_steps hc).2.1⟩
  unfold clean assemble
  cases hp : isAbsolute p with
  | true => simp [components_slash, hjoin]
  | false =>
    by_cases hs : steps p = []
    · simp only [hs]
      decide
    · simp [hs, hjoin]

theorem going_components_clean (p : Text) (place : List Text) :
    going place (components (clean p)) = going place (steps p) := by
  rw [components_clean]
  split
  · rename_i h
    simp [h.2]
  · rfl

/-- What is in order stays so. -/
theorem IsNormal.foldl_reverse {rooted : Bool} {done : List Text} (h : IsNormal rooted done) :
    done.reverse.foldl (Path.descend rooted) [] = done := by
  induction done with
  | nil => rfl
  | cons c done ih =>
    obtain ⟨hc, hups⟩ := List.pairwise_cons.1 h.ups
    have hdone : IsNormal rooted done :=
      ⟨fun d hd => h.component d (List.mem_cons_of_mem _ hd),
        fun hr hmem => h.rooted hr (List.mem_cons_of_mem _ hmem), hups⟩
    have hhere : c ≠ here := (h.component c (List.mem_cons_self ..)).2.2
    rw [List.reverse_cons, List.foldl_append, ih hdone, List.foldl_cons, List.foldl_nil]
    by_cases hup : c = up
    · -- Behind steps up only, a step up cannot be taken back.
      have hrooted : ¬ rooted = true := fun hr => h.rooted hr (hup ▸ List.mem_cons_self ..)
      unfold Path.descend
      rw [if_neg hhere, if_pos hup]
      cases done with
      | nil => simp [hrooted, hup]
      | cons last rest => simp [hc last (List.mem_cons_self ..) hup, hup]
    · exact descend_down hhere hup rooted done

/-- Cleaning a name keeps its steps. -/
@[simp] theorem steps_clean (p : Text) : steps (clean p) = steps p := by
  rw [steps, isAbsolute_clean, components_clean]
  split
  · rename_i h
    rw [h.2]
    simp
  · have hnormal := (isNormal_steps p).foldl_reverse
    rw [List.reverse_reverse] at hnormal
    rw [hnormal, List.reverse_reverse]

/-! ## Places -/

/-- The place that a name leads to. -/
def place (cwd p : Text) : List Text := steps (absolute cwd p)

theorem join_pair {a : Text} (ha : a ≠ []) (b : Text) :
    join [a, b] = if b = [] then clean a else clean (a ++ slash :: b) := by
  have ha' : a.isEmpty = false := by simpa using ha
  unfold join
  by_cases hb : b = []
  · simp [hb, ha', Text.join]
  · have hb' : b.isEmpty = false := by simpa using hb
    simp [ha', hb', hb, Text.join]

theorem join_nil (b : Text) : join [[], b] = if b = [] then [] else clean b := by
  by_cases hb : b = []
  · simp [join, hb]
  · have hb' : b.isEmpty = false := by simpa using hb
    simp [join, hb, hb', Text.join]

theorem isAbsolute_append {a : Text} (ha : a ≠ []) (b : Text) :
    isAbsolute (a ++ b) = isAbsolute a := by
  obtain ⟨c, rest, rfl⟩ := List.exists_cons_of_ne_nil ha
  rfl

/-- A joined name takes the way of its first name and then that of its second. -/
theorem going_join {a : Text} (ha : a ≠ []) (b : Text) {place : List Text}
    (hplace : isAbsolute a = true → place = []) :
    going place (components (join [a, b])) =
      going (going place (components a)) (components b) := by
  rw [join_pair ha]
  split
  · rename_i hb
    have hnone : components b = [] := by rw [hb]; rfl
    rw [going_components_clean, going_steps hplace, hnone, going_nil]
  · have hplace' : isAbsolute (a ++ slash :: b) = true → place = [] := by
      rwa [isAbsolute_append ha]
    rw [going_components_clean, going_steps hplace', components_append, going_append]

theorem isAbsolute_join_pair {a : Text} (ha : a ≠ []) (b : Text) :
    isAbsolute (join [a, b]) = isAbsolute a := by
  rw [join_pair ha]
  split
  · rw [isAbsolute_clean]
  · rw [isAbsolute_clean, isAbsolute_append ha]

section

variable {cwd : Text} (hcwd : isAbsolute cwd = true)

include hcwd

theorem isAbsolute_absolute (p : Text) : isAbsolute (absolute cwd p) = true := by
  have hne : cwd ≠ [] := by
    rintro rfl
    cases hcwd
  unfold absolute
  split
  · rename_i hp
    rw [isAbsolute_clean, hp]
  · rw [isAbsolute_join_pair hne, hcwd]

/-- A name leads from the place it starts at through its components. -/
theorem place_eq (p : Text) : place cwd p = going (FileTree.origin cwd p) (components p) := by
  have hne : cwd ≠ [] := by
    rintro rfl
    cases hcwd
  -- The full name is clean, so its steps are to be traced back to the components of `p`.
  unfold place FileTree.origin
  rw [steps_eq_going (isAbsolute_absolute hcwd p), absolute]
  split
  · rw [going_components_clean, going_steps fun _ => rfl]
  · rw [going_join hne p fun _ => rfl, ← steps_eq_going hcwd]

theorem up_not_mem_place (p : Text) : up ∉ place cwd p :=
  up_not_mem_steps (isAbsolute_absolute hcwd p)

theorem up_not_mem_origin (p : Text) : up ∉ FileTree.origin cwd p := by
  unfold FileTree.origin
  split
  · exact List.not_mem_nil
  · exact up_not_mem_steps hcwd

/-- A name that is joined to a directory leads on from there. -/
theorem place_join {a : Text} (ha : a ≠ []) (b : Text) :
    place cwd (join [a, b]) = going (place cwd a) (components b) := by
  have horigin : FileTree.origin cwd (join [a, b]) = FileTree.origin cwd a := by
    rw [FileTree.origin, FileTree.origin, isAbsolute_join_pair ha]
  rw [place_eq hcwd, place_eq hcwd, horigin, going_join ha b]
  intro h
  rw [FileTree.origin, if_pos h]

end

/-! ## Ways up -/

theorem eq_of_append_slash {a b r r' : Text} (ha : slash ∉ a) (hb : slash ∉ b)
    (h : a ++ slash :: r = b ++ slash :: r') : a = b := by
  have hparts := congrArg (Text.splitOn slash) h
  rw [Text.splitOn_append, Text.splitOn_append, Text.splitOn_eq_singleton ha,
    Text.splitOn_eq_singleton hb] at hparts
  exact (List.cons.inj hparts).1

/-- A name of components leads up exactly if its first component does. -/
theorem escapes_join {c : Text} (hslash : slash ∉ c) (cs : List Text) :
    escapes (Text.join [slash] (c :: cs)) = true ↔ c = up := by
  have hup : slash ∉ up := by decide
  unfold escapes Text.startsWith
  rw [Bool.or_eq_true, decide_eq_true_eq, List.isPrefixOf_iff_prefix]
  cases cs with
  | nil =>
    constructor
    · rintro (h | h)
      · exact h
      · exact absurd (h.subset (by simp)) hslash
    · exact .inl
  | cons d cs =>
    rw [join_cons_cons]
    constructor
    · rintro (h | ⟨r, hr⟩)
      · exact absurd (h ▸ by simp) hup
      · rw [List.append_assoc, List.singleton_append] at hr
        exact (eq_of_append_slash hup hslash hr).symm
    · rintro rfl
      exact .inr ⟨Text.join [slash] (d :: cs), by simp⟩

theorem dropCommon_fst_eq_nil {as bs : List Text} : (dropCommon as bs).1 = [] ↔ as <+: bs := by
  induction as generalizing bs with
  | nil => simp [dropCommon]
  | cons a as ih =>
    cases bs with
    | nil => simp [dropCommon]
    | cons b bs =>
      rw [dropCommon, List.cons_prefix_cons]
      split
      · rename_i h
        rw [ih]
        simp [h]
      · rename_i h
        simp [h]

theorem dropCommon_suffix (as bs : List Text) :
    (dropCommon as bs).1 <:+ as ∧ (dropCommon as bs).2 <:+ bs := by
  induction as generalizing bs with
  | nil => simp [dropCommon]
  | cons a as ih =>
    cases bs with
    | nil => simp [dropCommon]
    | cons b bs =>
      rw [dropCommon]
      split
      · exact ⟨(ih bs).1.trans (List.suffix_cons ..), (ih bs).2.trans (List.suffix_cons ..)⟩
      · exact ⟨List.suffix_refl _, List.suffix_refl _⟩

end Path

/-- The outputs are found to go where the schema files are exactly if the one directory is the other
or leads into it. -/
theorem Config.nests_eq_true {cwd : Text} (hcwd : Path.isAbsolute cwd = true)
    {schemaDir outDir : Text} : Config.nests cwd schemaDir outDir = true ↔
      Path.place cwd schemaDir <+: Path.place cwd outDir := by
  unfold Config.nests Path.relative?
  rw [Path.isAbsolute_absolute hcwd, Path.isAbsolute_absolute hcwd, ← Path.place, ← Path.place,
    ← Path.dropCommon_fst_eq_nil]
  obtain ⟨hback, hforth⟩ :=
    Path.dropCommon_suffix (Path.place cwd schemaDir) (Path.place cwd outDir)
  rcases hdrop : Path.dropCommon (Path.place cwd schemaDir) (Path.place cwd outDir) with
    ⟨_ | ⟨b, back⟩, forth⟩
  · cases forth with
    | nil =>
      simp only [ne_eq, not_true_eq_false, if_false]
      decide
    | cons f forth =>
      -- The way leads down, and its first component is none that goes up.
      rw [hdrop] at hforth
      have hf : f ∈ Path.place cwd outDir := hforth.subset (List.mem_cons_self ..)
      have hup : f ≠ Path.up := fun h => Path.up_not_mem_place hcwd outDir (h ▸ hf)
      have hescapes := Path.escapes_join (Path.mem_steps hf).2.1 forth
      simpa [hup] using hescapes
  · -- The way starts with a component that goes up.
    rw [hdrop] at hback
    have hb : b ∈ Path.place cwd schemaDir := hback.subset (List.mem_cons_self ..)
    have hup : b ≠ Path.up := fun h => Path.up_not_mem_place hcwd schemaDir (h ▸ hb)
    have hescapes := (Path.escapes_join (c := Path.up) (by decide)
      (back.map (fun _ => Path.up) ++ forth)).2 rfl
    simpa [hup] using hescapes

/-- The components of a clean full name are the place that it leads to. -/
theorem Path.components_clean_absolute {cwd : Text} (hcwd : Path.isAbsolute cwd = true) (p : Text) :
    Path.components (Path.clean (Path.absolute cwd p)) = Path.place cwd p := by
  rw [Path.components_clean, Path.isAbsolute_absolute hcwd, if_neg (by simp)]
  rfl

/-- The check of the output directory goes by components: it fails, and a configuration is refused
for it, exactly if the components of the clean full name of the output directory begin with all
those of the schema directory. -/
theorem Config.nests_iff_components {cwd : Text} (hcwd : Path.isAbsolute cwd = true)
    (schemaDir outDir : Text) :
    (Config.nests cwd schemaDir outDir = true ↔
      Path.components (Path.clean (Path.absolute cwd schemaDir)) <+:
        Path.components (Path.clean (Path.absolute cwd outDir))) ∧
    ∀ c : Config, c.schemaDir = schemaDir → c.outDir = outDir → schemaDir ≠ [] → outDir ≠ [] →
      (c.fault? cwd = some (.nested outDir schemaDir) ↔
        Path.components (Path.clean (Path.absolute cwd schemaDir)) <+:
          Path.components (Path.clean (Path.absolute cwd outDir))) := by
  simp only [Path.components_clean_absolute hcwd]
  refine ⟨nests_eq_true hcwd, ?_⟩
  rintro c rfl rfl hschema hout
  rw [← nests_eq_true hcwd]
  unfold fault?
  rw [if_neg (by simpa using hschema), if_neg (by simpa using hout)]
  constructor
  · intro h
    split at h
    · assumption
    -- Whatever else is wrong with the configuration, it is not this.
    split at h
    · cases h
    split at h
    · cases h
    split at h <;> cases h
  · intro hnests
    rw [if_pos hnests]

/-- Everything is inside the root, a component that merely begins with two dots goes down, and one
that merely begins with the same letters is another one. -/
theorem Config.nests_dotted : Path.isAbsolute (lit "/p") = true ∧
    Config.nests (lit "/p") (lit "//") (lit "..") = true ∧
    Config.nests (lit "/p") (lit "schema/..") (lit "./..schema//x") = true ∧
    Config.nests (lit "/p") (lit "schema") (lit "/p/dist/../schema/") = true ∧
    ¬ Config.nests (lit "/p") (lit "schema") (lit "schema-dist") = true ∧
    ¬ Config.nests (lit "/p") (lit "schema") (lit "..schema") = true := by
  have hcwd : Path.isAbsolute (lit "/p") = true := by decide
  exact ⟨hcwd, (nests_iff_components hcwd _ _).1.2 (by decide +kernel),
    (nests_iff_components hcwd _ _).1.2 (by decide +kernel),
    (nests_iff_components hcwd _ _).1.2 (by decide +kernel),
    mt (nests_iff_components hcwd _ _).1.1 (by decide +kernel),
    mt (nests_iff_components hcwd _ _).1.1 (by decide +kernel)⟩

end CubeSchema
