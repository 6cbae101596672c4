import CubeSchema.Proofs.Output.Targets
import Mathlib.Data.List.Induction
import Mathlib.Data.List.TakeWhile

/-!
# Which targets lie in the output directory

Read as a name, a target lies in the output directory if it is the clean name of the directory with
further components behind it, none of which goes up. Whatever the directory and the name of the
output are, a target does so exactly if the name that is kept of the output leads down, or leads up
and comes back the same way. A name that is kept as it is given need not be clean, and the last
component that is kept of another may be a special one, so there are names whose targets lie
elsewhere; a clean name whose last component is that of a file is none of them.
-/

namespace CubeSchema

open CubeSchema.Path

namespace Path

/-! ## Ways up and back -/

/-- Going up as often as there are names takes all of them back. -/
theorem foldl_descend_back {back : List Text} (h : ∀ c ∈ back, IsName c) (rooted : Bool)
    (done : List Text) :
    (List.replicate back.length up).foldl (descend rooted) (back.reverse ++ done) = done := by
  induction back using List.reverseRecOn with
  | nil => rfl
  | append_singleton back c ih =>
    obtain ⟨-, -, -, hc⟩ := h c (List.mem_append_right _ (List.mem_singleton_self c))
    rw [List.length_append, List.length_singleton, List.replicate_succ, List.reverse_append,
      List.reverse_singleton, List.cons_append, List.nil_append, List.foldl_cons,
      List.cons_append, descend_up_cons hc]
    exact ih fun d hd => h d (List.mem_append_left _ hd)

/-- From the root there is nothing to go up to. -/
theorem foldl_descend_root (k : Nat) : (List.replicate k up).foldl (descend true) [] = [] := by
  induction k with
  | zero => rfl
  | succ k ih => rw [List.replicate_succ, List.foldl_cons]; exact ih

/-- Where nothing can be taken back, ways up are kept. -/
theorem foldl_descend_ups (j k : Nat) :
    (List.replicate k up).foldl (descend false) (List.replicate j up) =
      List.replicate (j + k) up := by
  induction k generalizing j with
  | zero => rfl
  | succ k ih =>
    have hstep : descend false (List.replicate j up) up = List.replicate (j + 1) up := by
      cases j with
      | zero => rfl
      | succ j => rfl
    rw [List.replicate_succ, List.foldl_cons, hstep, ih]
    congr 1
    omega

/-- The steps of a name: first those that go up, and there are none from the root, then names. -/
theorem exists_steps_eq (p : Text) : ∃ k names, steps p = List.replicate k up ++ names ∧
    (∀ c ∈ names, IsName c) ∧ (isAbsolute p = true → k = 0) := by
  have hups := List.takeWhile_append_dropWhile (p := fun c => c = up) (l := steps p)
  refine ⟨((steps p).takeWhile fun c => c = up).length, (steps p).dropWhile fun c => c = up,
    ?_, fun c hc => ?_, fun h => ?_⟩
  · have hall : (steps p).takeWhile (fun c => c = up) =
        List.replicate ((steps p).takeWhile fun c => c = up).length up :=
      List.eq_replicate_iff.2 ⟨rfl, fun c hc => by simpa using List.mem_takeWhile_imp hc⟩
    rw [← hall]
    exact hups.symm
  · have hmem : c ∈ steps p := (List.dropWhile_suffix fun c => decide (c = up)).subset hc
    obtain ⟨hne, hslash, hhere⟩ := mem_steps hmem
    refine ⟨hne, hslash, hhere, ?_⟩
    -- The first of the rest does not go up, so nothing behind it does.
    cases hrest : (steps p).dropWhile fun c => c = up with
    | nil =>
      rw [hrest] at hc
      cases hc
    | cons d rest =>
      have hd : d ≠ up := by
        have hhead := List.head?_dropWhile_not (fun c => c = up) (steps p)
        rw [hrest] at hhead
        simpa using hhead
      have hpairs := (steps_pairwise p).sublist
        (List.dropWhile_suffix fun c => decide (c = up)).sublist
      rw [hrest] at hc hpairs
      rcases List.mem_cons.1 hc with rfl | hc
      · exact hd
      · exact fun hup => hd ((List.pairwise_cons.1 hpairs).1 c hc hup)
  · cases hall : (steps p).takeWhile fun c => c = up with
    | nil => rfl
    | cons c cs =>
      have hc : c ∈ (steps p).takeWhile fun c => c = up := hall ▸ List.mem_cons_self ..
      have hup : c = up := by simpa using List.mem_takeWhile_imp hc
      exact absurd (hup ▸ (List.takeWhile_prefix _).subset hc) (up_not_mem_steps h)

/-- The steps of a joined name are those of its second part, taken from where the first one leads.
-/
theorem steps_join_pair (a : Text) {b : Text} (hb : isAbsolute b = false) :
    steps (join [a, b]) = ((steps b).foldl (descend (isAbsolute a)) (steps a).reverse).reverse := by
  have hsteps : ∀ p, (steps p).reverse = (components p).foldl (descend (isAbsolute p)) [] :=
    fun p => List.reverse_reverse _
  by_cases ha : a = []
  · subst ha
    have hnormal := (isNormal_steps b).foldl_reverse
    rw [hb, List.reverse_reverse] at hnormal
    show steps (join [[], b]) = ((steps b).foldl (descend false) []).reverse
    rw [join_nil, hnormal, List.reverse_reverse]
    split
    · rename_i hempty
      rw [hempty]
    · rw [steps_clean]
  · rw [join_pair ha]
    split
    · rename_i hempty
      rw [hempty, steps_clean]
      exact (List.reverse_reverse _).symm
    · have hstart : isAbsolute b = true → isAbsolute a = true ∧ (steps a).reverse = [] := by
        simp [hb]
      have hfold := foldl_descend_foldl hstart (isNormal_nil _) fun c => mem_components (p := b)
      rw [steps_clean, steps, isAbsolute_append ha, components_append, List.foldl_append,
        ← hsteps a]
      exact congrArg List.reverse hfold.symm

/-! ## Names in a directory -/

theorem IsNormal.append_names {rooted : Bool} {cs below : List Text}
    (h : IsNormal rooted cs.reverse) (hbelow : ∀ c ∈ below, IsName c) :
    IsNormal rooted (cs ++ below).reverse := by
  rw [List.reverse_append, ← foldl_descend_names hbelow rooted]
  exact h.foldl_descend fun c hc => ⟨(hbelow c hc).1, (hbelow c hc).2.1⟩

/-- Components in order are the steps of the name that they make up. -/
theorem steps_assemble {rooted : Bool} {cs : List Text} (hne : cs ≠ [])
    (h : IsNormal rooted cs.reverse) : steps (assemble rooted cs) = cs := by
  have hcs : ∀ c ∈ cs, c ≠ [] ∧ slash ∉ c := fun c hc =>
    (h.component c (List.mem_reverse.2 hc)).imp_right And.left
  have hcomponents : components (assemble rooted cs) = cs ∧
      isAbsolute (assemble rooted cs) = rooted := by
    unfold assemble
    cases rooted with
    | true => exact ⟨by rw [if_pos rfl, components_slash, components_join hcs], rfl⟩
    | false =>
      obtain ⟨c, rest, rfl⟩ := List.exists_cons_of_ne_nil hne
      obtain ⟨hc, hslash⟩ := hcs c (List.mem_cons_self ..)
      exact ⟨components_join hcs, isAbsolute_join hc hslash rest⟩
  have hfold := h.foldl_reverse
  rw [List.reverse_reverse] at hfold
  rw [steps, hcomponents.1, hcomponents.2, hfold, List.reverse_reverse]

/-- A name leads strictly into a directory: it is the clean name of the directory with components
behind it that lead down. -/
def LiesIn (dir p : Text) : Prop :=
  ∃ below, below ≠ [] ∧ (∀ c ∈ below, IsName c) ∧ p = assemble (isAbsolute dir) (steps dir ++ below)

/-- A name that lies in a directory is clean, and its steps start with those of the directory. -/
theorem liesIn_iff {dir p : Text} : LiesIn dir p ↔
    (∃ below, below ≠ [] ∧ (∀ c ∈ below, IsName c) ∧ steps p = steps dir ++ below) ∧
      p = assemble (isAbsolute dir) (steps p) := by
  constructor
  · rintro ⟨below, hne, hnames, rfl⟩
    have hsteps := steps_assemble (by simp [hne]) ((isNormal_steps dir).append_names hnames)
    exact ⟨⟨below, hne, hnames, hsteps⟩, by rw [hsteps]⟩
  · rintro ⟨⟨below, hne, hnames, hsteps⟩, hp⟩
    exact ⟨below, hne, hnames, hsteps ▸ hp⟩

instance (dir p : Text) : Decidable (LiesIn dir p) :=
  decidable_of_iff ((steps dir <+: steps p ∧ (steps p).drop (steps dir).length ≠ [] ∧
      ∀ c ∈ (steps p).drop (steps dir).length, IsName c) ∧
      p = assemble (isAbsolute dir) (steps p)) <| by
    rw [liesIn_iff]
    refine and_congr_left fun _ => ⟨?_, ?_⟩
    · rintro ⟨hstart, hne, hnames⟩
      exact ⟨_, hne, hnames, (List.prefix_iff_eq_append.1 hstart).symm⟩
    · rintro ⟨below, hne, hnames, hsteps⟩
      simpa [hsteps, hne] using hnames

/-- A joined name that leads anywhere is clean. -/
theorem join_pair_eq_assemble {a b : Text} (hb : isAbsolute b = false)
    (h : steps (join [a, b]) ≠ []) :
    join [a, b] = assemble (isAbsolute a) (steps (join [a, b])) := by
  by_cases ha : a = []
  · subst ha
    rw [join_nil] at h ⊢
    split at h
    · exact absurd rfl h
    · rename_i hempty
      rw [if_neg hempty, steps_clean, clean, hb]
      rfl
  · rw [join_pair ha]
    split
    · rw [steps_clean, clean]
    · rw [steps_clean, clean, isAbsolute_append ha]

/-- A joined name lies in its first part as far as its steps do. -/
theorem liesIn_join_pair {a b : Text} (hb : isAbsolute b = false) : LiesIn a (join [a, b]) ↔
    ∃ below, below ≠ [] ∧ (∀ c ∈ below, IsName c) ∧ steps (join [a, b]) = steps a ++ below := by
  constructor
  · exact fun h => (liesIn_iff.1 h).1
  · rintro ⟨below, hne, hnames, hsteps⟩
    refine liesIn_iff.2 ⟨⟨below, hne, hnames, hsteps⟩, ?_⟩
    exact join_pair_eq_assemble hb (by simp [hsteps, hne])

/-- The root behind a name leads nowhere else. -/
theorem steps_join_slash (a : Text) : steps (join [a, [slash]]) = steps a := by
  by_cases ha : a = []
  · subst ha
    decide
  · rw [join_pair ha, if_neg (by decide), steps_clean, steps, isAbsolute_append ha,
      components_append, show components [slash] = [] by decide, List.append_nil]
    rfl

/-- What `k` steps up take back of the way to a directory: its last `k` names, or all of it if it
starts at the root and is no longer than that. -/
def TakenBack (dir : Text) (k : Nat) (back : List Text) : Prop :=
  (∀ c ∈ back, IsName c) ∧ back <:+ steps dir ∧
    (back.length = k ∨ isAbsolute dir = true ∧ back = steps dir ∧ back.length ≤ k)

/-- A name that goes up from a directory, comes back the same way and goes on leads into the
directory. -/
theorem TakenBack.foldl_descend {dir : Text} {k : Nat} {back below : List Text}
    (h : TakenBack dir k back) (hbelow : ∀ c ∈ below, IsName c) :
    (List.replicate k up ++ back ++ below).foldl (descend (isAbsolute dir)) (steps dir).reverse =
      (steps dir ++ below).reverse := by
  obtain ⟨hnames, ⟨front, hfront⟩, hlength⟩ := h
  have hups : (List.replicate k up).foldl (descend (isAbsolute dir)) (steps dir).reverse =
      front.reverse := by
    rw [← hfront, List.reverse_append]
    rcases hlength with rfl | ⟨habsolute, hall, hle⟩
    · exact foldl_descend_back hnames _ _
    · -- The rest of the steps up stays at the root.
      obtain ⟨m, rfl⟩ := Nat.exists_eq_add_of_le hle
      obtain rfl : front = [] := by simpa [hall] using hfront
      rw [← List.replicate_append_replicate, List.foldl_append, foldl_descend_back hnames,
        habsolute]
      exact foldl_descend_root m
  rw [List.append_assoc, List.foldl_append, hups, List.foldl_append, foldl_descend_names hnames,
    foldl_descend_names hbelow, ← hfront]
  simp

/-- Only so a name that goes up from a directory leads into it. -/
theorem exists_takenBack {dir : Text} {k : Nat} {names below : List Text}
    (hnames : ∀ c ∈ names, IsName c) (hbelow : ∀ c ∈ below, IsName c)
    (h : (List.replicate k up ++ names).foldl (descend (isAbsolute dir)) (steps dir).reverse =
      (steps dir ++ below).reverse) : ∃ back, TakenBack dir k back ∧ names = back ++ below := by
  obtain ⟨j, ns, hdir, hns, habsolute⟩ := exists_steps_eq dir
  rw [List.foldl_append, foldl_descend_names hnames] at h
  rcases Nat.le_total k ns.length with hk | hk
  · -- The last `k` names of the directory are taken back.
    obtain ⟨front, back, rfl, rfl⟩ : ∃ front back, ns = front ++ back ∧ back.length = k :=
      ⟨ns.take (ns.length - k), ns.drop (ns.length - k), (List.take_append_drop ..).symm,
        by rw [List.length_drop]; omega⟩
    have hback : ∀ c ∈ back, IsName c := fun c hc => hns c (List.mem_append_right _ hc)
    rw [hdir, ← List.append_assoc, List.reverse_append, foldl_descend_back hback] at h
    have hsuffix : back <:+ steps dir :=
      ⟨List.replicate j up ++ front, by rw [hdir, List.append_assoc]⟩
    refine ⟨back, ⟨hback, hsuffix, .inl rfl⟩, List.reverse_inj.1 ?_⟩
    have hall : names.reverse ++ (List.replicate j up ++ front).reverse =
        (back ++ below).reverse ++ (List.replicate j up ++ front).reverse := by simpa using h
    exact List.append_cancel_right hall
  · obtain ⟨m, rfl⟩ := Nat.exists_eq_add_of_le hk
    rw [hdir, List.reverse_append, ← List.replicate_append_replicate, List.foldl_append,
      foldl_descend_back hns, List.reverse_replicate] at h
    cases hrooted : isAbsolute dir with
    | true =>
      obtain rfl := habsolute hrooted
      rw [hrooted] at h
      refine ⟨ns, ⟨hns, by simp [hdir], .inr ⟨hrooted, by simp [hdir], hk⟩⟩, ?_⟩
      have h' : names.reverse = (ns ++ below).reverse := by simpa [foldl_descend_root] using h
      exact List.reverse_inj.1 h'
    | false =>
      -- Beyond its names more steps go up than the directory has.
      rw [hrooted, foldl_descend_ups] at h
      have hcount := congrArg (List.count up) h
      have hnone : ∀ {cs : List Text}, (∀ c ∈ cs, IsName c) → cs.count up = 0 := fun hcs =>
        List.count_eq_zero.2 fun hmem => (hcs up hmem).2.2.2 rfl
      have hm : m = 0 := by simpa [hnone hnames, hnone hbelow, hnone hns] using hcount
      subst hm
      refine ⟨ns, ⟨hns, ⟨List.replicate j up, hdir.symm⟩, .inl rfl⟩, List.reverse_inj.1 ?_⟩
      have hall : names.reverse ++ List.replicate j up =
          (ns ++ below).reverse ++ List.replicate j up := by simpa using h
      exact List.append_cancel_right hall

end Path

/-- The target of an output lies in the output directory exactly if the name of the output leads
down, or goes up first and comes back the same way. -/
theorem Path.liesIn_outputTarget (outDir p : Text) : LiesIn outDir (outputTarget outDir p) ↔
    ∃ k back below, TakenBack outDir k back ∧ below ≠ [] ∧ (∀ c ∈ below, IsName c) ∧
      steps (outputPath p) = List.replicate k up ++ back ++ below := by
  cases hp : isAbsolute (outputPath p) with
  | true =>
    -- The root is left of the name, which adds nothing to the directory.
    rw [outputTarget, outputPath_eq_slash hp]
    constructor
    · intro h
      obtain ⟨⟨below, hne, -, hsteps⟩, -⟩ := liesIn_iff.1 h
      rw [steps_join_slash] at hsteps
      exact absurd (List.self_eq_append_right.1 hsteps) hne
    · rintro ⟨k, back, below, -, hne, -, hsteps⟩
      rw [show steps [slash] = [] by decide, eq_comm, List.append_eq_nil_iff] at hsteps
      exact absurd hsteps.2 hne
  | false =>
    rw [outputTarget, liesIn_join_pair hp, steps_join_pair outDir hp]
    constructor
    · rintro ⟨below, hne, hnames, hfold⟩
      obtain ⟨k, names, hsteps, hdown, -⟩ := exists_steps_eq (outputPath p)
      rw [hsteps, List.reverse_eq_iff] at hfold
      obtain ⟨back, hback, rfl⟩ := exists_takenBack hdown hnames hfold
      exact ⟨k, back, below, hback, hne, hnames, by rw [hsteps, List.append_assoc]⟩
    · rintro ⟨k, back, below, hback, hne, hnames, hsteps⟩
      exact ⟨below, hne, hnames, by
        rw [hsteps, hback.foldl_descend hnames, List.reverse_reverse]⟩

/-- A name of one component has one step. -/
theorem Path.steps_of_isName {c : Text} (h : IsName c) : steps c = [c] := by
  rw [steps, components_singleton h.1 h.2.1, List.foldl_cons, descend_down h.2.2.1 h.2.2.2]
  rfl

/-- The last component of a name, if it has any. -/
theorem Path.base_eq_of_getLast? {p c : Text} (h : (components p).getLast? = some c) :
    base p = c := by
  unfold base
  split
  · rename_i hempty
    rw [List.isEmpty_iff.1 hempty] at h
    cases h
  · rw [h]

/-- The output of a clean name keeps the last step. -/
theorem Path.steps_outputPath_clean_ne_nil {p c : Text} (h : (steps p).getLast? = some c)
    (hc : c ≠ up) : steps (outputPath (clean p)) ≠ [] := by
  have hmem : c ∈ steps p := List.mem_of_getLast? h
  have hne : steps p ≠ [] := List.ne_nil_of_mem hmem
  unfold outputPath
  split
  · obtain ⟨hc', hslash, hhere⟩ := mem_steps hmem
    have hlast : (components (clean p)).getLast? = some c := by
      rwa [components_clean, if_neg fun hempty => hne hempty.2]
    rw [base_eq_of_getLast? hlast, steps_of_isName ⟨hc', hslash, hhere, hc⟩]
    exact List.cons_ne_nil c []
  · rwa [steps_clean]

/-- The target of an output lies in the output directory exactly if the name of the output leads
down, or goes up first and comes back the same way; and for a clean name whose last component is
one it does. -/
theorem lies_in_iff (outDir p : Text) :
    (LiesIn outDir (outputTarget outDir p) ↔
      ∃ k back below, TakenBack outDir k back ∧ below ≠ [] ∧ (∀ c ∈ below, IsName c) ∧
        steps (outputPath p) = List.replicate k up ++ back ++ below) ∧
    ((∃ c, (steps p).getLast? = some c ∧ c ≠ up) →
      LiesIn outDir (outputTarget outDir (clean p))) := by
  refine ⟨liesIn_outputTarget outDir p, ?_⟩
  rintro ⟨c, hlast, hc⟩
  have hdown : up ∉ steps (outputPath (clean p)) :=
    up_not_mem_steps_outputPath_clean (by simpa [hlast] using hc)
  have hback : TakenBack outDir 0 [] := ⟨by simp, List.nil_suffix, .inl rfl⟩
  refine (liesIn_outputTarget outDir (clean p)).2
    ⟨0, [], steps (outputPath (clean p)), hback, steps_outputPath_clean_ne_nil hlast hc, ?_, rfl⟩
  intro d hd
  obtain ⟨hne, hslash, hhere⟩ := mem_steps hd
  exact ⟨hne, hslash, hhere, fun h => hdown (h ▸ hd)⟩

/-- The output of a file beside the working directory lies in the output directory. -/
theorem orders_lies_in_out :
    (∃ c, (steps (lit "../orders.js")).getLast? = some c ∧ c ≠ up) ∧
    LiesIn (lit "out") (outputTarget (lit "out") (clean (lit "../orders.js"))) := by
  have hlast : ∃ c, (steps (lit "../orders.js")).getLast? = some c ∧ c ≠ up :=
    ⟨lit "orders.js", by decide⟩
  exact ⟨hlast, (lies_in_iff (lit "out") (lit "../orders.js")).2 hlast⟩

/-- What a file is called that is loaded as if it were a directory makes its output the output
directory itself. A name may also lead above that, or beside it. -/
theorem not_always_in_out :
    ¬ LiesIn (lit "out") (outputTarget (lit "out") (lit ".")) ∧
    ¬ LiesIn (lit "out") (outputTarget (lit "out") (lit "..")) ∧
    ¬ LiesIn (lit "out") (outputTarget (lit "out") (lit "a/../../b")) := by
  decide +kernel

end CubeSchema
