import CubeSchema.Proofs.Tree.Shape
import CubeSchema.Tree.Build

/-!
# Building trees without errors

`ParseTree.build` keeps the first error beside the tree that it makes. The lemmas here are for the
case that there is none: each step may then be taken by itself, and lists of matches are built part
by part.
-/

namespace CubeSchema

namespace Checked

/-- A step behind one without an error. -/
theorem bind_ok {α β : Type} (a : α) (f : α → Checked β) : ((⟨a, none⟩ : Checked α) >>= f) = f a :=
  rfl

/-- There is no error in two steps exactly when there is none in either. -/
theorem bind_error {α β : Type} {x : Checked α} {f : α → Checked β} :
    (x >>= f).error = none ↔ x.error = none ∧ (f x.val).error = none := by
  obtain ⟨a, e⟩ := x
  cases e with
  | none => exact ⟨fun h => ⟨rfl, h⟩, fun h => h.2⟩
  | some e => exact ⟨fun h => by simp [Bind.bind] at h, fun h => by simp at h⟩

theorem eq_ok {α : Type} {x : Checked α} (h : x.error = none) : x = ⟨x.val, none⟩ := by
  obtain ⟨a, e⟩ := x
  obtain rfl : e = none := h
  rfl

/-- Two steps give a value without an error exactly when each does. -/
theorem bind_eq_ok {α β : Type} {x : Checked α} {f : α → Checked β} {b : β} :
    (x >>= f) = ⟨b, none⟩ ↔ ∃ a, x = ⟨a, none⟩ ∧ f a = ⟨b, none⟩ := by
  constructor
  · intro h
    have herror : (x >>= f).error = none := by rw [h]
    have hx := eq_ok (bind_error.1 herror).1
    exact ⟨x.val, hx, by rw [hx, bind_ok] at h; exact h⟩
  · rintro ⟨a, rfl, hb⟩
    rw [bind_ok, hb]

theorem pure_eq_ok {α : Type} {a b : α} : (pure a : Checked α) = ⟨b, none⟩ ↔ a = b :=
  ⟨fun h => congrArg Checked.val h, fun h => by rw [h]; rfl⟩

end Checked

namespace ParseTree

/-- Some matches are built into a list of trees, up to places. -/
def Builds (trees : List ParseTree) (ns : List Node) : Prop :=
  ∃ ms, buildAll trees = ⟨ms, none⟩ ∧ ms.map Node.unplaced = ns.map Node.unplaced

/-- A match is built into a tree, up to places. -/
def BuildsTo (tree : ParseTree) (n : Node) : Prop :=
  ∃ m, tree.build = ⟨m, none⟩ ∧ m.unplaced = n.unplaced

theorem Builds.nil : Builds [] [] := ⟨[], rfl, rfl⟩

theorem Builds.leaf {trees : List ParseTree} {ns : List Node} (token : Token)
    (h : Builds trees ns) : Builds (.leaf token :: trees) ns := by
  obtain ⟨ms, hms, heq⟩ := h
  exact ⟨ms, by rw [buildAll, hms], heq⟩

theorem Builds.branch {rule : Rule} {pos : Position} {kids trees : List ParseTree} {n : Node}
    {ns : List Node} (hn : BuildsTo (.branch rule pos kids) n) (h : Builds trees ns) :
    Builds (.branch rule pos kids :: trees) (n :: ns) := by
  obtain ⟨m, hm, hn⟩ := hn
  obtain ⟨ms, hms, heq⟩ := h
  refine ⟨m :: ms, ?_, by rw [List.map_cons, List.map_cons, hn, heq]⟩
  rw [buildAll, hm, hms]
  rfl

theorem buildAll_branch_eq_ok {rule : Rule} {pos : Position} {kids trees : List ParseTree}
    {ns : List Node} (h : buildAll (.branch rule pos kids :: trees) = ⟨ns, none⟩) :
    ∃ x xs, build (.branch rule pos kids) = ⟨x, none⟩ ∧ buildAll trees = ⟨xs, none⟩ ∧
      ns = x :: xs := by
  rw [buildAll, Checked.bind_eq_ok] at h
  obtain ⟨x, hx, h⟩ := h
  rw [Checked.bind_eq_ok] at h
  obtain ⟨xs, hxs, h⟩ := h
  exact ⟨x, xs, hx, hxs, (Checked.pure_eq_ok.1 h).symm⟩

/-- Lists of matches are built one after the other. -/
theorem buildAll_append {as bs : List ParseTree} {xs ys : List Node}
    (ha : buildAll as = ⟨xs, none⟩) (hb : buildAll bs = ⟨ys, none⟩) :
    buildAll (as ++ bs) = ⟨xs ++ ys, none⟩ := by
  induction as generalizing xs with
  | nil =>
    obtain rfl : [] = xs := congrArg Checked.val ha
    exact hb
  | cons a as ih =>
    cases a with
    | leaf token =>
      rw [buildAll] at ha
      rw [List.cons_append, buildAll, ih ha]
    | branch rule pos kids =>
      obtain ⟨x, zs, hx, hzs, rfl⟩ := buildAll_branch_eq_ok ha
      rw [List.cons_append, buildAll, hx, ih hzs]
      rfl

theorem Builds.append {as bs : List ParseTree} {ms ns : List Node} (ha : Builds as ms)
    (hb : Builds bs ns) : Builds (as ++ bs) (ms ++ ns) := by
  obtain ⟨xs, hxs, hms⟩ := ha
  obtain ⟨ys, hys, hns⟩ := hb
  exact ⟨xs ++ ys, buildAll_append hxs hys, by rw [List.map_append, List.map_append, hms, hns]⟩

/-- A list of matches that is built without an error is built part by part. -/
theorem buildAll_append_eq_ok {as bs : List ParseTree} {ns : List Node}
    (h : buildAll (as ++ bs) = ⟨ns, none⟩) :
    ∃ xs ys, buildAll as = ⟨xs, none⟩ ∧ buildAll bs = ⟨ys, none⟩ ∧ ns = xs ++ ys := by
  induction as generalizing ns with
  | nil => exact ⟨[], ns, rfl, h, rfl⟩
  | cons a as ih =>
    cases a with
    | leaf token =>
      rw [List.cons_append, buildAll] at h
      obtain ⟨xs, ys, hxs, hys, rfl⟩ := ih h
      exact ⟨xs, ys, by rw [buildAll, hxs], hys, rfl⟩
    | branch rule pos kids =>
      obtain ⟨x, zs, hx, hzs, rfl⟩ := buildAll_branch_eq_ok h
      obtain ⟨xs, ys, hxs, hys, rfl⟩ := ih hzs
      exact ⟨x :: xs, ys, by rw [buildAll, hx, hxs]; rfl, hys, rfl⟩

/-- What one call or member access makes of `x`. -/
def suffixStep (x : Node) : ParseTree → Checked Node
  | .branch .suffix _ [.leaf _, .branch .optionalSuffix _ kids] => buildSuffix true x kids
  | .branch .suffix _ kids => buildSuffix false x kids
  | _ => pure x

/-- Suffixes are applied one after the other. -/
theorem buildSuffixes_cons (x : Node) (tree : ParseTree) (trees : List ParseTree) :
    buildSuffixes x (tree :: trees) = suffixStep x tree >>= fun y => buildSuffixes y trees := by
  unfold suffixStep
  split
  · rw [buildSuffixes]
  · rename_i hne
    rw [buildSuffixes]
    exact hne
  · rename_i hopt hsuf
    rw [buildSuffixes]
    · rfl
    · exact hopt
    · exact hsuf

/-- Suffixes are applied part by part. -/
theorem buildSuffixes_append {x y : Node} {as : List ParseTree}
    (h : buildSuffixes x as = ⟨y, none⟩) (bs : List ParseTree) :
    buildSuffixes x (as ++ bs) = buildSuffixes y bs := by
  induction as generalizing x with
  | nil =>
    obtain rfl : x = y := congrArg Checked.val h
    rfl
  | cons a as ih =>
    rw [buildSuffixes_cons, Checked.bind_eq_ok] at h
    obtain ⟨z, hz, h⟩ := h
    rw [List.cons_append, buildSuffixes_cons, hz, Checked.bind_ok]
    exact ih h

/-- Suffixes that are applied without an error are applied part by part. -/
theorem buildSuffixes_append_eq_ok {x n : Node} {as bs : List ParseTree}
    (h : buildSuffixes x (as ++ bs) = ⟨n, none⟩) :
    ∃ y, buildSuffixes x as = ⟨y, none⟩ ∧ buildSuffixes y bs = ⟨n, none⟩ := by
  induction as generalizing x with
  | nil => exact ⟨x, rfl, h⟩
  | cons a as ih =>
    rw [List.cons_append, buildSuffixes_cons, Checked.bind_eq_ok] at h
    obtain ⟨z, hz, h⟩ := h
    obtain ⟨y, hy, hn⟩ := ih h
    exact ⟨y, by rw [buildSuffixes_cons, hz, Checked.bind_ok, hy], hn⟩

end ParseTree

end CubeSchema
