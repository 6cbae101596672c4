import CubeSchema.Proofs.Grammar.Tails
import CubeSchema.Proofs.Tree.Building
import CubeSchema.Proofs.Tree.Chain
import Mathlib.Tactic.CasesM

/-!
# Building without places

The places of a match go into the tree that is built of it and into the error, and nowhere else.
`build_bare` says so: a match without its places is built into the tree without its places, with the
same error. Two matches that differ in places only are therefore built into trees that differ in
places only.
-/

namespace CubeSchema

open Node

/-- A value and its error without the places. -/
def Checked.erase {α β : Type} (g : α → β) (x : Checked α) : Checked β :=
  ⟨g x.val, x.error.map fun e => { e with pos := .unknown }⟩

/-- Steps may be erased one by one. -/
theorem Checked.bind_erase {α β γ δ : Type} {x : Checked α} {f : α → Checked β} {x' : Checked γ}
    {f' : γ → Checked δ} {g : α → γ} {h : β → δ} (hx : x' = x.erase g)
    (hf : ∀ a, f' (g a) = (f a).erase h) : x' >>= f' = (x >>= f).erase h := by
  subst hx
  obtain ⟨a, e⟩ := x
  cases e with
  | none =>
    show f' (g a) = _
    rw [hf]
    rfl
  | some e =>
    show (⟨(f' (g a)).val, some _⟩ : Checked δ) = ⟨h (f a).val, some _⟩
    rw [hf]
    rfl

namespace ParseTree

/-! ## Leaves -/

theorem stringNode_bare (pos : Position) (raw : Text) :
    stringNode .unknown raw = (stringNode pos raw).erase unplaced := by
  unfold stringNode
  split <;> rfl

theorem quasiOf_bare (pos : Position) (raw : Text) :
    quasiOf .unknown raw = (quasiOf pos raw).erase id := by
  unfold quasiOf
  split <;> rfl

theorem keyNode_bare (pos : Position) (token : Token) :
    keyNode .unknown token.unplaced = (keyNode pos token).erase unplaced := by
  have hcls : token.unplaced.cls = token.cls := rfl
  unfold keyNode
  cases h : token.cls <;> simp only [hcls, h]
  case string => exact stringNode_bare pos token.text
  all_goals rfl

theorem primaryNode_bare (pos : Position) (token : Token) :
    primaryNode .unknown token.unplaced = (primaryNode pos token).erase unplaced := by
  have hkey : ∀ {p : Position} {t : Token}, primaryNode p t =
      if (keywordValues.map lit).contains t.text then pure (.keywordLiteral p t.text)
      else keyNode p t := rfl
  have htext : token.unplaced.text = token.text := rfl
  rw [hkey, hkey, htext]
  split
  · rfl
  · exact keyNode_bare pos token

theorem shorthandNode_bare (pos : Position) (key : Node) (computed : Bool) :
    shorthandNode .unknown key.unplaced computed =
      (shorthandNode pos key computed).erase unplaced := by
  cases key <;> cases computed <;> rfl

/-! ## Shapes of matches -/

variable {t : ParseTree} {ts : List ParseTree}

theorem bare_eq_leaf {u : Token} : t.bare = leaf u ↔ ∃ v, t = leaf v ∧ v.unplaced = u := by
  cases t <;> simp [bare]

theorem bare_eq_branch {rule : Rule} {pos : Position} {kids : List ParseTree} :
    t.bare = branch rule pos kids ↔
      ∃ pos' kids', t = branch rule pos' kids' ∧ .unknown = pos ∧ bareAll kids' = kids := by
  cases t <;> simp [bare, and_assoc]

theorem bareAll_eq_nil : bareAll ts = [] ↔ ts = [] := by
  cases ts <;> simp [bareAll]

theorem bareAll_eq_cons {u : ParseTree} {us : List ParseTree} :
    bareAll ts = u :: us ↔ ∃ v vs, ts = v :: vs ∧ v.bare = u ∧ bareAll vs = us := by
  rw [bareAll_eq_map, List.map_eq_cons_iff]
  simp only [bareAll_eq_map]

theorem startsAsync_bareAll (trees : List ParseTree) :
    startsAsync (bareAll trees) = startsAsync trees := by
  match trees with
  | [] => rfl
  | .leaf token :: _ => rfl
  | .branch .. :: _ => rfl

theorem operator?_bare (tree : ParseTree) : operator? tree.bare = operator? tree := by
  match tree with
  | .leaf _ => rfl
  | .branch rule _ [] => cases rule <;> rfl
  | .branch rule _ (.leaf _ :: _) => cases rule <;> rfl
  | .branch rule _ (.branch .. :: _) => cases rule <;> rfl

theorem filterMap_operator?_bareAll (trees : List ParseTree) :
    (bareAll trees).filterMap operator? = trees.filterMap operator? := by
  rw [bareAll_eq_map, List.filterMap_map]
  exact congrArg (trees.filterMap ·) (funext operator?_bare)

theorem fold_unplaced (first : Node) (ops : List Text) (ns : List Node) :
    Operator.fold first.unplaced (ops.zip (unplacedAll ns)) =
      (Operator.fold first (ops.zip ns)).unplaced := by
  rw [← Operator.fold_map unplaced (fun _ _ _ => rfl), unplacedAll_eq_map, List.zip_map_right]
  rfl

theorem getLastD_unplaced (ns : List Node) :
    (ns.map unplaced).getLastD .absent = (ns.getLastD .absent).unplaced := by
  rw [List.getLastD_eq_getLast?, List.getLastD_eq_getLast?, List.getLast?_map]
  cases ns.getLast? <;> rfl

theorem filter_unplacedAll (ns : List Node) :
    (unplacedAll ns).filter (fun n => !n.isAbsent) =
      unplacedAll (ns.filter fun n => !n.isAbsent) := by
  have hsame : ((fun n => !n.isAbsent) ∘ unplaced) = fun n : Node => !n.isAbsent := by
    funext n
    cases n <;> rfl
  rw [unplacedAll_eq_map, unplacedAll_eq_map, List.filter_map, hsame]

/-! ## Building -/

/-- A match without its places is built into the same tree without its places. -/
theorem build_bare :
    (∀ tree : ParseTree, build tree.bare = (build tree).erase Node.unplaced) ∧
    (∀ pos raw trees, buildParts .unknown raw (bareAll trees) =
      (buildParts pos raw trees).erase (Prod.map id Node.unplacedAll)) ∧
    (∀ x trees, buildSuffixes x.unplaced (bareAll trees) =
      (buildSuffixes x trees).erase Node.unplaced) ∧
    (∀ optional x trees, buildSuffix optional x.unplaced (bareAll trees) =
      (buildSuffix optional x trees).erase Node.unplaced) ∧
    ∀ trees, buildAll (bareAll trees) = (buildAll trees).erase Node.unplacedAll := by
  apply build.mutual_induct
  case case1 => intro token; rfl
  case case2 =>
    intro pos kids ih
    exact Checked.bind_erase ih fun ns => rfl
  case case3 =>
    intro pos pos' word name init ihn ihi
    refine Checked.bind_erase ihn fun n => Checked.bind_erase ihi fun ns => ?_
    cases ns <;> rfl
  case' case4 =>
    intro pos x hne ih
    rw [build, bare, bareAll, bareAll, build]
    exact Checked.bind_erase ih fun n => rfl
  case case5 => intro pos token; rfl
  case case6 => intro pos x ih; exact ih
  case case7 =>
    intro pos kids ih
    refine Checked.bind_erase ih fun ns => ?_
    rw [startsAsync_bareAll, unplacedAll_eq_map, ← List.map_dropLast, ← unplacedAll_eq_map,
      getLastD_unplaced]
    rfl
  case case8 =>
    intro pos head links ihh ihl
    refine Checked.bind_erase ihh fun n => Checked.bind_erase ihl fun ns => ?_
    rw [filterMap_operator?_bareAll, fold_unplaced]
    rfl
  case case9 => intro pos head x ih; exact ih
  case case10 => intro pos token x ih; exact Checked.bind_erase ih fun ns => rfl
  case case11 =>
    intro pos x ih
    rw [bare, bareAll, bareAll, build, build]
    exact ih
  case case12 => intro pos primary suffixes ihp ihs; exact Checked.bind_erase ihp fun x => ihs x
  case case13 => intro pos token x ih; exact Checked.bind_erase ih fun ns => rfl
  case case14 =>
    intro pos x ih
    rw [bare, bareAll, bareAll, build, build]
    exact ih
  case case15 => intro pos token; exact primaryNode_bare pos token
  case case16 => intro pos token x token' ih; exact Checked.bind_erase ih fun ns => rfl
  case case17 =>
    intro pos x hne ih
    cases x with
    | leaf token => exact absurd rfl (hne token)
    | branch rule pos' kids =>
      rw [bare, bareAll, bareAll, build, build]
      · exact ih
      · intro token h
        cases h
      · intro token h
        cases h
  case case18 => intro pos kids ih; exact Checked.bind_erase ih fun p => rfl
  case case19 => intro pos kids ih; exact Checked.bind_erase ih fun ns => rfl
  case case20 =>
    intro pos kids ih
    refine Checked.bind_erase ih fun ns => ?_
    rw [filter_unplacedAll]
    rfl
  case case21 => intro pos token x ih; exact Checked.bind_erase ih fun ns => rfl
  case case22 =>
    intro pos x ih
    rw [bare, bareAll, bareAll, build, build]
    exact ih
  case case23 =>
    intro pos pos' token key token' ih
    exact Checked.bind_erase ih fun n => shorthandNode_bare pos n true
  case case24 =>
    intro pos kpos token
    exact Checked.bind_erase (keyNode_bare kpos token) fun n => shorthandNode_bare pos n false
  case case25 =>
    intro pos pos' token key token' head value ihk ihv
    exact Checked.bind_erase ihk fun k => Checked.bind_erase ihv fun v => rfl
  case case26 =>
    intro pos kpos token head value ih
    exact Checked.bind_erase (keyNode_bare kpos token) fun k => Checked.bind_erase ih fun v => rfl
  case' case27 =>
    intros
    rw [bare, build, build]
    rfl
  case case28 =>
    intro pos raw
    exact Checked.bind_erase (quasiOf_bare pos raw) fun q => rfl
  case case29 => intro pos raw pos' token rest ih; exact ih
  case case30 =>
    intro pos raw pos' token x token' rest ihx ihr
    exact Checked.bind_erase (quasiOf_bare pos raw) fun q => Checked.bind_erase ihx fun n =>
      Checked.bind_erase ihr fun p => rfl
  case' case31 =>
    intro pos raw head rest hchars hhole ih
    rw [bareAll, buildParts, buildParts]
    exact ih
  case case32 => intro x; rfl
  case case33 =>
    intro x pos token pos' kids rest ihk ihr
    exact Checked.bind_erase ihk fun n => ihr n
  case' case34 =>
    intro x pos kids rest hne ihk ihr
    rw [bareAll, bare, buildSuffixes, buildSuffixes]
    exact Checked.bind_erase ihk fun n => ihr n
  case' case35 =>
    intro x head rest hoptional hsuffix ih
    rw [bareAll, buildSuffixes, buildSuffixes]
    exact ih
  case case36 =>
    intro optional x pos args ih
    exact Checked.bind_erase ih fun ns => rfl
  case case37 =>
    intro optional x token index token' ih
    exact Checked.bind_erase ih fun n => rfl
  case case38 =>
    intro optional x token name ih
    exact Checked.bind_erase ih fun n => rfl
  case' case39 =>
    intro optional x name hne ih
    rw [bareAll, bareAll, buildSuffix, buildSuffix]
    exact Checked.bind_erase ih fun n => rfl
  case' case40 =>
    intro trees optional x hcall hindex hmember hname
    rw [buildSuffix, buildSuffix]
    rfl
  case case41 => rfl
  case case42 => intro token rest ih; exact ih
  case case43 =>
    intro rule pos kids rest ihn ihr
    exact Checked.bind_erase ihn fun n => Checked.bind_erase ihr fun ns => rfl
  -- It is left to show that a match has the shape of an earlier case if it has that shape without
  -- its places.
  all_goals
    first
    | assumption
    | simp only [bareAll_eq_cons, bareAll_eq_nil, bare_eq_leaf, bare_eq_branch]
      intros
      casesm* ∃ _, _, _ ∧ _
      subst_vars
      solve_by_elim

/-- Matches that differ in places only are built into trees that differ in places only. -/
theorem build_eq_ok_of_bare {t u : ParseTree} (h : t.bare = u.bare) {n : Node}
    (hn : build t = ⟨n, none⟩) : ∃ m, build u = ⟨m, none⟩ ∧ m.unplaced = n.unplaced := by
  have herase : (build u).erase unplaced = ⟨n.unplaced, none⟩ := by
    rw [← build_bare.1 u, ← h, build_bare.1 t, hn]
    rfl
  have herror : (build u).error = none := Option.map_eq_none_iff.1 (congrArg Checked.error herase)
  exact ⟨(build u).val, Checked.eq_ok herror, congrArg Checked.val herase⟩

end ParseTree

end CubeSchema
