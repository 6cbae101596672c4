import CubeSchema.Proofs.Compilation.Linking
import CubeSchema.Proofs.Deferral.Forming
import CubeSchema.Proofs.Tree.Program
import CubeSchema.Proofs.Tree.Source
import CubeSchema.Tree.Traverse

/-!
# What is printed is read again

A tree is reachable when it has been read from a source, or when it is what a pass makes of a
reachable tree. Such trees have the form that the grammar gives, so what is printed of them can be
read again, and the tree that is read is the printed one with the parentheses that printing adds.

Two kinds of nodes are printed in a way that is read otherwise. The point behind a number of digits
only becomes a part of the number, and a call of a name that is an operator becomes an operation on
a value in parentheses.
-/

namespace CubeSchema

open Deferral Node Lexeme

/-- The trees that come up: those of sources, and what passes make of them. -/
inductive Reachable : Node → Prop
  | parsed {file src : Text} {t : Node} (h : parse file src = .ok t) : Reachable t
  | passed {t : Node} (r : Resolvers) (h : Reachable t) : Reachable (run r t).val

/-- What comes up has the form that the grammar gives. -/
theorem Reachable.formed {t : Node} (h : Reachable t) : FormedProgram t := by
  induction h with
  | parsed h => exact formedProgram_of_parse h
  | passed r _ ih => exact ih.run r

theorem Formed.lacksName_eq_false {n : Node} (h : Formed n) : n.lacksName = false := by
  cases h with
  | function hparams _ _ =>
    refine List.any_eq_false.2 fun p hp => ?_
    obtain ⟨pos, name, rfl, -⟩ := hparams p hp
    exact Bool.false_ne_true
  | _ => rfl

/-- Printing a tree that has been read does not fail. -/
theorem FormedProgram.format_eq {n : Node} (h : FormedProgram n) : n.format = .ok n.print := by
  have hnamed : n.all (fun m => !m.lacksName) = true := by
    refine h.all_nodes ?_ (fun m hm => ?_) (fun m hm => ?_) (fun m hm => ?_)
    · intro m hm
      cases m <;> first | rfl | simp [isLeaf] at hm
    · rw [hm.lacksName_eq_false]; rfl
    · cases hm <;> rfl
    · cases hm; rfl
  rw [format, isNamed, List.all_eq_true.2 ((all_eq_true_iff _ [] n).1 hnamed), if_pos rfl]

/-! ## Reading again -/

/-- Whether a node is a call of a name that is an operator in front of an operand. -/
def Node.callsOperator : Node → Bool
  | call callee _ _ => callee.isOperatorWord
  | _ => false

/-- Where no point runs into a number and no operator is called, nodes are read as they are. -/
theorem isLegible_of_clear {n : Node} (hpoint : n.runsTogether = false)
    (hcall : n.callsOperator = false) : n.isLegible = true := by
  unfold isLegible
  split
  · simpa [runsTogether] using hpoint
  · have hword : operatorWords.contains _ = false := hcall
    rw [hword]
    rfl
  · rfl

/-- A reachable tree that is legible is read again from its printed form, up to the parentheses that
printing adds, and is printed the same again. -/
theorem Reachable.parse_print {t : Node} (h : Reachable t) (hlegible : t.all isLegible = true)
    (file : Text) : ∃ m, parse file t.print = .ok m ∧ m.unplaced = t.regrouped.unplaced ∧
      m.format = .ok t.print := by
  obtain ⟨m, hm, hunplaced⟩ := h.formed.parse_print hlegible file
  refine ⟨m, hm, hunplaced, ?_⟩
  rw [(Reachable.parsed hm).formed.format_eq, print_eq_of_unplaced hunplaced]

/-- The text of an output is that of a reachable tree. -/
theorem exists_reachable_of_mem_outputs {tree : FileTree} {cwd : Text} {o : CompileOptions}
    {files : List SchemaFile} {c : Compilation} (h : compile tree cwd o files = .ok c)
    {out : CompiledFile} (hout : out ∈ c.outputs) : ∃ t, Reachable t ∧ out.source = t.print := by
  obtain ⟨-, nodes, manifests, hread, -, rfl⟩ := Compilation.compile_eq_ok.1 h
  have hmem := List.mem_map_of_mem (f := Compilation.outcomeOf) hout
  rw [Compilation.link_outputs] at hmem
  obtain ⟨⟨f, n⟩, hfn, heq⟩ := List.mem_map.1 hmem
  have hparse : parse f.path f.source = .ok n :=
    Compilation.parse_of_reading ((Compilation.mem_zip_iff_reading hread).1 hfn).2
  exact ⟨_, .passed _ (.parsed hparse), (congrArg Compilation.Outcome.source heq).symm⟩

/-- The tree of a source, if it has one. -/
def treeOf (src : Text) : Node :=
  match parse [] src with
  | .ok t => t
  | .error _ => .absent

theorem Reachable.treeOf {src : Text} (h : (parse [] src).isOk = true) :
    Reachable (CubeSchema.treeOf src) := by
  cases hparse : parse [] src with
  | error e => simp [hparse, Except.isOk, Except.toBool] at h
  | ok t =>
    rw [CubeSchema.treeOf, hparse]
    exact .parsed hparse

/-- A member of a number with a point, and a call of an operator with two arguments, both inside of
a value that a pass defers. -/
def deferredOddities : Node :=
  (run ⟨fun _ _ => true, fun _ => false, fun _ => false⟩
    (treeOf (lit "cube('A', \x7b sql: f(1.5.x, typeof(a, b)) \x7d)"))).val

/-- An object that is the body of a function, a function that is a statement, and operators of three
levels. -/
def groupedStatement : Node :=
  treeOf (lit "x => (\x7by\x7d); (() => \x7b\x7d); -a + b * c ** 2.5.d")

end CubeSchema
