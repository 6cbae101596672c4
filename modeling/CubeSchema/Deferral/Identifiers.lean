import CubeSchema.Tree.Cursor

/-!
# Names an expression mentions

The names of the identifiers in a piece of a tree that a resolver accepts, each once and in the
order of their first occurrence. The property of a plain member access is a field name and no
reference.
-/

namespace CubeSchema

namespace Cursor

/-- Whether the node is the field name of a plain member access. -/
def isFieldName (c : Cursor) : Bool :=
  match c.above with
  | ⟨.member _ _ computed _, ⟨.memberProperty, none⟩⟩ :: _ => !computed
  | _ => false

/-- The name that the node refers to, if it is a reference. -/
def reference? (c : Cursor) : Option Text := if c.isFieldName then none else c.focus.name?

/-- The accepted names mentioned at the node or below it, in the order of their first occurrence. -/
def identifiers (resolve : Text → Bool) (c : Cursor) : List Text :=
  Text.distinct ((c.visits.filterMap reference?).filter resolve)

end Cursor

/-- The accepted names mentioned in a tree. -/
def Node.identifiers (resolve : Text → Bool) (n : Node) : List Text :=
  (Cursor.root n).identifiers resolve

/-- The function that computes `body` once the values of `params` are known. It stands at the place
`pos` of the expression that it replaces. -/
def Node.deferred (params : List Text) (pos : Position) (body : Node) : Node :=
  .function pos (params.map fun p => .identifier .unknown p) body false

end CubeSchema
