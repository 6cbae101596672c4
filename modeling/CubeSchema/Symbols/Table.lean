import CubeSchema.Text.Basic

/-!
# The symbol table

The cubes and views that are known by name, each with its members, and the context symbols that
every declaration may refer to. A name is looked up from inside a declaration: context symbols come
first, then the placeholders for the declared cube itself, its members, and the names of cubes.
-/

namespace CubeSchema

/-- The type of a cube member. -/
inductive MemberType where
  | measure
  | dimension
  | segment
  | preAggregation
  | hierarchy
  /-- A type that no block of a declaration has. -/
  | other (label : Text)
  deriving DecidableEq, Repr

/-- The name of a member type. -/
def MemberType.label : MemberType → Text
  | measure => lit "measure"
  | dimension => lit "dimension"
  | segment => lit "segment"
  | preAggregation => lit "preAggregation"
  | hierarchy => lit "hierarchy"
  | other label => label

/-- A cube or a view. -/
structure Cube where
  /-- The name it is referred to by. -/
  name : Text
  /-- Whether it is a view. -/
  isView : Bool := false
  /-- The file or manifest that declares it. -/
  file : Text := []
  /-- Whether a manifest declares it. -/
  external : Bool := false
  /-- The members with their types; every name occurs once. -/
  members : List (Text × MemberType) := []
  deriving DecidableEq, Repr

namespace Cube

/-- The type of a member. -/
def member? (c : Cube) (name : Text) : Option MemberType := c.members.lookup name

/-- Adds a member; a later type of the same name wins. -/
def addMember (c : Cube) (name : Text) (type : MemberType) : Cube :=
  { c with members := c.members.filter (fun m => m.1 ≠ name) ++ [(name, type)] }

/-- Adds several members in order. -/
def addMembers (c : Cube) (members : List (Text × MemberType)) : Cube :=
  members.foldl (fun c m => c.addMember m.1 m.2) c

/-- The members sorted by name. -/
def sortedMembers (c : Cube) : List (Text × MemberType) :=
  c.members.mergeSort fun a b => decide (a.1 ≤ b.1)

end Cube

/-- What a name denotes. -/
inductive Symbol where
  /-- A cube or view; from inside a declaration its placeholder denotes the cube itself. -/
  | cube (cube : Cube)
  /-- A member of a cube. -/
  | member (name : Text) (owner : Cube) (type : MemberType)
  /-- A context symbol. -/
  | context (name : Text)
  deriving DecidableEq, Repr

namespace Symbol

/-- The name of what a symbol denotes. -/
def name : Symbol → Text
  | cube c => c.name
  | member name _ _ => name
  | context name => name

/-- The kind of a symbol in words. -/
def kindName : Symbol → Text
  | cube _ => lit "cube"
  | member .. => lit "member"
  | context _ => lit "context"

/-- The name of the symbol kind with a number, or a mark that there is none. -/
def kindNameAt (n : Int) : Text :=
  if n = 0 then lit "cube" else if n = 1 then lit "member" else if n = 2 then lit "context"
  else lit "unknown"

end Symbol

/-- The names that stand for the cube being declared. -/
def isCurrentCube (name : Text) : Bool := [lit "CUBE", lit "TABLE"].contains name

/-- The context symbols that are always there. -/
def defaultContext : List Text :=
  ["SECURITY_CONTEXT", "USER_CONTEXT", "FILTER_PARAMS", "FILTER_GROUP", "SQL_UTILS",
    "COMPILE_CONTEXT"].map lit

/-- What is known by name. -/
structure SymbolTable where
  /-- The cubes and views; every name occurs once. -/
  entries : List Cube := []
  /-- The context symbols; every name occurs once. -/
  context : List Text := defaultContext
  deriving Repr

namespace SymbolTable

/-- The cube or view of a name. -/
def cube? (t : SymbolTable) (name : Text) : Option Cube := t.entries.find? fun c => c.name = name

/-- Changes the entry of a name. -/
def modify (t : SymbolTable) (name : Text) (f : Cube → Cube) : SymbolTable :=
  { t with entries := t.entries.map fun c => if c.name = name then f c else c }

/-- Whether registering a cube makes a new entry: there is none of its name, or only one that a
manifest declares while the new one is declared by a schema. -/
def founds (t : SymbolTable) (c : Cube) : Bool :=
  match t.cube? c.name with
  | none => true
  | some old => old.external && !c.external

/-- Adds the members of a cube to an entry of its name. -/
def merge (old c : Cube) : Cube :=
  { old.addMembers c.members with isView := old.isView || c.isView }

/-- Registers a cube or view. A second one of the same name is merged into the first, except that a
declaration in a schema replaces one in a manifest. -/
def register (t : SymbolTable) (c : Cube) : SymbolTable :=
  match t.cube? c.name with
  | none => { t with entries := t.entries ++ [c] }
  | some _ =>
    if t.founds c then t.modify c.name fun _ => c else t.modify c.name fun old => merge old c

/-- Makes a name resolvable everywhere. -/
def addContext (t : SymbolTable) (name : Text) : SymbolTable :=
  if t.context.contains name then t else { t with context := t.context ++ [name] }

/-- The cubes and views sorted by name. -/
def cubes (t : SymbolTable) : List Cube := t.entries.mergeSort fun a b => decide (a.name ≤ b.name)

/-- The context symbols sorted by name. -/
def contextSymbols (t : SymbolTable) : List Text := Text.sort t.context

/-- The cube of a declaration; the empty name is no declaration. -/
def current? (t : SymbolTable) (cubeName : Text) : Option Cube :=
  if cubeName.isEmpty then none else t.cube? cubeName

/-- What a name denotes inside the declaration `cubeName`; the empty name stands for no
declaration. -/
def lookup (t : SymbolTable) (cubeName name : Text) : Option Symbol :=
  if t.context.contains name then some (.context name)
  else if isCurrentCube name then (t.current? cubeName).map .cube
  else
    match (t.current? cubeName).bind fun c => (c.member? name).map (Symbol.member name c) with
    | some s => some s
    | none => (t.cube? name).map .cube

/-- Whether a name denotes something inside the declaration `cubeName`. -/
def resolves (t : SymbolTable) (cubeName name : Text) : Bool := (t.lookup cubeName name).isSome

/-- Whether a name is that of a cube or view. -/
def resolvesCube (t : SymbolTable) (name : Text) : Bool := (t.cube? name).isSome

end SymbolTable

end CubeSchema
