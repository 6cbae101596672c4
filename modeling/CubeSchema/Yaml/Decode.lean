import CubeSchema.Text.Quoted
import CubeSchema.Yaml.Node

/-!
# Documents as values

A document is read as a value of a given shape. What does not fit the shape is complained about, all
complaints are collected in the order of the document, and reading goes on. A mapping that names a
key twice is complained about and left out as a whole. The key `<<` merges other mappings in: their
entries count where the mapping has none of its own. Merging compares keys, and only scalars can be
compared.
-/

namespace CubeSchema.Yaml

/-- The form that a value has to have. -/
inductive Shape where
  /-- Any scalar, as it is written. -/
  | text
  /-- A sequence of values of one shape. -/
  | list (element : Shape)
  /-- A mapping with given keys only; the name is that of the shape in complaints. -/
  | record (name : String) (fields : List (Text × Shape))
  /-- A mapping with any texts as keys. -/
  | table
  /-- A mapping with any scalars as keys. -/
  | mixedTable
  /-- Anything. -/
  | any
  deriving Repr

/-- The name of a shape in complaints. -/
def Shape.name : Shape → Text
  | text => lit "string"
  | list s => lit "[]" ++ s.name
  | record name _ => lit name
  | table => lit "map[string]interface \x7b\x7d"
  | mixedTable => lit "map[interface \x7b\x7d]interface \x7b\x7d"
  | any => lit "interface \x7b\x7d"

/-- A value read from a document. -/
inductive Value where
  /-- A scalar. -/
  | scalar (s : Scalar)
  /-- A sequence. -/
  | list (items : List Value)
  /-- A mapping; every key occurs once. -/
  | fields (entries : List (Text × Value))
  deriving Repr

namespace Value

/-- Nothing. -/
def null : Value := .scalar .null

/-- Sets the value of a key. -/
def set (entries : List (Text × Value)) (key : Text) (v : Value) : List (Text × Value) :=
  entries.filter (fun e => e.1 ≠ key) ++ [(key, v)]

/-- The value of a key. -/
def field? (v : Value) (key : Text) : Option Value :=
  match v with
  | fields entries => entries.lookup key
  | _ => none

/-- The texts of a sequence of texts. -/
def texts : Value → List Text
  | list items => items.filterMap fun
    | scalar (.text t) => some t
    | _ => none
  | _ => []

end Value

/-- Something in a document that does not fit. -/
structure Complaint where
  /-- The line it is on. -/
  line : Nat
  /-- What is wrong. -/
  message : Text
  deriving DecidableEq, Repr

namespace Complaint

/-- A node that does not have the shape it should have. Longer texts are cut. -/
def misfit (n : Node) (found : Text) (s : Shape) : Complaint :=
  let tag := if n.tag.isEmpty then found else n.tag
  let shown :=
    if tag = lit "!!seq" || tag = lit "!!map" then []
    else if n.text.length > 10 then lit " " ++ 96 :: n.text.take 7 ++ lit "..." ++ [96]
    else lit " " ++ 96 :: n.text ++ [96]
  ⟨n.line, lit "cannot unmarshal " ++ tag ++ shown ++ lit " into " ++ s.name⟩

/-- A key that a mapping has twice. -/
def repeated (first second : Node) : Complaint :=
  ⟨second.line, lit "mapping key " ++ Text.quoted second.text ++ lit " already defined at line " ++
    Text.ofNat first.line⟩

/-- A key that a record does not have. -/
def unknown (n : Node) (key : Text) (s : Shape) : Complaint :=
  ⟨n.line, lit "field " ++ key ++ lit " not found in type " ++ s.name⟩

/-- A key of a record that is given in two ways. -/
def again (n : Node) (key : Text) (s : Shape) : Complaint :=
  ⟨n.line, lit "field " ++ key ++ lit " already set in type " ++ s.name⟩

/-- A complaint with its line. -/
def text (c : Complaint) : Text := lit "line " ++ Text.ofNat c.line ++ lit ": " ++ c.message

end Complaint

/-- What reading a document keeps. -/
structure Reader where
  /-- The complaints so far. -/
  complaints : List Complaint := []
  /-- The references that are being followed. -/
  following : List Nat := []
  /-- The number of nodes read; the document itself is one. -/
  read : Nat := 1
  /-- The number of nodes read while a reference was being followed. -/
  expanded : Nat := 0
  /-- While mappings are merged, the keys that do not count any more. -/
  taken : Option (List Scalar) := none

/-- Whether too many of the nodes read come from following references. -/
def Reader.excessive (r : Reader) : Bool :=
  let allowed : Nat :=
    if r.read ≤ 400000 then 99 * 3600000
    else if r.read ≥ 4000000 then 10 * 3600000
    else 99 * 3600000 - 89 * (r.read - 400000)
  r.expanded > 100 && r.read > 1000 && r.expanded * 100 * 3600000 > allowed * r.read

/-- Why a text gives no value. -/
inductive DecodeError where
  /-- It cannot be read. -/
  | malformed
  /-- A key that merging has to compare with others is no scalar. -/
  | incomparable
  /-- It does not have the shape it should have. -/
  | misfits (complaints : List Complaint)
  deriving Repr

/-- The wording of an error. -/
def DecodeError.message : DecodeError → Text
  | malformed | incomparable => lit "yaml: syntax"
  | misfits cs => lit "yaml: unmarshal errors:" ++ cs.flatMap fun c => lit "\n  " ++ c.text

/-- Reading breaks off where a document cannot be read at all. -/
abbrev Read := StateT Reader (Except DecodeError)

namespace Read

/-- Adds a complaint. -/
def complain (c : Complaint) : Read Unit :=
  modify fun r => { r with complaints := r.complaints ++ [c] }

/-- The keys that stand twice in a mapping, each with the earlier one. -/
def repeats : List (Node × Node) → List (Node × Node)
  | [] => []
  | (k, _) :: rest =>
    (rest.filter fun e => k.sameForm e.1 && k.text = e.1.text).map (fun e => (k, e.1)) ++
      repeats rest

/-- Whether no key of a mapping stands twice; complains about those that do. -/
def unique (entries : List (Node × Node)) : Read Bool := do
  let pairs := repeats entries
  pairs.forM fun p => complain (.repeated p.1 p.2)
  return pairs.isEmpty

/-- The node that a reference stands for; any other node is itself. -/
def target (d : Document) : Node → Option Node
  | .reference _ _ _ target => d.named.lookup target
  | n => some n

/-- Whether a node is a mapping or refers to one. -/
def isMapping (d : Document) (n : Node) : Bool :=
  match target d n with
  | some (.mapping ..) => true
  | _ => false

/-- The shape of a mapping of which nothing is asked: a table of texts if all keys are texts. -/
def tableOf (d : Document) (entries : List (Node × Node)) : Shape :=
  let isText (k : Node) : Bool :=
    (target d k).any fun n => n.tag = lit "!!str" || n.tag = lit "!!merge"
  if entries.all fun e => isText e.1 then .table else .mixedTable

/-- Counts a node. -/
def count : Read Unit := do
  modify fun r =>
    { r with
      read := r.read + 1
      expanded := r.expanded + (if r.following.isEmpty then 0 else 1) }
  if (← get).excessive then throw .malformed

/-- Follows a reference, which must not lead back to itself. -/
def follow {α : Type} (d : Document) (id target : Nat) (read : Node → Read α) : Read α := do
  if (← get).following.contains id then throw .malformed
  match d.named.lookup target with
  | none => throw .malformed
  | some n => do
    modify fun r => { r with following := id :: r.following }
    let a ← read n
    modify fun r => { r with following := r.following.erase id }
    return a

/-- Takes a key, unless it has been taken already. Outside of merging every key counts. -/
def claim (taken : Option (List Scalar)) (key : Scalar) : Option (Option (List Scalar)) :=
  match taken with
  | none => some none
  | some keys => if keys.contains key && key ≠ .float .nan then none else some (some (key :: keys))

/-- The text of a value that is one. -/
def textOf : Scalar → Text
  | .text t => t
  | _ => []

mutual

/-- Reads a node as a value of a shape; none when it is left out. -/
def value (d : Document) : Nat → Shape → Node → Read (Option Value)
  | 0, _, _ => throw .malformed
  | fuel + 1, s, n => do
    count
    match n with
    | .reference _ _ id target => follow d id target fun n => value d fuel s n
    | .scalar _ tag text =>
      match Scalar.ofTagged? tag text, s with
      | none, _ => throw .malformed
      | some .null, .list _ | some .null, .table | some .null, .mixedTable | some .null, .any =>
        return some .null
      | some .null, _ => return none
      | some v, .any => return some (.scalar v)
      | some v, .text =>
        return some (.scalar (.text (if tag = lit "!!binary" then textOf v else text)))
      | some v, _ => do
        complain (.misfit n v.tag s)
        return none
    | .sequence _ _ items =>
      match s with
      | .list e => do return some (.list (← elements d fuel e items))
      | .any => do return some (.list (← elements d fuel .any items))
      | _ => do
        complain (.misfit n (lit "!!seq") s)
        return none
    | .mapping _ _ entries => do
      if !(← unique entries) then return none
      else
        match s with
        | .text | .list _ => do
          complain (.misfit n (lit "!!map") s)
          return none
        | .any => do return some (.fields (← merged d fuel (tableOf d entries) entries []))
        | _ => do return some (.fields (← merged d fuel s entries []))

/-- Reads the elements of a sequence; those that are left out do not count. -/
def elements (d : Document) : Nat → Shape → List Node → Read (List Value)
  | 0, _, _ => throw .malformed
  | _, _, [] => return []
  | fuel + 1, s, n :: rest => do
    let v ← value d fuel s n
    let vs ← elements d fuel s rest
    return v.toList ++ vs

/-- Reads the entries of a mapping into a value that has some already: first its own, and then those
merged in. -/
def merged (d : Document) : Nat → Shape → List (Node × Node) → List (Text × Value) →
    Read (List (Text × Value))
  | 0, _, _, _ => throw .malformed
  | fuel + 1, s, entries, acc => do
    let taken := (← get).taken
    modify fun r => { r with taken := none }
    let own := entries.filter fun e => !e.1.isMerge
    let (acc, taken) ← ownEntries d fuel s own acc taken []
    modify fun r => { r with taken }
    match (entries.filter fun e => e.1.isMerge).getLast? with
    | none => return acc
    | some (_, source) => do
      if taken.isNone then do
        modify fun r => { r with taken := some [] }
        takeKeys d fuel (entries.map Prod.fst)
      let sources := match source with
        | .sequence _ _ items => items
        | n => [n]
      let acc ← mergeAll d fuel s sources acc
      if taken.isNone then modify fun r => { r with taken := none }
      return acc

/-- Reads the entries that a mapping has of its own. -/
def ownEntries (d : Document) : Nat → Shape → List (Node × Node) → List (Text × Value) →
    Option (List Scalar) → List Text → Read (List (Text × Value) × Option (List Scalar))
  | 0, _, _, _, _, _ => throw .malformed
  | _, _, [], acc, taken, _ => return (acc, taken)
  | fuel + 1, s, (k, v) :: rest, acc, taken, done => do
    match ← key d fuel s taken.isSome k with
    | none => ownEntries d fuel s rest acc taken done
    | some (key, name) =>
      match claim taken key with
      | none => ownEntries d fuel s rest acc taken done
      | some taken =>
        match s with
        | .record _ fields =>
          match fields.lookup name with
          | none => do
            complain (.unknown k name s)
            ownEntries d fuel s rest acc taken done
          | some shape =>
            if done.contains name then do
              complain (.again k name s)
              ownEntries d fuel s rest acc taken done
            else do
              let acc := match ← value d fuel shape v with
                | some v => Value.set acc name v
                | none => acc
              ownEntries d fuel s rest acc taken (name :: done)
        | _ => do
          let acc := match ← value d fuel .any v with
            | some v => Value.set acc name v
            | none => acc
          ownEntries d fuel s rest acc taken done

/-- Reads a key, with its text. A mixed table has scalars as keys, and any other mapping texts. -/
def key (d : Document) : Nat → Shape → Bool → Node → Read (Option (Scalar × Text))
  | 0, _, _, _ => throw .malformed
  | fuel + 1, s, merging, k => do
    match s with
    | .mixedTable =>
      match ← value d fuel .any k with
      | some (.scalar v) => return some (v, ((target d k).map Node.text).getD [])
      | some _ => throw (if merging then .incomparable else .malformed)
      | none => return none
    | _ =>
      match ← value d fuel .text k with
      | some (.scalar (.text t)) => return some (.text t, t)
      | _ => return none

/-- Takes the keys of a mapping into which others are to be merged. -/
def takeKeys (d : Document) : Nat → List Node → Read Unit
  | 0, _ => throw .malformed
  | _, [] => return
  | fuel + 1, k :: rest => do
    match ← value d fuel .any k with
    | some (.scalar v) => modify fun r => { r with taken := r.taken.map (v :: ·) }
    | some _ => throw .incomparable
    | none => pure ()
    takeKeys d fuel rest

/-- Merges mappings in; of several that have a key, the first counts. -/
def mergeAll (d : Document) : Nat → Shape → List Node → List (Text × Value) →
    Read (List (Text × Value))
  | 0, _, _, _ => throw .malformed
  | _, _, [], acc => return acc
  | fuel + 1, s, n :: rest, acc => do
    if !isMapping d n then throw .malformed
    let acc ← merge d fuel s n acc
    mergeAll d fuel s rest acc

/-- Merges a mapping in. -/
def merge (d : Document) : Nat → Shape → Node → List (Text × Value) → Read (List (Text × Value))
  | 0, _, _, _ => throw .malformed
  | fuel + 1, s, n, acc => do
    count
    match n with
    | .reference _ _ id target => follow d id target fun n => merge d fuel s n acc
    | .mapping _ _ entries => if ← unique entries then merged d fuel s entries acc else return acc
    | _ => throw .malformed

end

end Read

/-- The number of nodes of a document is below the number of characters, and every reference is
followed at most once at a time, so this is more than reading one can take. -/
def readFuel (t : Text) : Nat := 16 * (t.length + 2) * (t.length + 2)

/-- The value of a shape that the first document of a text holds; nothing for a text without
documents, and for a document that is left out. -/
def read (s : Shape) (t : Text) : Except DecodeError Value :=
  match document? t with
  | none => .error .malformed
  | some none => .ok .null
  | some (some d) =>
    match (Read.value d (readFuel t) s d.root).run {} with
    | .error e => .error e
    | .ok (v, r) =>
      if r.complaints.isEmpty then .ok (v.getD .null) else .error (.misfits r.complaints)

end CubeSchema.Yaml
