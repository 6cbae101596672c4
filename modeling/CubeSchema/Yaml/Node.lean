import CubeSchema.Yaml.Scalar
import CubeSchema.Yaml.Token.Scan

/-!
# YAML documents

The first document of a stream as a tree of nodes. A node may be given a name and be referred to by
it later; a reference keeps the number of the node it stands for, and the document lists the named
nodes by their numbers, so that a node may also refer to one that contains it.
-/

namespace CubeSchema.Yaml

/-- A node of a document. Lines count from one. -/
inductive Node where
  /-- A scalar with its tag. -/
  | scalar (line : Nat) (tag text : Text)
  /-- A sequence with its tag. -/
  | sequence (line : Nat) (tag : Text) (items : List Node)
  /-- A mapping with its tag. -/
  | mapping (line : Nat) (tag : Text) (entries : List (Node × Node))
  /-- A reference by name to the node of number `target`; `id` tells references apart. -/
  | reference (line : Nat) (name : Text) (id target : Nat)
  deriving Repr

namespace Node

/-- The line a node starts on. -/
def line : Node → Nat
  | scalar l .. | sequence l .. | mapping l .. | reference l .. => l

/-- The tag of a node. -/
def tag : Node → Text
  | scalar _ t _ | sequence _ t _ | mapping _ t _ => t
  | reference .. => []

/-- The text of a scalar, and the name of a reference. -/
def text : Node → Text
  | scalar _ _ t => t
  | reference _ t _ _ => t
  | _ => []

/-- Whether two nodes are of the same form. -/
def sameForm : Node → Node → Bool
  | scalar .., scalar .. | sequence .., sequence .. | mapping .., mapping .. => true
  | reference .., reference .. => true
  | _, _ => false

/-- Whether a node is the key that merges other mappings in. -/
def isMerge : Node → Bool
  | scalar _ tag text => text = lit "<<" && tag = lit "!!merge"
  | _ => false

end Node

/-- The first document of a stream. -/
structure Document where
  /-- Its node. -/
  root : Node
  /-- The named nodes by their numbers. -/
  named : List (Nat × Node)
  deriving Repr

/-- What building nodes has to keep. -/
structure Builder where
  /-- The tokens that are left. -/
  scanner : Scanner
  /-- The beginnings of tags by their handles. -/
  handles : List (Text × Text) := [(lit "!", lit "!"), (lit "!!", longTag)]
  /-- The numbers of the names given so far, the latest first. -/
  names : List (Text × Nat) := []
  /-- The named nodes that are complete. -/
  complete : List (Nat × Node) := []
  /-- The next number. -/
  next : Nat := 0

/-- Building fails where the tokens do not make a node. -/
abbrev Build := StateT Builder Option

namespace Build

/-- The next token. -/
def peek : Build Token := do
  let b ← get
  match b.scanner.next? with
  | none => failure
  | some (t, s) => do
    set { b with scanner := s }
    return t

/-- Steps over a token. -/
def skip : Build Unit := modify fun b => { b with scanner := b.scanner.drop }

/-- A new number. -/
def number : Build Nat := modifyGet fun b => (b.next, { b with next := b.next + 1 })

/-- The properties written before a node. -/
structure Properties where
  /-- The line the node starts on. -/
  line : Nat
  /-- The name given to it. -/
  name : Option Text := none
  /-- Its tag in full, if it has one. -/
  tag : Option Text := none

/-- The tag that a handle and an ending make. -/
def resolveTag (handle ending : Text) : Build Text := do
  if handle.isEmpty then return ending
  else
    match (← get).handles.lookup handle with
    | some start => return start ++ ending
    | none => failure

/-- Reads a name and a tag in either order. -/
def properties : Build Properties := do
  let t ← peek
  match t.kind with
  | .anchor name => do
    skip
    match (← peek).kind with
    | .tag h e => do
      skip
      return { line := t.line, name := some name, tag := some (← resolveTag h e) }
    | _ => return { line := t.line, name := some name }
  | .tag h e => do
    skip
    match (← peek).kind with
    | .anchor name => do
      skip
      return { line := t.line, name := some name, tag := some (← resolveTag h e) }
    | _ => return { line := t.line, tag := some (← resolveTag h e) }
  | _ => return { line := t.line }

/-- The tag of a node: the one it is given in its short form, or a default. -/
def tagOr (p : Properties) (dflt : Text) : Text :=
  match p.tag with
  | some t => if t.isEmpty || t = lit "!" then dflt else shortTag t
  | none => dflt

/-- The node of a scalar. -/
def scalarNode (p : Properties) (text : Text) (plain : Bool) : Node :=
  let dflt :=
    if !plain then lit "!!str"
    else if text = lit "<<" then lit "!!merge"
    else (Scalar.ofPlain true text).tag
  .scalar (p.line + 1) (tagOr p dflt) text

/-- A scalar that is not written. -/
def emptyNode (line : Nat) : Node := scalarNode { line } [] true

/-- Gives a name a number, before the node itself is built. -/
def announce (p : Properties) : Build (Option Nat) :=
  match p.name with
  | none => return none
  | some name => do
    let n ← number
    modify fun b => { b with names := (name, n) :: b.names }
    return some n

/-- Keeps a node that has been given a number. -/
def keep (id : Option Nat) (n : Node) : Build Node := do
  if let some i := id then modify fun b => { b with complete := (i, n) :: b.complete }
  return n

mutual

/-- Builds a node. In a block, collections may be made by indentation; as the value of a key, a
sequence may also stand at the indentation of the key. -/
def node (block indentless : Bool) : Nat → Build Node
  | 0 => failure
  | fuel + 1 => do
    let t ← peek
    match t.kind with
    | .alias name => do
      match (← get).names.lookup name with
      | none => failure
      | some target => do
        skip
        return .reference (t.line + 1) name (← number) target
    | _ => do
      let p ← properties
      let id ← announce p
      let t ← peek
      let sequence (items : Build (List Node)) : Build Node := do
        keep id (.sequence (p.line + 1) (tagOr p (lit "!!seq")) (← items))
      let mapping (entries : Build (List (Node × Node))) : Build Node := do
        keep id (.mapping (p.line + 1) (tagOr p (lit "!!map")) (← entries))
      match t.kind with
      | .scalar text plain => do
        skip
        keep id (scalarNode p text plain)
      | .sequenceOpen => sequence (do skip; flowItems true fuel)
      | .mappingOpen => mapping (do skip; flowEntries true fuel)
      | .blockSequence => if block then sequence (do skip; blockItems fuel) else bare id p
      | .blockMapping => if block then mapping (do skip; blockEntries fuel) else bare id p
      | .blockEntry => if indentless then sequence (indentlessItems fuel) else bare id p
      | _ => bare id p
where
  /-- Properties without a node stand for an empty scalar. -/
  bare (id : Option Nat) (p : Properties) : Build Node :=
    if p.name.isSome || p.tag.any fun t => !t.isEmpty then keep id (scalarNode p [] true)
    else failure

/-- Builds the elements of a sequence by indentation. -/
def blockItems : Nat → Build (List Node)
  | 0 => failure
  | fuel + 1 => do
    let t ← peek
    match t.kind with
    | .blockEntry => do
      skip
      let item ← match (← peek).kind with
        | .blockEntry | .blockEnd => pure (emptyNode t.line)
        | _ => node true false fuel
      return item :: (← blockItems fuel)
    | .blockEnd => do
      skip
      return []
    | _ => failure

/-- Builds the elements of a sequence at the indentation of its key. -/
def indentlessItems : Nat → Build (List Node)
  | 0 => failure
  | fuel + 1 => do
    let t ← peek
    match t.kind with
    | .blockEntry => do
      skip
      let item ← match (← peek).kind with
        | .blockEntry | .key | .value | .blockEnd => pure (emptyNode t.line)
        | _ => node true false fuel
      return item :: (← indentlessItems fuel)
    | _ => return []

/-- Builds the entries of a mapping by indentation. -/
def blockEntries : Nat → Build (List (Node × Node))
  | 0 => failure
  | fuel + 1 => do
    let t ← peek
    match t.kind with
    | .key => do
      skip
      let k ← match (← peek).kind with
        | .key | .value | .blockEnd => pure (emptyNode t.line)
        | _ => node true true fuel
      let v ← blockValue fuel
      return (k, v) :: (← blockEntries fuel)
    | .blockEnd => do
      skip
      return []
    | _ => failure

/-- Builds the value of an entry by indentation. -/
def blockValue : Nat → Build Node
  | 0 => failure
  | fuel + 1 => do
    let t ← peek
    match t.kind with
    | .value => do
      skip
      match (← peek).kind with
      | .key | .value | .blockEnd => return emptyNode t.line
      | _ => node true true fuel
    | _ => return emptyNode t.line

/-- Builds the elements of a sequence in brackets. -/
def flowItems (first : Bool) : Nat → Build (List Node)
  | 0 => failure
  | fuel + 1 => do
    if (← peek).kind ≠ .sequenceClose && !first then
      if (← peek).kind = .flowEntry then skip else failure
    let t ← peek
    match t.kind with
    | .sequenceClose => do
      skip
      return []
    | .key => do
      skip
      let pair ← singlePair fuel
      return .mapping (t.line + 1) (lit "!!map") [pair] :: (← flowItems false fuel)
    | _ => do
      let item ← node false false fuel
      return item :: (← flowItems false fuel)

/-- Builds the one entry of a mapping that is written without braces inside brackets. A key that is
left out takes the token in its place along. -/
def singlePair : Nat → Build (Node × Node)
  | 0 => failure
  | fuel + 1 => do
    let t ← peek
    let k ← match t.kind with
      | .value | .flowEntry | .sequenceClose => do
        skip
        pure (emptyNode t.line)
      | _ => node false false fuel
    let t ← peek
    let v ← match t.kind with
      | .value => do
        skip
        let t ← peek
        match t.kind with
        | .flowEntry | .sequenceClose => pure (emptyNode t.line)
        | _ => node false false fuel
      | _ => pure (emptyNode t.line)
    return (k, v)

/-- Builds the entries of a mapping in braces. -/
def flowEntries (first : Bool) : Nat → Build (List (Node × Node))
  | 0 => failure
  | fuel + 1 => do
    if (← peek).kind ≠ .mappingClose && !first then
      if (← peek).kind = .flowEntry then skip else failure
    let t ← peek
    match t.kind with
    | .mappingClose => do
      skip
      return []
    | .key => do
      skip
      let t ← peek
      let k ← match t.kind with
        | .value | .flowEntry | .mappingClose => pure (emptyNode t.line)
        | _ => node false false fuel
      let v ← flowValue fuel
      return (k, v) :: (← flowEntries false fuel)
    | _ => do
      let k ← node false false fuel
      let v := emptyNode (← peek).line
      return (k, v) :: (← flowEntries false fuel)

/-- Builds the value of an entry in braces. -/
def flowValue : Nat → Build Node
  | 0 => failure
  | fuel + 1 => do
    let t ← peek
    match t.kind with
    | .value => do
      skip
      let t ← peek
      match t.kind with
      | .flowEntry | .mappingClose => return emptyNode t.line
      | _ => node false false fuel
    | _ => return emptyNode t.line

end

/-- Reads the directives before a document: at most one version, which has to be 1.1, and handles
for tags, each at most once. -/
def directives : Nat → Bool → List Text → Build Unit
  | 0, _, _ => failure
  | fuel + 1, seen, handles => do
    match (← peek).kind with
    | .version major minor =>
      if seen || major ≠ 1 || minor ≠ 1 then failure
      else do
        skip
        directives fuel true handles
    | .tagDirective handle start =>
      if handles.contains handle then failure
      else do
        modify fun b => { b with handles := (handle, start) :: b.handles }
        skip
        directives fuel seen (handle :: handles)
    | _ => return ()

/-- Builds the first document, if there is one. -/
def document : Build (Option Node) := do
  let fuel := 32 * (← get).scanner.cursor.bound
  let root ← match (← peek).kind with
    | .streamEnd => return none
    | .version .. | .tagDirective .. | .documentStart => do
      directives fuel false []
      if (← peek).kind ≠ .documentStart then failure
      skip
      let t ← peek
      match t.kind with
      | .version .. | .tagDirective .. | .documentStart | .documentEnd | .streamEnd =>
        pure (emptyNode t.line)
      | _ => node true false fuel
    | _ => node true false fuel
  let _ ← peek
  return some root

end Build

/-- The first document of a text: none when the text is no YAML stream, and an empty answer when it
holds no document. -/
def document? (t : Text) : Option (Option Document) := do
  let (root, b) ← Build.document.run { scanner := { cursor := .ofText t } }
  return root.map fun r => ⟨r, b.complete⟩

end CubeSchema.Yaml
