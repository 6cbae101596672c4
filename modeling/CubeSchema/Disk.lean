import CubeSchema.FileTree

/-!
# Disks

A file tree as a disk has it, with symbolic links and whatever else is neither a file nor a
directory. Following a name goes on at the target of every link that it meets; a link at its end is
followed or is itself what the name leads to. Files that are written or asked for are told by the
tree alone; a disk is needed where it matters what a name leads to.
-/

namespace CubeSchema

/-- What stands at a place of a disk. -/
inductive Item where
  /-- A file or a directory. -/
  | plain (entry : Entry)
  /-- A symbolic link: the name that it stands for. -/
  | link (target : Text)
  /-- A device, a pipe or a socket, with what is read from it. -/
  | special (content : Text)
  /-- Something that cannot be read. -/
  | sealed (fault : FileFault)
  deriving DecidableEq, Repr

/-- A directory of the disk. -/
abbrev Item.directory : Item := plain .directory

/-- What an item gives to a reader; nothing is read from a link itself. -/
def Item.content : Item → Except FileFault Text
  | plain .directory => .error .isDirectory
  | plain e => .ok e.content
  | link _ => .error .looped
  | special content => .ok content
  | sealed fault => .error fault

/-- What stands where. The root is always there and is not listed. -/
structure Disk where
  /-- The places that are not empty. -/
  items : List (Place × Item) := []
  deriving Repr

namespace Disk

/-- A file tree is a disk on which nothing else stands. -/
def ofTree (t : FileTree) : Disk := ⟨t.entries.map fun x => (x.1, .plain x.2)⟩

instance : Coe FileTree Disk := ⟨ofTree⟩

/-- What stands at a place. -/
def at? (d : Disk) (p : Place) : Option Item :=
  if p.isEmpty then some .directory else d.items.lookup p

/-- Where one component of a name leads from a place. -/
inductive Turn where
  /-- Nowhere. -/
  | fails (fault : FileFault)
  /-- To a place. -/
  | goes (place : Place)
  /-- To a link. -/
  | meets (target : Text)

/-- Follows one component, which takes a directory to start from. -/
def turn (d : Disk) (place : Place) (c : Text) : Turn :=
  match d.at? place with
  | some (.plain .directory) =>
    if c = Path.here then .goes place
    else if c = Path.up then .goes place.dropLast
    else if c.length > FileTree.maxComponent then .fails .nameTooLong
    else
      match d.at? (place ++ [c]) with
      | none => .fails .missing
      | some (.link target) => .meets target
      | some _ => .goes (place ++ [c])
  | some _ => .fails .notDirectory
  | none => .fails .missing

/-- Follows components from a place up to a link, where it goes on with the link's directory and
target and the components that are left. A link at the end is followed only if `last` says so. -/
def walkWith (d : Disk) (last : Bool)
    (onLink : Place → Text → List Text → Except FileFault (Place × Item)) (place : Place) :
    List Text → Except FileFault (Place × Item)
  | [] =>
    match d.at? place with
    | some item => .ok (place, item)
    | none => .error .missing
  | c :: rest =>
    match d.turn place c with
    | .fails f => .error f
    | .goes q => d.walkWith last onLink q rest
    | .meets target =>
      if rest.isEmpty && !last then .ok (place ++ [c], .link target)
      else onLink place target rest

/-- The components of a name; behind a closing slash the directory itself is one more. -/
def parts (p : Text) : List Text :=
  Path.components p ++ if FileTree.wantsDirectory p then [Path.here] else []

/-- The place that the target of a link starts from, where the link stands in `place`. -/
def base (place : Place) (target : Text) : Place := if Path.isAbsolute target then [] else place

/-- Follows components from a place, and no more than so many links. -/
def walkFrom (d : Disk) (last : Bool) : Nat → Place → List Text → Except FileFault (Place × Item)
  | 0 => d.walkWith last fun _ _ _ => .error .looped
  | links + 1 => d.walkWith last fun place target rest =>
      d.walkFrom last links (base place target) (parts target ++ rest)

/-- The most links that are followed on the way of one name. -/
def maxLinks : Nat := 40

/-- Follows a name. -/
def follow (d : Disk) (last : Bool) (cwd p : Text) : Except FileFault (Place × Item) :=
  if p.isEmpty then .error .missing
  else if List.contains p 0 then .error .invalidName
  else if p.length > FileTree.maxName then .error .nameTooLong
  else d.walkFrom last maxLinks (FileTree.origin cwd p) (parts p)

/-- The content of a file. -/
def read (d : Disk) (cwd p : Text) : Except FileError Text :=
  match d.follow true cwd p with
  | .error f => .error ⟨"open", p, f⟩
  | .ok (_, .plain .directory) => .error ⟨"read", p, .isDirectory⟩
  | .ok (_, item) => item.content.mapError fun f => ⟨"open", p, f⟩

end Disk

end CubeSchema
