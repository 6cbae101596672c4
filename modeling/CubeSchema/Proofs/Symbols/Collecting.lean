import CubeSchema.Proofs.Symbols.Entries
import CubeSchema.Proofs.Symbols.References

/-!
# What collecting a source hands back

Collecting a source registers its declarations and hands them back in source order. A declaration
that is merged into an older entry is handed back as it is written. One that makes the entry of its
name is handed back as this entry, so it shows what later declarations of the same name add to it.
`collect_hands_back` says this for every table and every tree: what is written comes from the tree
alone (`Node.Writes`, `Writing.Names`), and the table and the other declarations only decide which
writings are merged.
-/

namespace CubeSchema

/-! ## The last of a list that tells something -/

/-- What the last element of a list tells, of those that tell anything at all. -/
def LastTells {α β : Type} (tells : α → β → Prop) (l : List α) (b : β) : Prop :=
  ∃ front x back, l = front ++ x :: back ∧ tells x b ∧ ∀ y ∈ back, ∀ b', ¬ tells y b'

theorem findSome?_reverse_eq_some {α β : Type} {f : α → Option β} {tells : α → β → Prop}
    (h : ∀ x b, f x = some b ↔ tells x b) {l : List α} {b : β} :
    l.reverse.findSome? f = some b ↔ LastTells tells l b := by
  rw [List.findSome?_eq_some_iff]
  constructor
  · rintro ⟨back, x, front, hl, hx, hback⟩
    refine ⟨front.reverse, x, back.reverse, ?_, (h x b).1 hx, fun y hy b' hb' => ?_⟩
    · simpa using congrArg List.reverse hl
    · have hnone := hback y (List.mem_reverse.1 hy)
      rw [(h y b').2 hb'] at hnone
      cases hnone
  · rintro ⟨front, x, back, rfl, hx, hback⟩
    refine ⟨back.reverse, x, front.reverse, by simp, (h x b).2 hx, fun y hy => ?_⟩
    rw [Option.eq_none_iff_forall_ne_some]
    exact fun b' hb' => hback y (List.mem_reverse.1 hy) b' ((h y b').1 hb')

theorem lookup_reverse_flatMap {α : Type} (f : α → List (Text × MemberType)) (l : List α)
    (name : Text) :
    (l.flatMap f).reverse.lookup name = l.reverse.findSome? fun x => (f x).reverse.lookup name := by
  induction l with
  | nil => rfl
  | cons x l ih =>
    rw [List.flatMap_cons, List.reverse_append, List.lookup_append, ih, List.reverse_cons,
      List.findSome?_append, List.findSome?_singleton]

/-- Of several members of one name, the last one that is added decides the type. -/
theorem Cube.member?_addMembers_last (c : Cube) (ms : List (Text × MemberType)) (name : Text) :
    (c.addMembers ms).member? name = (ms.reverse.lookup name).or (c.member? name) := by
  unfold addMembers
  induction ms generalizing c with
  | nil => rfl
  | cons m ms ih =>
    rw [List.foldl_cons, ih, member?_addMember, List.reverse_cons, List.lookup_append,
      Option.or_assoc, List.lookup_cons]
    by_cases hname : name = m.1
    · simp [hname]
    · have hne : (name == m.1) = false := by simpa using hname
      simp [hname, hne]

/-! ## What a declaration writes down -/

namespace Node

/-- A property whose key is written out, plain or quoted, as the given name. -/
inductive Keys : Node → Text → Prop
  | plain (pos kpos : Position) (name : Text) (value : Node) (shorthand : Bool) :
    Keys (property pos (identifier kpos name) value false shorthand) name
  | quoted (pos kpos : Position) (name raw : Text) (value : Node) (shorthand : Bool) :
    Keys (property pos (stringLiteral kpos name raw) value false shorthand) name

theorem memberName?_eq_some_iff {n : Node} {name : Text} :
    n.memberName? = some name ↔ n.Keys name := by
  constructor
  · intro h
    unfold memberName? at h
    split at h
    · obtain rfl := Option.some.inj h
      exact .plain ..
    · obtain rfl := Option.some.inj h
      exact .quoted ..
    · cases h
  · rintro (_ | _) <;> rfl

/-- A member block, keyed by its type, in which a property is keyed by the member. -/
def Gives (e : Node) (member : Text) (type : MemberType) : Prop :=
  ∃ pos key opos members computed shorthand block,
    e = property pos key (object opos members) computed shorthand ∧ e.Keys block ∧
      memberBlock? block = some type ∧ ∃ m ∈ members, m.Keys member

theorem lookup_map_const {names : List Text} {type : MemberType} {name : Text} :
    (names.map fun n => (n, type)).lookup name = if name ∈ names then some type else none := by
  induction names with
  | nil => rfl
  | cons n names ih =>
    rw [List.map_cons, List.lookup_cons, ih]
    by_cases h : name = n
    · simp [h]
    · have hne : (name == n) = false := by simpa using h
      simp [hne, h]

theorem lookup_blockMembers {e : Node} {member : Text} {type : MemberType} :
    e.blockMembers.reverse.lookup member = some type ↔ e.Gives member type := by
  unfold blockMembers
  split
  · rename_i pos key opos members computed shorthand
    cases hblock : (memberName? (property pos key (object opos members) computed shorthand)).bind
        memberBlock? with
    | none =>
      refine iff_of_false (by simp) ?_
      rintro ⟨_, _, _, _, _, _, block, heq, hkeys, htype, -⟩
      rw [memberName?_eq_some_iff.2 hkeys, Option.bind_some, htype] at hblock
      cases hblock
    | some blockType =>
      obtain ⟨block, hname, htype⟩ := Option.bind_eq_some_iff.1 hblock
      -- The members of a block all have one type, so that the order of the names does not matter.
      have hlist : (members.filterMap fun m => (memberName? m).map fun name => (name, blockType)) =
          (members.filterMap memberName?).map fun name => (name, blockType) :=
        (List.map_filterMap ..).symm
      have hmem : member ∈ (members.filterMap memberName?).reverse ↔
          ∃ m ∈ members, m.Keys member := by
        simp only [List.mem_reverse, List.mem_filterMap, memberName?_eq_some_iff]
      simp only [hlist, ← List.map_reverse, lookup_map_const]
      constructor
      · intro h
        split at h
        · rename_i hmember
          obtain rfl := Option.some.inj h
          exact ⟨_, _, _, _, _, _, block, rfl, memberName?_eq_some_iff.1 hname, htype,
            hmem.1 hmember⟩
        · cases h
      · rintro ⟨_, _, _, _, _, _, block', heq, hkeys, htype', hmember⟩
        obtain ⟨-, -, ⟨-, rfl⟩, -, -⟩ := Node.property.inj heq
        rw [memberName?_eq_some_iff.2 hkeys] at hname
        obtain rfl := Option.some.inj hname
        rw [if_pos (hmem.2 hmember), ← htype, htype']
  · rename_i hother
    refine iff_of_false (by simp) ?_
    rintro ⟨_, _, _, _, _, _, _, heq, -⟩
    exact hother _ _ _ _ _ _ heq

end Node

/-- What a call of `cube` or `view` writes down: a name, which of the two it declares, and the
entries of its body. -/
structure Writing where
  /-- The name it declares. -/
  name : Text
  /-- Whether it declares a view. -/
  isView : Bool
  /-- What is written in its body. -/
  entries : List Node

namespace Writing

/-- A member with the type that a declaration writes for it: that of the last block that names the
member. -/
def Names (w : Writing) (member : Text) (type : MemberType) : Prop :=
  LastTells (fun e t => e.Gives member t) w.entries type

/-- The cube or view as it is written. -/
def cube (file : Text) (w : Writing) : Cube :=
  Cube.addMembers { name := w.name, isView := w.isView, file } (w.entries.flatMap Node.blockMembers)

end Writing

namespace Node

/-- A call of `cube` or `view` with a name that is known and not empty as its first argument, and an
object as its last and another argument. -/
def Writes (n : Node) (w : Writing) : Prop :=
  ∃ pos callee first rest optional opos, n = call (identifier pos callee) (first :: rest) optional ∧
    (callee = lit "cube" ∧ w.isView = false ∨ callee = lit "view" ∧ w.isView = true) ∧
    first.staticName = w.name ∧ w.name ≠ [] ∧ rest.getLast? = some (object opos w.entries)

/-- What a node writes down, if it is a declaration. -/
def writing? (n : Node) : Option Writing :=
  match n.declares?, n.lastArg? with
  | some (name, isView), some (object _ entries) => some ⟨name, isView, entries⟩
  | _, _ => none

/-- What the declarations of a tree write down, in source order. -/
def writings (n : Node) : List Writing := n.nodes.filterMap writing?

theorem writing?_eq_some_iff {n : Node} {w : Writing} : n.writing? = some w ↔ n.Writes w := by
  constructor
  · intro h
    unfold writing? at h
    split at h
    · rename_i name isView opos entries hdeclares hlast
      obtain rfl := Option.some.inj h
      obtain ⟨pos, callee, first, rest, optional, rfl, hcallee, hrest, hname, hne⟩ :=
        declares?_eq_some_iff.1 hdeclares
      rw [lastArg?, List.getLast?_cons_of_ne_nil hrest] at hlast
      exact ⟨pos, callee, first, rest, optional, opos, rfl, hcallee, hname, hne, hlast⟩
    · cases h
  · rintro ⟨pos, callee, first, rest, optional, opos, rfl, hcallee, hname, hne, hlast⟩
    have hrest : rest ≠ [] := by
      rintro rfl
      cases hlast
    have hdeclares : declares? (call (identifier pos callee) (first :: rest) optional) =
        some (w.name, w.isView) :=
      declares?_eq_some_iff.2 ⟨pos, callee, first, rest, optional, rfl, hcallee, hrest, hname, hne⟩
    have hlast' : lastArg? (call (identifier pos callee) (first :: rest) optional) =
        some (object opos w.entries) := by
      rwa [lastArg?, List.getLast?_cons_of_ne_nil hrest]
    rw [writing?, hdeclares, hlast']

theorem declarations_eq_writings (file : Text) (n : Node) :
    n.declarations file = n.writings.map (Writing.cube file) := by
  rw [declarations_eq, writings, List.map_filterMap]
  congr 1
  funext m
  unfold declaration? writing?
  cases m.declares? with
  | none => rfl
  | some d =>
    cases m.lastArg? with
    | none => rfl
    | some body => cases body <;> rfl

end Node

namespace Writing

variable (file : Text)

/-- The members of a cube are what its declaration writes down. -/
theorem member?_cube {w : Writing} {member : Text} {type : MemberType} :
    (w.cube file).member? member = some type ↔ w.Names member type := by
  rw [cube, Cube.member?_addMembers_last, Names,
    ← findSome?_reverse_eq_some fun _ _ => Node.lookup_blockMembers]
  have hnone : Cube.member? { name := w.name, isView := w.isView, file } member = none := rfl
  rw [hnone, Option.or_none, lookup_reverse_flatMap]

theorem nodup_cube (w : Writing) : ((w.cube file).members.map Prod.fst).Nodup :=
  Cube.nodup_addMembers (c := { name := w.name, isView := w.isView, file }) List.nodup_nil _

@[simp] theorem name_cube (w : Writing) : (w.cube file).name = w.name := by simp [cube]

@[simp] theorem file_cube (w : Writing) : (w.cube file).file = file := by simp [cube]

@[simp] theorem external_cube (w : Writing) : (w.cube file).external = false := by simp [cube]

@[simp] theorem isView_cube (w : Writing) : (w.cube file).isView = w.isView := by
  rw [cube, Cube.addMembers_eq]

end Writing

/-! ## What is handed back -/

namespace SymbolTable

theorem length_registerAll (t : SymbolTable) (cs : List Cube) :
    (t.registerAll cs).2.length = cs.length := by
  induction cs generalizing t with
  | nil => rfl
  | cons c cs ih => simpa [registerAll] using ih (t.register c)

/-- A declaration is handed back with the mark whether it made an entry in the table as it was then.
-/
theorem getElem?_registerAll (t : SymbolTable) (front : List Cube) (c : Cube) (back : List Cube) :
    (t.registerAll (front ++ c :: back)).2[front.length]? =
      some { cube := c, founded := (t.registering front).founds c } := by
  induction front generalizing t with
  | nil => rfl
  | cons d front ih => simpa [registerAll, registering] using ih (t.register d)

/-- A name that a schema has registered stands for a schema's cube. -/
theorem external_foldl_joined (entry : Option Cube) {cs : List Cube}
    (h : ∀ c ∈ cs, c.external = false) (hne : cs ≠ []) :
    ∃ e, cs.foldl joined entry = some e ∧ e.external = false := by
  obtain ⟨c, cs, rfl⟩ := List.exists_cons_of_ne_nil hne
  have hc := h c (List.mem_cons_self ..)
  obtain ⟨e, he, hexternal⟩ : ∃ e, joined entry c = some e ∧ e.external = false := by
    unfold joined
    cases entry with
    | none => exact ⟨c, rfl, hc⟩
    | some old =>
      cases hold : old.external with
      | true => exact ⟨c, by simp [hold, hc], hc⟩
      | false => exact ⟨merge old c, by simp [hold], by simp [hold]⟩
  exact ⟨cs.foldl merge e, by rw [List.foldl_cons, he, foldl_joined_some (.inl hexternal)],
    by simp [hexternal]⟩

/-- A declaration makes the entry of its name if none in front of it has this name, and at most a
manifest has declared the name before. -/
def Starts (t : SymbolTable) (front : List Writing) (w : Writing) : Prop :=
  (∀ x ∈ front, x.name ≠ w.name) ∧ ∀ e, t.cube? w.name = some e → e.external = true

theorem named_map_cube (file name : Text) (ws : List Writing) :
    named name (ws.map (Writing.cube file)) =
      (ws.filter fun x => x.name = name).map (Writing.cube file) := by
  rw [named, List.filter_map]
  simp [Function.comp_def]

theorem founds_iff {t : SymbolTable} (file : Text) {front : List Writing} {w : Writing} :
    (t.registering (front.map (Writing.cube file))).founds (w.cube file) = true ↔
      t.Starts front w := by
  unfold founds Starts
  rw [cube?_registering, Writing.name_cube, Writing.external_cube, named_map_cube]
  by_cases hfront : ∀ x ∈ front, x.name ≠ w.name
  · have hnone : (front.filter fun x => x.name = w.name) = [] := by simpa using hfront
    rw [hnone, and_iff_right hfront]
    cases t.cube? w.name <;> simp
  · -- A declaration in front of it has made an entry that stays.
    obtain ⟨x, hx, hname⟩ : ∃ x ∈ front, x.name = w.name := by simpa using hfront
    have hmem : x.cube file ∈ (front.filter fun x => x.name = w.name).map (Writing.cube file) :=
      List.mem_map_of_mem (List.mem_filter.2 ⟨hx, by simpa using hname⟩)
    obtain ⟨e, he, hexternal⟩ := external_foldl_joined (t.cube? w.name)
      (List.forall_mem_map.2 fun y _ => y.external_cube file) (List.ne_nil_of_mem hmem)
    rw [he]
    simp [hexternal, hfront]

/-- What collecting a source hands back, as it shows once all is collected. -/
def handedBack (t : SymbolTable) (file : Text) (n : Node) : List Cube :=
  (t.collect file n).2.map fun d => d.shown (t.collect file n).1

/-- What shows of one declaration: it is merged with those of its name that follow if it makes the
entry of the name, and stands for itself otherwise. -/
theorem getElem?_handedBack (t : SymbolTable) (file : Text) {n : Node}
    {front back : List Writing} {w : Writing} (h : n.writings = front ++ w :: back) :
    (t.Starts front w → (t.handedBack file n)[front.length]? =
      some (((back.filter fun x => x.name = w.name).map (Writing.cube file)).foldl merge
        (w.cube file))) ∧
    (¬ t.Starts front w → (t.handedBack file n)[front.length]? = some (w.cube file)) := by
  have hcubes : n.declarations file =
      front.map (Writing.cube file) ++ w.cube file :: back.map (Writing.cube file) := by
    rw [Node.declarations_eq_writings, h, List.map_append, List.map_cons]
  have hget := getElem?_registerAll t (front.map (Writing.cube file)) (w.cube file)
    (back.map (Writing.cube file))
  rw [List.length_map] at hget
  rw [handedBack, collect, hcubes, List.getElem?_map, hget, Option.map_some, Declared.shown,
    registerAll_fst]
  constructor
  · intro hstarts
    have hjoined : joined (t.cube? w.name) (w.cube file) = some (w.cube file) := by
      unfold joined
      cases hentry : t.cube? w.name with
      | none => rfl
      | some e => simp [hstarts.2 e hentry]
    have hfront : (front.filter fun x => x.name = w.name) = [] := by simpa using hstarts.1
    simp only [(founds_iff file).2 hstarts, if_true]
    rw [Writing.name_cube, cube?_registering, named, List.filter_append,
      List.filter_cons_of_pos (by simp), ← named, ← named, named_map_cube, named_map_cube, hfront,
      List.map_nil, List.nil_append, List.foldl_cons, hjoined, foldl_joined_some (.inl (by simp)),
      Option.getD_some]
  · intro hstarts
    have hfounds := Bool.eq_false_iff.2 fun hf => hstarts ((founds_iff file).1 hf)
    simp only [hfounds]
    rfl

/-- Collecting hands back one cube for every declaration of a tree, in source order. A declaration
that makes the entry of its name shows what it and the later declarations of its name write, each
member with the type that the last of them gives it. Any other declaration, and one whose name does
not occur again, shows what it writes itself, whatever the table and the rest of the tree hold. -/
theorem collect_hands_back (t : SymbolTable) (file : Text) (n : Node) :
    (∀ (m : Node) (w : Writing), m.writing? = some w ↔ m.Writes w) ∧
    (t.handedBack file n).length = n.writings.length ∧
    ∀ front w back, n.writings = front ++ w :: back →
      ∃ c, (t.handedBack file n)[front.length]? = some c ∧
        c.name = w.name ∧ c.file = file ∧ c.external = false ∧ (c.members.map Prod.fst).Nodup ∧
        (t.Starts front w → ∀ later, later = (back.filter fun x => x.name = w.name) →
          (c.isView = true ↔ ∃ x ∈ w :: later, x.isView = true) ∧
          ∀ m type, c.member? m = some type ↔
            LastTells (fun x => Writing.Names x m) (w :: later) type) ∧
        (¬ t.Starts front w ∨ (∀ x ∈ back, x.name ≠ w.name) →
          c.isView = w.isView ∧ ∀ m type, c.member? m = some type ↔ w.Names m type) := by
  refine ⟨fun _ _ => Node.writing?_eq_some_iff, ?_, fun front w back h => ?_⟩
  · rw [handedBack, List.length_map, collect, length_registerAll, Node.declarations_eq_writings,
      List.length_map]
  obtain ⟨hmerged, halone⟩ := getElem?_handedBack t file h
  by_cases hstarts : t.Starts front w
  · refine ⟨_, hmerged hstarts, by simp, by simp, by simp,
      nodup_foldl_merge (w.nodup_cube file) _,
      fun _ later hlater => ⟨?_, fun m type => ?_⟩, fun h => ?_⟩
    · rw [← hlater, isView_foldl_merge]
      simp
    · rw [← hlater, member?_foldl_merge (List.forall_mem_map.2 fun x _ => x.nodup_cube file),
        ← findSome?_reverse_eq_some fun _ _ => Writing.member?_cube file, ← List.map_cons,
        ← List.map_reverse, List.findSome?_map]
      rfl
    · -- Nothing is merged into the entry.
      have hback : (back.filter fun x => x.name = w.name) = [] := by
        simpa using h.resolve_left (not_not_intro hstarts)
      rw [hback]
      exact ⟨w.isView_cube file, fun _ _ => Writing.member?_cube file⟩
  · exact ⟨_, halone hstarts, by simp, by simp, by simp, w.nodup_cube file,
      fun h => absurd h hstarts,
      fun _ => ⟨w.isView_cube file, fun _ _ => Writing.member?_cube file⟩⟩

/-- A cube that is declared three times, the last time as a view and around another cube. -/
def recurringCube : Node :=
  let entry (key : String) (value : Node) : Node :=
    .property .unknown (.identifier .unknown (lit key)) value false false
  let block (key : String) (members : List String) : Node :=
    entry key (.object .unknown (members.map fun m => entry m (.object .unknown [])))
  let declared (callee name : String) (entries : List Node) : Node :=
    .call (.identifier .unknown (lit callee))
      [.stringLiteral .unknown (lit name) [], .object .unknown entries] false
  .program .unknown
    [.exprStmt (declared "cube" "A" [block "measures" ["x", "y"], block "dimensions" ["y"]]),
      .exprStmt (declared "cube" "A" [block "segments" ["x"]]),
      .exprStmt (declared "view" "A"
        [block "measures" ["z"], entry "joins" (declared "cube" "B" [block "measures" ["x"]])])]

/-- The first declaration shows the type that the second one writes for their common member, and the
second one shows nothing of the first. -/
theorem recurringCube_handed_back : ∃ w₀ w₁ back, recurringCube.writings = w₀ :: w₁ :: back ∧
    Starts {} [] w₀ ∧ ¬ Starts {} [w₀] w₁ ∧
    LastTells (fun x => Writing.Names x (lit "x"))
      (w₀ :: (w₁ :: back).filter fun x => x.name = w₀.name) .segment ∧
    w₁.Names (lit "x") .segment ∧ ∀ type, ¬ w₁.Names (lit "y") type := by
  obtain ⟨w₀, w₁, back, h, hsame⟩ : ∃ w₀ w₁ back, recurringCube.writings = w₀ :: w₁ :: back ∧
      w₀.name = w₁.name := ⟨_, _, _, rfl, rfl⟩
  have hstarts : Starts {} [] w₀ := ⟨by simp, by simp [cube?]⟩
  have hmerged : ¬ Starts {} [w₀] w₁ := fun hs => hs.1 w₀ (List.mem_singleton_self _) hsame
  have hall := (collect_hands_back {} (lit "a.js") recurringCube).2.2
  obtain ⟨c, hc, -, -, -, -, hshown, -⟩ := hall [] w₀ (w₁ :: back) h
  obtain ⟨d, hd, -, -, -, -, -, hwritten⟩ := hall [w₀] w₁ back h
  have hx : c.member? (lit "x") = some .segment := by
    have heval : ((handedBack {} (lit "a.js") recurringCube)[0]?).bind (·.member? (lit "x")) =
        some .segment := by decide +kernel
    rwa [show (handedBack {} (lit "a.js") recurringCube)[0]? = some c from hc] at heval
  have hd' : d.member? (lit "x") = some .segment ∧ d.member? (lit "y") = none := by
    have heval : ((handedBack {} (lit "a.js") recurringCube)[1]?).map
        (fun d => (d.member? (lit "x"), d.member? (lit "y"))) = some (some .segment, none) := by
      decide +kernel
    rw [show (handedBack {} (lit "a.js") recurringCube)[1]? = some d from hd] at heval
    exact Prod.mk.inj (Option.some.inj heval)
  have hexact := (hwritten (.inl hmerged)).2
  refine ⟨w₀, w₁, back, h, hstarts, hmerged, ((hshown hstarts _ rfl).2 _ _).1 hx,
    (hexact _ _).1 hd'.1, fun type hy => ?_⟩
  rw [(hexact _ _).2 hy] at hd'
  exact absurd hd'.2 (by simp)

/-- The first declaration shows a member that it does not write. -/
theorem later_member_shown : ∃ w c, recurringCube.writings.head? = some w ∧
    (handedBack {} (lit "a.js") recurringCube).head? = some c ∧
    c.member? (lit "z") = some .measure ∧ ∀ type, ¬ w.Names (lit "z") type := by
  refine ⟨_, _, rfl, rfl, by decide +kernel, fun type hz => ?_⟩
  have hmember := (Writing.member?_cube []).2 hz
  have hnone : ∀ w ∈ recurringCube.writings.head?, (w.cube []).member? (lit "z") = none := by
    decide +kernel
  rw [hnone _ rfl] at hmember
  cases hmember

end SymbolTable

end CubeSchema
